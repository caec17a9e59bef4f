/-
Single edits of a fixed sequence of tokens.

A rule that is a sequence of tokens leaves no choice: its states read these tokens
in a row.  If one of them is left out of the input, the token behind it is met too
early, and nothing else is dropped or put in but a placeholder for it; if one more
is put into the input, it alone is dropped.
-/
import AdaptiveLL.Proofs.Layout.Landing
import AdaptiveLL.Proofs.Recovery.Progress

namespace AdaptiveLL

/-- From this state a rule reads tokens of these types in a row, and then it ends. -/
inductive Graph.Row (g : Graph) (rule : RuleIndex) : StateId → List TokenType → Prop where
  | stop {id} (hstop : g.Stops rule id) : Row g rule id []
  | hop {id target role types} (hrole : role = .basic ∨ role = .ruleStart)
      (hid : g.shape? id = some ⟨role, rule, [.epsilon target]⟩)
      (hrest : Row g rule target types) : Row g rule id types
  | read {id target type types} (hid : g.shape? id = some ⟨.basic, rule, [.atom target type]⟩)
      (hrest : Row g rule target types) : Row g rule id (type :: types)

section Layout

variable {g : Graph} {v : Vocabulary} {rule : RuleIndex} {entry exit lo hi : Nat}

/-- A token lies on one transition, which reads it. -/
theorem Laid.shape_of_token {e : Expr} {type : TokenType} (h : Laid g v rule e entry exit lo hi)
    (htoken : TokenFor v e type) : g.shape? entry = some ⟨.basic, rule, [.atom exit type]⟩ := by
  have he : e.isTokenName = true ∨ e = .eof := by cases htoken <;> simp [Expr.isTokenName]
  obtain ⟨type', htoken', hentry⟩ := h.token_inv he
  rwa [htoken.unique htoken']

/-- Behind a token an empty transition leads on. -/
theorem Graph.Row.of_token (hlands : g.Lands) {e : Expr} {type : TokenType} {types : List TokenType}
    {target : Nat} (h : Laid g v rule e entry exit lo hi) (htoken : TokenFor v e type)
    (hleave : g.LeadsTo rule exit target) (hrest : g.Row rule target types) :
    g.Row rule entry (type :: types) := by
  have hentry := h.shape_of_token htoken
  obtain ⟨landed, hlanded, hbasic⟩ := hlands _ _ _ hentry (List.mem_singleton_self _) rfl
  obtain ⟨role, _, hexit⟩ := hleave
  obtain rfl := Option.some.inj (hexit.symm.trans hlanded)
  exact .read hentry (.hop (.inl hbasic) hexit hrest)

/-- A sequence of tokens reads them in a row. -/
theorem Laid.row (hlands : g.Lands) {es : List Expr} {types rest : List TokenType} {target : Nat}
    (h : Laid g v rule (.seq es) entry exit lo hi) (hes : es ≠ [])
    (htokens : List.Forall₂ (TokenFor v) es types) (hleave : g.LeadsTo rule exit target)
    (hrest : g.Row rule target rest) : g.Row rule entry (types ++ rest) := by
  induction htokens generalizing entry lo with
  | nil => exact absurd rfl hes
  | cons htoken hmore ih =>
    cases hmore with
    | nil => exact .of_token hlands h.only_inv htoken hleave hrest
    | cons _ _ =>
      obtain ⟨mid, mid', cut, hfirst, hlaid, hmid⟩ := h.chain_inv
      exact .of_token hlands hfirst htoken hmid (ih hlaid nofun)

/-- A rule that is a sequence of tokens reads them in a row and then ends. -/
theorem RuleLaid.row {r : Rule} {span : RuleSpan} {part : Part}
    (hlaid : RuleLaid g v rule r span part) (hlands : g.Lands) {es : List Expr}
    {types : List TokenType} (hbody : r.body = .seq es) (hes : es ≠ [])
    (htokens : List.Forall₂ (TokenFor v) es types) : g.Row rule span.start types := by
  have hlaid' := hlaid.body
  rw [hbody] at hlaid'
  have hrow := hlaid'.row hlands hes htokens hlaid.leave (.stop hlaid.stop_shape)
  rw [List.append_nil] at hrow
  exact .hop (.inr rfl) hlaid.start_shape hrow

end Layout

/-- The input goes on with these tokens from a visible place, if there are any. -/
structure Ahead (ts : List Token) (place : Nat) (tokens : List Token) : Prop where
  visible : ∃ t, ts[place]? = some t ∧ t.isVisible = true
  upcoming_eq : tokens ≠ [] → upcoming ts place = tokens

namespace Ahead

variable {ts tokens : List Token} {place : Nat} {t : Token}

/-- The first of the tokens ahead is at hand, and the others lie behind it. -/
theorem head (h : Ahead ts place (t :: tokens)) (hends : Ended ts) :
    ts[place]? = some t ∧ Ahead ts (nextPlace ts place) tokens := by
  obtain ⟨t', ht', hvisible⟩ := h.visible
  have hupcoming := h.upcoming_eq nofun
  have hnext := hends.nextPlace_visible h.visible
  cases heof : t'.isEof with
  | true =>
    rw [hends.upcoming_of_isEof ht' heof] at hupcoming
    obtain ⟨rfl, rfl⟩ := List.cons.inj hupcoming
    exact ⟨ht', hnext, fun hne => absurd rfl hne⟩
  | false =>
    rw [(hends.upcoming_of_run ht' hvisible heof).1] at hupcoming
    obtain ⟨rfl, hrest⟩ := List.cons.inj hupcoming
    exact ⟨ht', hnext, fun _ => hrest⟩

/-- The next token is among those ahead. -/
theorem next_mem {next : Token} (h : Ahead ts place tokens) (hends : Ended ts) (hne : tokens ≠ [])
    (hnext : ts[nextPlace ts place]? = some next) : next ∈ tokens := by
  obtain ⟨t, ht, hvisible⟩ := h.visible
  rw [← h.upcoming_eq hne]
  cases heof : t.isEof with
  | true =>
    rw [nextPlace_of_isEof ht heof, ht] at hnext
    obtain rfl := Option.some.inj hnext
    exact hends.upcoming_of_isEof ht heof ▸ List.mem_singleton_self t
  | false =>
    obtain ⟨next', hnext', hvisible'⟩ := hends.nextPlace_visible h.visible
    obtain rfl := Option.some.inj (hnext.symm.trans hnext')
    rw [(hends.upcoming_of_run ht hvisible heof).1, upcoming_of_isVisible hnext hvisible']
    exact List.mem_cons_of_mem t List.mem_cons_self

end Ahead

/-- A run has come to the end of the outermost rule with one repair: the one report
stands at the token that was found, and the parts of the node are tokens that were
matched and one error leaf. -/
structure Progress.Repaired (n : Network) (kind : DiagnosticKind) (found : Token)
    (front : List Token) (repaired : Token) (behind : List Token) (p : Progress) : Prop where
  stop : n.isStop p.state = true
  reports : ∃ message, p.reports = [.atToken kind found message]
  children : p.children = front.map .leaf ++ .error repaired :: behind.map .leaf

namespace Graph.Row

variable {interp : Interpreter} {v : Vocabulary} {rules : List Rule} {rule : RuleIndex}
  {ts tokens rest : List Token} {types : List TokenType} {e : Entry} {p : Progress}
  {Q : Progress → Prop}

/-- What a row reads first can be read next. -/
theorem canRead {id : StateId} {type : TokenType}
    (h : interp.network.toGraph.Row rule id (type :: types)) :
    interp.network.CanRead type ⟨id, []⟩ := by
  generalize hw : type :: types = w at h
  induction h with
  | stop => cases hw
  | @hop id target role _ hrole hid _ ih =>
    obtain ⟨y, hmoves, hy⟩ := ih hw
    have hrun : role ≠ .ruleStop := by rintro rfl; rcases hrole with h | h <;> cases h
    obtain ⟨s, hs, hgoes, ht⟩ := (Graph.LeadsOn.of_shape hid hrun).state
    have hmove : Move interp.network.toGraph ⟨id, []⟩ ⟨target, []⟩ :=
      .pass hs hgoes (ht ▸ List.mem_singleton_self _) rfl rfl
    exact ⟨y, .head hmove hmoves, hy⟩
  | @read id target _ _ hid =>
    obtain ⟨rfl, rfl⟩ := List.cons.inj hw
    obtain ⟨s, hs, hgoes, ht⟩ := (Graph.LeadsOn.of_shape hid nofun).state
    have haccepts : (Transition.atom target type).accepts interp.network.maxType type = true :=
      beq_self_eq_true type
    exact ⟨_, .refl, .inl ⟨s, _, hs, hgoes, ht ▸ List.mem_singleton_self _, haccepts⟩⟩

/-- A run in a row comes to where the next token is read, or to the end of the rule. -/
theorem leads {w : List TokenType} (h : interp.network.toGraph.Row rule p.state w)
    (hstop : ∀ id, w = [] → interp.network.toGraph.Stops rule id →
      interp.Leads ts e { p with state := id } Q)
    (hread : ∀ id target type types s, w = type :: types → interp.network.state? id = some s →
      s.transitions = [.atom target type] → interp.network.toGraph.Row rule target types →
        interp.Leads ts e { p with state := id } Q) : interp.Leads ts e p Q := by
  obtain ⟨place, state, strategy, children, reports⟩ := p
  change interp.network.toGraph.Row rule state w at h
  induction h with
  | stop hid => exact hstop _ rfl hid
  | hop hrole hid _ ih =>
    obtain ⟨s, hs, hshape⟩ := Graph.state?_of_shape? hid
    obtain ⟨hrole', _, ht⟩ := Shape.mk.inj hshape
    exact Interpreter.leads_hop hs ht (hrole' ▸ hrole) (ih hstop hread)
  | read hid hrest =>
    obtain ⟨s, hs, hshape⟩ := Graph.state?_of_shape? hid
    exact hread _ _ _ _ s rfl hs (Shape.mk.inj hshape).2.2 hrest

/-- The tokens of a row are read where they are met. -/
theorem leads_reads (hruns : interp.network.Runs v rules) (hends : Ended ts)
    (h : interp.network.toGraph.Row rule p.state (tokens.map Token.type ++ types))
    (hahead : Ahead ts p.place (tokens ++ rest))
    (hQ : ∀ p', interp.network.toGraph.Row rule p'.state types → Ahead ts p'.place rest →
      p'.children = p.children ++ tokens.map .leaf → p'.reports = p.reports →
        (p.strategy.recovering = false → p'.strategy.recovering = false) →
          interp.Leads ts e p' Q) : interp.Leads ts e p Q := by
  induction tokens generalizing p with
  | nil => exact hQ p h hahead (List.append_nil _).symm rfl id
  | cons t tokens ih =>
    obtain ⟨ht, hbehind⟩ := hahead.head hends
    refine h.leads (fun _ hnone => nomatch hnone) fun id target type w s hw hs htrans hrest => ?_
    obtain ⟨rfl, rfl⟩ := List.cons.inj hw
    refine Interpreter.leads_read hruns hs htrans rfl ht (beq_self_eq_true _)
      (ih hrest hbehind fun p' hrow hahead' hchildren hreports hcalm => ?_)
    refine hQ p' hrow hahead' ?_ hreports fun _ => hcalm rfl
    rw [hchildren, List.append_assoc]
    rfl

/-- What a row reads up to the end of the rule. -/
theorem leads_ends (hruns : interp.network.Runs v rules) (hends : Ended ts)
    (h : interp.network.toGraph.Row rule p.state (tokens.map Token.type))
    (hahead : Ahead ts p.place tokens)
    (hQ : ∀ p', interp.network.isStop p'.state = true →
      p'.children = p.children ++ tokens.map .leaf → p'.reports = p.reports → Q p') :
    interp.Leads ts e p Q := by
  rw [← List.append_nil (tokens.map Token.type)] at h
  rw [← List.append_nil tokens] at hahead
  refine h.leads_reads hruns hends hahead fun p' hrow _ hchildren hreports _ => ?_
  refine hrow.leads (fun _ _ hstop => ?_) fun _ _ _ _ _ hw => nomatch hw
  exact Interpreter.leads_here (hQ _ (Graph.isStop_iff.mpr hstop.state) hchildren hreports)

section Edits

variable {place : Nat} {id : StateId} {front behind : List Token} {extra found : Token}
  {type : TokenType}

/-- One token too many is dropped. -/
theorem leads_extra (hruns : interp.network.Runs v rules) (hends : Ended ts)
    (hnumbered : Numbered ts)
    (h : interp.network.toGraph.Row rule id ((front ++ found :: behind).map Token.type))
    (hahead : Ahead ts place (front ++ extra :: found :: behind))
    (hextra : extra.type ≠ found.type) :
    interp.Leads ts e ⟨place, id, {}, [], []⟩ fun p => ∃ dropped, dropped = extra ∧
      p.Repaired interp.network .extraneousInput extra front dropped (found :: behind) := by
  rw [List.map_append] at h
  refine leads_reads hruns hends h hahead fun p₁ hrow hahead₁ hchildren hreports hcalm => ?_
  obtain ⟨hat, hahead₂⟩ := hahead₁.head hends
  obtain ⟨hnext, hahead₃⟩ := hahead₂.head hends
  refine hrow.leads (fun _ hnone => nomatch hnone) fun id target type w s hw hs ht hrest => ?_
  obtain ⟨rfl, rfl⟩ := List.cons.inj hw
  -- Dropping is tried first: one token further on is the one that the row reads here.
  refine Interpreter.leads_drop hruns hs ht rfl hnumbered (hcalm rfl) hat hnext
    (beq_eq_false_iff_ne.mpr hextra.symm) (beq_self_eq_true _) ?_
  refine hrest.leads_ends hruns hends hahead₃ fun p₂ hstop hchildren₂ hreports₂ => ?_
  refine ⟨extra, rfl, hstop, ⟨_, hreports₂.trans (congrArg (· ++ _) hreports)⟩, ?_⟩
  rw [hchildren₂, hchildren]
  simp

/-- For one token too few a placeholder is put in. -/
theorem leads_gap (hruns : interp.network.Runs v rules) (hends : Ended ts)
    (hnumbered : Numbered ts)
    (h : interp.network.toGraph.Row rule id
      (front.map Token.type ++ type :: (found :: behind).map Token.type))
    (hahead : Ahead ts place (front ++ found :: behind))
    (hgap : type ∉ (found :: behind).map Token.type) :
    interp.Leads ts e ⟨place, id, {}, [], []⟩ fun p => ∃ missing : Token,
      (missing.type = type ∧ missing.isPlaceholder = true) ∧
        p.Repaired interp.network .missingToken found front missing (found :: behind) := by
  refine leads_reads hruns hends h hahead fun p₁ hrow hahead₁ hchildren hreports hcalm => ?_
  obtain ⟨hat, _⟩ := hahead₁.head hends
  refine hrow.leads (fun _ hnone => nomatch hnone) fun id target type' w s hw hs ht hrest => ?_
  obtain ⟨rfl, rfl⟩ := List.cons.inj hw
  have hrefuses {t : Token} (hmem : t ∈ found :: behind) :
      (Transition.atom target type).accepts interp.network.maxType t.type = false :=
    beq_eq_false_iff_ne.mpr fun heq => hgap (heq ▸ List.mem_map_of_mem hmem)
  -- The type that is missing does not occur ahead, so that no token is dropped in
  -- its place.
  have hlowest := (hruns.lowest_expected hs ht rfl []).least type (beq_self_eq_true type)
  refine Interpreter.leads_insert hruns hs ht rfl hnumbered (hcalm rfl) hat
    (hrefuses List.mem_cons_self) (fun next hnext => hrefuses (hahead₁.next_mem hends nofun hnext))
    (hruns.orderly.contains_lookInContext_iff.mpr hrest.canRead) fun previous => ?_
  refine hrest.leads_ends hruns hends hahead₁ fun p₂ hstop hchildren₂ hreports₂ => ?_
  refine ⟨_, ⟨(beq_iff_eq.mp hlowest.1).symm,
    interp.vocabulary.isPlaceholder_placeholder _ found previous⟩, hstop,
    ⟨_, hreports₂.trans (congrArg (· ++ _) hreports)⟩, hchildren₂.trans ?_⟩
  change p₁.children ++ [.error _] ++ (found :: behind).map .leaf = _
  rw [hchildren, List.append_assoc, List.append_assoc]
  rfl

end Edits

end Graph.Row

/-- The tokens of some leaves. -/
theorem ParseTree.leavesOfAll_map_leaf (tokens : List Token) :
    leavesOfAll (tokens.map .leaf) = tokens := by
  induction tokens with
  | nil => rfl
  | cons t tokens ih =>
    rw [List.map_cons, leavesOfAll, ih]
    rfl

/-- All visible tokens but the end of the input are tokens of the input. -/
theorem Supplies.length_input {source : TokenSource} {ts : List Token} (h : Supplies source 0 ts) :
    ((ts.filter Token.isVisible).filter Token.isInput).length + 1 =
      (ts.filter Token.isVisible).length := by
  have hnumbered := h.numbered
  obtain ⟨init, last, rfl, hlast, hinit⟩ := h.ends
  have hall : (init.filter Token.isVisible).filter Token.isInput = init.filter Token.isVisible := by
    refine List.filter_eq_self.mpr fun t ht => ?_
    have hmem := (List.mem_filter.mp ht).1
    obtain ⟨i, hi⟩ := List.mem_iff_getElem?.mp (List.mem_append_left [last] hmem)
    rw [Token.isInput, hnumbered.not_placeholder hi, hinit t hmem]
    rfl
  have hend : [last].filter Token.isVisible = [last] :=
    List.filter_cons_of_pos (Token.isVisible_of_isEof hlast)
  have hnone : [last].filter Token.isInput = [] := by simp [Token.isInput, hlast]
  rw [List.filter_append, List.filter_append, hall, hend, hnone, List.append_nil,
    List.length_append]
  rfl

/-- The outcome of a parse that made one repair: the one report stands at the token
that was found, and the one node has one error leaf among the tokens that were
matched. -/
structure ParseResult.RepairedOnce (result : ParseResult) (rule : String) (kind : DiagnosticKind)
    (found : Token) (front : List Token) (repaired : Token) (behind : List Token) : Prop where
  diagnostics : ∃ message, result.diagnostics = [.atToken kind found message]
  errors : result.metrics.errors = 1
  tree : result.tree =
    some (.node rule 1 false (front.map .leaf ++ .error repaired :: behind.map .leaf))

/-- The states of a rule that is a sequence of tokens read them in a row. -/
theorem Definition.exists_row {d : Definition} {g : Grammar} (hbuild : d.build = .ok g) {r : Rule}
    (hr : r ∈ d.merge.rules) {es : List Expr} {types : List TokenType} (hbody : r.body = .seq es)
    (hes : es ≠ []) (htokens : List.Forall₂ (TokenFor g.vocabulary) es types) :
    ∃ rules rule span, g.network.Runs g.vocabulary rules ∧
      g.network.ruleIndex? r.name = some rule ∧ g.network.rule? rule = some span ∧
      g.network.ruleName rule = r.name ∧ g.network.toGraph.Row rule span.start types := by
  obtain ⟨rules, hrules, _, hruns⟩ := Definition.runs_of_build hbuild
  obtain ⟨r', hr', hoperators⟩ := withOperators_exists hrules hr
  obtain ⟨hname, _⟩ := Rule.withOperators_cases hoperators
  obtain ⟨rule, span, part, hindex, _, hlaid⟩ := hruns.exists_ruleIndex hr'
  have hbody' : r'.body = .seq es := (Rule.body_withOperators_of_seq hbody hoperators).trans hbody
  refine ⟨rules, rule, span, hruns, hname ▸ hindex, hlaid.span_eq, ?_,
    hlaid.row (Definition.lands_of_build hbuild) hbody' hes htokens⟩
  rw [Graph.ruleName, hlaid.span_eq]
  exact hlaid.name_eq.trans hname

/-- A parse that is led to the end of its start rule with one repair has this
outcome. -/
theorem Parser.repairedOnce_of_leads {g : Grammar} {hooks : Hooks} {start : String}
    (options : ParserOptions) (listeners : List String) {tokens ts : List Token} {rule : RuleIndex}
    {span : RuleSpan} (hts : Supplies (.ofList tokens) 0 ts)
    (hindex : g.network.ruleIndex? start = some rule) (hspan : g.network.rule? rule = some span)
    (hname : g.network.ruleName rule = start) (hbuilds : options.buildTree = true)
    (hroom : 0 < options.maxErrors) {P : Token → Prop} {kind : DiagnosticKind} {found : Token}
    {front behind : List Token}
    (hleads : ∀ i e, Ahead ts i (ts.filter Token.isVisible) →
      Interpreter.Leads ⟨g.network, g.vocabulary, hooks⟩ ts e ⟨i, span.start, {}, [], []⟩ fun p =>
        ∃ repaired, P repaired ∧ p.Repaired g.network kind found front repaired behind) :
    ∃ repaired least result, P repaired ∧
      (∀ steps, least ≤ steps → (Parser.parse ⟨g, .ofSource (.ofList tokens), options, listeners⟩
        hooks steps start).result? = some (.ok result)) ∧
      result.RepairedOnce start kind found front repaired behind ∧
      result.metrics.tokens = ((front ++ repaired :: behind).filter Token.isInput).length := by
  obtain ⟨p, least, result, ⟨repaired, hrepaired, hp⟩, hparse, htree, hdiagnostics, herrors,
    hread⟩ := Parser.parse_of_leads hooks listeners hts hindex hspan hbuilds
      (fun i hat hnew => hleads i _ ⟨hat.visible, fun _ => hnew⟩)
      fun p ⟨_, _, hp⟩ => hp.stop
  obtain ⟨message, hreports⟩ := hp.reports
  refine ⟨repaired, least, result, hrepaired, hparse, ⟨⟨message, ?_⟩, ?_, ?_⟩, ?_⟩
  · rw [hdiagnostics, hreports, List.take_of_length_le hroom]
  · rw [herrors, hreports]
    rfl
  · rw [htree, hname, hp.children]
  · rw [hread, hp.children, ParseTree.leavesOfAll_append, ParseTree.leavesOfAll,
      ParseTree.leavesOfAll_map_leaf, ParseTree.leavesOfAll_map_leaf]
    rfl

/-- If a rule is a sequence of tokens of different types up to the end of the input,
a parse repairs a single edit of this sequence exactly.  For a token that is left
out, a placeholder of its type is put in between its neighbours; a token that is put
in is dropped, whatever its type is unless it is that of the token behind it.
Either way there is one report, and all other tokens are matched. -/
theorem Definition.parse_edited {d : Definition} {g : Grammar} (hbuild : d.build = .ok g) {r : Rule}
    (hr : r ∈ d.merge.rules) {es : List Expr} {types : List TokenType} (hbody : r.body = .seq es)
    (htokens : List.Forall₂ (TokenFor g.vocabulary) es (types ++ [.eof]))
    (hdistinct : (types ++ [TokenType.eof]).Nodup) (options : ParserOptions)
    (hbuilds : options.buildTree = true) (hroom : 0 < options.maxErrors) (listeners : List String)
    (hooks : Hooks) {tokens ts : List Token} (hts : Supplies (.ofList tokens) 0 ts) :
    (∀ before type after, types = before ++ type :: after →
      (ts.filter Token.isVisible).map Token.type = before ++ (after ++ [.eof]) →
      ∃ front found behind missing least result,
        ts.filter Token.isVisible = front ++ found :: behind ∧ front.map Token.type = before ∧
        missing.type = type ∧ missing.isPlaceholder = true ∧
        (∀ steps, least ≤ steps → (Parser.parse ⟨g, .ofSource (.ofList tokens), options, listeners⟩
          hooks steps r.name).result? = some (.ok result)) ∧
        result.RepairedOnce r.name .missingToken found front missing (found :: behind) ∧
        result.metrics.tokens + 1 = types.length) ∧
    ∀ before after x, types = before ++ after → (after ++ [TokenType.eof]).head? ≠ some x →
      (ts.filter Token.isVisible).map Token.type = before ++ x :: (after ++ [.eof]) →
      ∃ front extra behind least result,
        ts.filter Token.isVisible = front ++ extra :: behind ∧ front.map Token.type = before ∧
        extra.type = x ∧
        (∀ steps, least ≤ steps → (Parser.parse ⟨g, .ofSource (.ofList tokens), options, listeners⟩
          hooks steps r.name).result? = some (.ok result)) ∧
        result.RepairedOnce r.name .extraneousInput extra front extra behind ∧
        result.metrics.tokens = types.length + 1 := by
  have hes : es ≠ [] := by
    rintro rfl
    simp at htokens
  obtain ⟨rules, rule, span, hruns, hindex, hspan, hname, hrow⟩ :=
    Definition.exists_row hbuild hr hbody hes htokens
  have hends : Ended ts := hts.ends
  have hlength := hts.length_input
  constructor
  · intro before type after htypes hinput
    obtain ⟨front, back, hvisible, hfront, hback⟩ := List.map_eq_append_iff.mp hinput
    obtain ⟨found, behind, rfl⟩ : ∃ found behind, back = found :: behind :=
      List.exists_cons_of_ne_nil fun hnone => by simp [hnone] at hback
    rw [htypes, List.append_assoc, List.cons_append] at hrow hdistinct
    have hgap : type ∉ (found :: behind).map Token.type :=
      hback ▸ (List.nodup_cons.mp (List.nodup_append.mp hdistinct).2.1).1
    rw [← hfront, ← hback] at hrow
    obtain ⟨missing, least, result, ⟨htype, hplaceholder⟩, hparse, hrepaired, hread⟩ :=
      Parser.repairedOnce_of_leads options listeners hts hindex hspan hname hbuilds hroom
        fun i e hahead => hrow.leads_gap hruns hends hts.numbered (hvisible ▸ hahead) hgap
    have hskip : (front ++ missing :: found :: behind).filter Token.isInput =
        (front ++ found :: behind).filter Token.isInput := by
      have hnot : ¬missing.isInput = true := by simp [Token.isInput, hplaceholder]
      rw [List.filter_append, List.filter_cons_of_neg hnot, List.filter_append]
    refine ⟨front, found, behind, missing, least, result, hvisible, hfront, htype, hplaceholder,
      hparse, hrepaired, ?_⟩
    rw [hread, hskip, ← hvisible, hlength, ← List.length_map Token.type, hinput, htypes]
    simp
  · intro before after x htypes hother hinput
    obtain ⟨front, back, hvisible, hfront, hback⟩ := List.map_eq_append_iff.mp hinput
    obtain ⟨extra, rest, rfl, rfl, hrest⟩ := List.map_eq_cons_iff.mp hback
    obtain ⟨found, behind, rfl⟩ : ∃ found behind, rest = found :: behind :=
      List.exists_cons_of_ne_nil fun hnone => by simp [hnone] at hrest
    have hextra : extra.type ≠ found.type := by
      rw [← hrest] at hother
      exact fun heq => hother (congrArg some heq.symm)
    rw [htypes, List.append_assoc, ← hfront, ← hrest, ← List.map_append] at hrow
    obtain ⟨dropped, least, result, rfl, hparse, hrepaired, hread⟩ :=
      Parser.repairedOnce_of_leads options listeners hts hindex hspan hname hbuilds hroom
        fun i e hahead => hrow.leads_extra hruns hends hts.numbered (hvisible ▸ hahead) hextra
    have hcount : (ts.filter Token.isVisible).length =
        (before ++ dropped.type :: (after ++ [.eof])).length := by
      rw [← hinput, List.length_map]
    refine ⟨front, dropped, found :: behind, least, result, hvisible, hfront, rfl, hparse,
      hrepaired, ?_⟩
    simp only [List.length_append, List.length_cons, List.length_nil] at hcount
    rw [hread, ← hvisible, htypes, List.length_append]
    omega

def triple : Definition where
  name := "Triple"
  rules := [{ name := "s", body := .seq [.literal "a", .literal "b", .literal "c", .eof] }]

/-- The second token is left out, or met twice. -/
theorem parse_edited_triple :
    let g := triple.grammar (by decide +kernel)
    let a := (Token.make 1 "a" 0 0 1 0).atIndex 0
    let c := (Token.make 3 "c" 1 1 1 1).atIndex 1
    let b := (Token.make 2 "b" 1 1 1 1).atIndex 1
    let b' := (Token.make 2 "b" 2 2 1 2).atIndex 2
    (∃ behind missing least result, missing.type = 2 ∧ missing.isPlaceholder = true ∧
      (∀ steps, least ≤ steps →
        (Parser.parse (.ofTokens g [a, c]) .permissive steps "s").result? = some (.ok result)) ∧
      result.RepairedOnce "s" .missingToken c [a] missing (c :: behind) ∧
      result.metrics.tokens = 2) ∧
    ∃ behind least result,
      (∀ steps, least ≤ steps → (Parser.parse (.ofTokens g [a, b, b', .make 3 "c" 3 3 1 3])
        .permissive steps "s").result? = some (.ok result)) ∧
      result.RepairedOnce "s" .extraneousInput b' [a, b] b' behind ∧ result.metrics.tokens = 4 := by
  intro g a c b b'
  have hbuild : triple.build = .ok g := triple.build_eq _
  have htokens : List.Forall₂ (TokenFor g.vocabulary)
      [.literal "a", .literal "b", .literal "c", .eof] ([1, 2, 3] ++ [.eof]) :=
    .cons (.literal (by decide +kernel)) (.cons (.literal (by decide +kernel))
      (.cons (.literal (by decide +kernel)) (.cons .eof .nil)))
  constructor
  · have hts : Supplies (.ofList [a, c]) 0 _ := .more rfl (.more rfl (.last rfl))
    obtain ⟨hgap, _⟩ := Definition.parse_edited hbuild List.mem_cons_self rfl htokens (by decide) {}
      rfl (by decide) [] .permissive hts
    obtain ⟨front, found, behind, missing, least, result, hvisible, hfront, htype, hplaceholder,
      hparse, hrepaired, hread⟩ := hgap [1] 2 [3] rfl rfl
    obtain ⟨t, rfl, _⟩ := List.map_eq_singleton_iff.mp hfront
    obtain ⟨rfl, hbehind⟩ := List.cons.inj hvisible
    obtain ⟨rfl, _⟩ := List.cons.inj hbehind
    exact ⟨behind, missing, least, result, htype, hplaceholder, hparse, hrepaired,
      Nat.succ.inj hread⟩
  · have hts : Supplies (.ofList [a, b, b', .make 3 "c" 3 3 1 3]) 0 _ :=
      .more rfl (.more rfl (.more rfl (.more rfl (.last rfl))))
    obtain ⟨_, hextra⟩ :=
      Definition.parse_edited hbuild List.mem_cons_self rfl htokens (by decide) {}
      rfl (by decide) [] .permissive hts
    obtain ⟨front, extra, behind, least, result, hvisible, hfront, htype, hparse,
        hrepaired, hread⟩ :=
      hextra [1, 2] [3] 2 rfl (by decide) rfl
    obtain ⟨t, rest, rfl, _, hrest⟩ := List.map_eq_cons_iff.mp hfront
    obtain ⟨t', rfl, _⟩ := List.map_eq_singleton_iff.mp hrest
    obtain ⟨rfl, hbehind⟩ := List.cons.inj hvisible
    obtain ⟨rfl, hbehind'⟩ := List.cons.inj hbehind
    obtain ⟨rfl, _⟩ := List.cons.inj hbehind'
    exact ⟨behind, least, result, hparse, hrepaired, hread⟩

end AdaptiveLL
