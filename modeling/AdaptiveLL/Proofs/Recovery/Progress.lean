/-
What a run of the outermost rule comes to, step by step.

Where the network leaves no choice, the state and the tokens at hand fix what a step
does: it passes an empty transition, reads a token, drops one or puts one in.  So
the leaves of the node and the reports can be told in advance.  The tokens are
listed, since the text that a lexer could not match is reported in between.
-/
import AdaptiveLL.Proofs.Recovery.Conjuring

namespace AdaptiveLL

/-- How far a run of the outermost rule has come: its place in the input, its state,
what the strategy remembers, the parts of its node, and the mismatches that it has
reported. -/
structure Progress where
  place : Nat
  state : StateId
  strategy : Strategy
  children : List ParseTree
  reports : List Diagnostic

/-- A run of the outermost rule as far as it decides how the run goes on. -/
def Progress.view (p : Progress) (e : Entry) (marks : List Mark) : View where
  place := p.place
  strategy := p.strategy
  errors := p.reports.length
  marks := marks
  children := p.children
  state := p.state
  current := e
  outer := []

def Interpreter.siteOf (interp : Interpreter) (p : Progress) : Site :=
  ⟨interp.network, interp.vocabulary, p.state, []⟩

/-- A run of the outermost rule on listed tokens has come this far. -/
structure Run.Stands (ts : List Token) (e : Entry) (r : Run) (p : Progress) : Prop where
  seen : ∃ marks, r.Is ts (p.view e marks)
  listed : r.stream.Listed
  diagnostics : r.diagnostics = p.reports

namespace Run.Stands

open Running

variable {interp : Interpreter} {ts : List Token} {e : Entry} {r r' : Run} {p p' : Progress}
  {E : Obstacle → Run → Prop}

theorem stream (h : r.Stands ts e p) : r.stream.At ts p.place :=
  h.seen.elim fun _ his => his.stream

theorem site_eq (h : r.Stands ts e p) :
    (⟨interp.network, interp.vocabulary, r.state, r.stack⟩ : Site) = interp.siteOf p := by
  obtain ⟨_, his⟩ := h.seen
  rw [his.state, his.stack]
  rfl

/-- Stream and notes stay as they are. -/
theorem of_same (h : r.Stands ts e p)
    (hseen : ∀ marks, r.Is ts (p.view e marks) → r'.Is ts (p'.view e marks))
    (hstream : r'.stream = r.stream) (hnotes : r'.notes = r.notes)
    (hreports : p'.reports = p.reports) : r'.Stands ts e p' := by
  obtain ⟨marks, his⟩ := h.seen
  exact ⟨⟨marks, hseen marks his⟩, hstream ▸ h.listed,
    (diagnostics_of_notes hnotes).trans (h.diagnostics.trans hreports.symm)⟩

theorem goto (h : r.Stands ts e p) (target : StateId) :
    ({ r with state := target } : Run).Stands ts e { p with state := target } :=
  h.of_same (fun _ his => his.goto target) rfl rfl rfl

/-- A token that was put in becomes an error leaf. -/
theorem addError (h : r.Stands ts e p) (t : Token) :
    (r.modifyFrame fun i => i.addToken t true).Stands ts e
      { p with children := p.children ++ [.error t] } :=
  h.of_same (fun _ his => his.addToken t true) (r.modifyFrame_rest _).1
    (r.modifyFrame_rest _).2.2.2.1 rfl

theorem bindLabel (h : r.Stands ts e p) (s : State) (matched : Token) :
    (Interpreter.bindLabel s matched).Ends r (fun _ r' => r'.Stands ts e p) E := by
  unfold Interpreter.bindLabel
  split
  · exact h
  · exact ends_modify (h.of_same
      (fun _ his => his.modifyHidden fun i => i.pending_bindLabel _ matched)
      (r.modifyFrame_rest _).1 (r.modifyFrame_rest _).2.2.2.1 rfl)

theorem peek {Q : Token → Run → Prop} (h : r.Stands ts e p)
    (hQ : ∀ t r', ts[p.place]? = some t → r'.Stands ts e p → Q t r') :
    (Interpreter.onStream fun s => s.peek 1).Ends r Q E := by
  obtain ⟨ht, hat⟩ := h.stream.peek_one
  obtain ⟨marks, his⟩ := h.seen
  have his' : ({ r with stream := (r.stream.peek 1).2 } : Run).Is ts (p.view e marks) :=
    ⟨hat, his.strategy, his.errors, his.marks, his.state, his.stack, his.frames⟩
  exact ends_modifyGet (hQ _ _ ht ⟨⟨marks, his'⟩, h.listed.peek 1,
    (diagnostics_of_notes rfl).trans h.diagnostics⟩)

/-- The steps that the strategy has taken are carried out. -/
theorem carriedOut (h : r.Stands ts e p) {repair : Repair} {place : Nat} {strategy : Strategy}
    {steps : List RepairStep} (htook : repair.Took r.stream ts place strategy steps)
    (leaves : List ParseTree) (reports : List Diagnostic)
    (hleaves : steps.filterMap RepairStep.leaf? = leaves)
    (hreports : steps.flatMap RepairStep.reported = reports)
    (hcount : steps.countP RepairStep.isReport = reports.length) :
    (repair.steps.foldl Run.carryOut
      { r with strategy := repair.strategy, stream := repair.stream }).Stands ts e
        { p with
          place, strategy
          children := p.children ++ leaves
          reports := p.reports ++ reports } := by
  obtain ⟨marks, his⟩ := h.seen
  have hmoved : ({ r with strategy := repair.strategy, stream := repair.stream } : Run).Is ts
      (({ p with place, strategy } : Progress).view e marks) :=
    ⟨htook.stream, htook.strategy, his.errors, his.marks, his.state, his.stack, his.frames⟩
  have hfold := hmoved.carryOut_foldl steps
  rw [hleaves, hcount] at hfold
  rw [htook.steps]
  refine ⟨⟨marks ++ steps.filterMap RepairStep.mark?, ?_⟩, ?_, ?_⟩
  · rw [Progress.view, List.length_append]
    exact hfold
  · rw [Run.stream_carryOut_foldl]
    exact htook.listed h.listed
  · rw [Run.diagnostics_carryOut_foldl, hreports]
    exact congrArg (· ++ reports) h.diagnostics

/-- A token that fits is read. -/
theorem consume (h : r.Stands ts e p) {t : Token} (ht : ts[p.place]? = some t) :
    Ends (ExceptT.lift (interp.consult fun _ => do
        Repairing.matched
        Repairing.consume false)) r
      (fun _ r' => r'.Stands ts e
        { p with
          place := nextPlace ts p.place
          strategy := {}
          children := p.children ++ [.leaf t] }) E := by
  have hbegin := Repair.took_begin h.stream r.strategy
  refine Interpreter.ends_consult (Repairing.yields_bind (hbegin.matched fun repair htook =>
    htook.consume fun t' repair' ht' htook' => ?_))
  obtain rfl := Option.some.inj (ht.symm.trans ht')
  have hread := h.carriedOut htook' [.leaf t] [] ?_ ?_ ?_
  · rwa [List.append_nil] at hread
  all_goals split <;> rfl

/-- A token that does not fit is dropped, or one is put in front of it, or it stays. -/
theorem repairInline {Q : Token → Run → Prop} (h : r.Stands ts e p) (hnumbered : Numbered ts)
    (hcalm : p.strategy.recovering = false)
    (hdrop : ∀ t next r', ts[p.place]? = some t → ts[nextPlace ts p.place]? = some next →
      (interp.siteOf p).expected.contains next.type = true → r'.Stands ts e
        { p with
          place := nextPlace ts (nextPlace ts p.place)
          strategy := {}
          children := p.children ++ [.error t, .leaf next]
          reports := p.reports ++ [(interp.siteOf p).unwanted t] } → Q next r')
    (hinsert : ∀ t previous r', ts[p.place]? = some t → ¬(interp.siteOf p).Drops ts p.place →
      r'.Stands ts e
        { p with
          strategy := p.strategy.alert
          children := p.children ++
            [.error (interp.vocabulary.placeholder (interp.siteOf p).expected t previous)]
          reports := p.reports ++ [(interp.siteOf p).missing t] } →
        Q (interp.vocabulary.placeholder (interp.siteOf p).expected t previous) r')
    (hfail : ∀ m r', ¬(interp.siteOf p).Drops ts p.place → ¬(interp.siteOf p).Bridges ts p.place →
      E (.mismatch m) r') : interp.repairInline.Ends r Q E := by
  have hstrategy : r.strategy = p.strategy := h.seen.elim fun _ his => his.strategy
  have hreport (t : Token) (lexical : List LexError) (d : Diagnostic)
      (hlexical : r.stream.Listed → lexical = []) :
      r.strategy.reportSteps t lexical d = [.event (.beginRecovery t), .report [] d] := by
    rw [Strategy.reportSteps, hstrategy, hcalm, hlexical h.listed]
    rfl
  refine ends_bind (ends_bind (Interpreter.ends_consult ?_))
  rw [h.site_eq]
  refine (Repair.took_begin h.stream r.strategy).repairInline
    (fun t next lexical repair ht hnext hcontains hlexical htook => ?_)
    (fun t previous lexical repair ht hkeeps _ hlexical htook => ?_)
    fun t repair _ hkeeps hstuck _ => ends_throw (hfail _ _ hkeeps hstuck)
  · rw [Strategy.dropSteps, hreport _ _ _ hlexical] at htook
    refine ends_pure ?_
    rw [hnumbered.not_placeholder hnext]
    exact hdrop t next _ ht hnext hcontains (h.carriedOut htook _ _ rfl rfl rfl)
  · rw [hreport _ _ _ hlexical] at htook
    refine ends_pure ?_
    rw [Vocabulary.isPlaceholder_placeholder]
    refine ends_bind (ends_modify (hinsert t previous _ ht hkeeps ?_))
    have hput := (h.carriedOut htook [] [(interp.siteOf p).missing t] rfl rfl rfl).addError
      (interp.vocabulary.placeholder (interp.siteOf p).expected t previous)
    rwa [List.append_nil, hstrategy] at hput

end Run.Stands

namespace Interpreter

open Running

variable {interp : Interpreter} {ts : List Token} {e : Entry} {p : Progress} {Q : Progress → Prop}
  {s : State} {t : Transition} {tok next : Token} {v : Vocabulary} {rules : List Rule}

/-- Whenever a run has come so far, some steps bring it to a progress of this kind. -/
def Leads (interp : Interpreter) (ts : List Token) (e : Entry) (p : Progress)
    (Q : Progress → Prop) : Prop :=
  ∀ r : Run, r.Stands ts e p → ∃ r' p', interp.Reaches r r' ∧ r'.Stands ts e p' ∧ Q p'

theorem leads_here (h : Q p) : interp.Leads ts e p Q :=
  fun r hr => ⟨r, p, .refl r, hr, h⟩

/-- A state that is passed leads to where its passing leads. -/
theorem leads_of_visit (hs : interp.network.state? p.state = some s) (hrun : s.isStop = false)
    (hvisit : ∀ r : Run, r.Stands ts e p → (interp.visit p.state s).Ends r
      (fun _ r' => ∃ p', r'.Stands ts e p' ∧ interp.Leads ts e p' Q) fun _ _ => False) :
    interp.Leads ts e p Q := by
  intro r h
  have hstate : r.state = p.state := h.seen.elim fun _ his => his.state
  have hpassed := hvisit r h
  have hstep : interp.step.run r = _ := step_of_run (hstate ▸ Graph.getState_of_state? hs) hrun
  rw [hstate] at hstep
  unfold Running.Ends at hpassed
  generalize (ExceptT.run (interp.visit p.state s)).run r = result at hpassed hstep
  obtain ⟨_ | _, r'⟩ := result
  · exact hpassed.elim
  · obtain ⟨p', hr', hleads⟩ := hpassed
    obtain ⟨r'', p'', hreaches, hr'', hp''⟩ := hleads r' hr'
    exact ⟨r'', p'', .step hstep hreaches, hr'', hp''⟩

/-- An empty transition is passed. -/
theorem leads_hop {target : StateId} (hs : interp.network.state? p.state = some s)
    (ht : s.transitions = [.epsilon target]) (hrole : s.role = .basic ∨ s.role = .ruleStart)
    (h : interp.Leads ts e { p with state := target } Q) : interp.Leads ts e p Q := by
  have hrun : s.isStop = false := by rcases hrole with h | h <;> simp [State.isStop, h]
  have halone : alignsAlone s = false := by rcases hrole with h | h <;> simp [alignsAlone, h]
  have hround : (s.role == .starLoopEntry true) = false := by
    rcases hrole with h | h <;> rw [h] <;> rfl
  have hvisit : interp.visit p.state s = take.goto target := by
    rw [visit_of_single ht halone, take, hround]
    rfl
  refine leads_of_visit hs hrun fun r hr => ?_
  rw [hvisit]
  exact ends_modify ⟨_, hr.goto target, h⟩

section Reading

variable (hruns : interp.network.Runs v rules) (hs : interp.network.state? p.state = some s)
  (ht : s.transitions = [t]) (hreads : t.isEpsilon = false)

include hruns hs ht hreads

/-- What is expected at a state that reads is what its transition accepts. -/
theorem contains_siteOf (a : TokenType) :
    (interp.siteOf p).expected.contains a = true ↔ t.accepts interp.network.maxType a = true := by
  have hexpected : (interp.siteOf p).expected = interp.network.next p.state :=
    hruns.expected_of_read hs ht hreads []
  rw [hexpected]
  exact hruns.contains_next_iff_accepts hs ht hreads a

/-- A state that reads is passed by reading the token at hand, or else by a repair. -/
theorem leads_of_match (htok : ts[p.place]? = some tok)
    (hread : t.accepts interp.network.maxType tok.type = true → interp.Leads ts e
      { p with
        place := nextPlace ts p.place
        state := t.target
        strategy := {}
        children := p.children ++ [.leaf tok] } Q)
    (hrepair : t.accepts interp.network.maxType tok.type = false → ∀ r : Run, r.Stands ts e p →
      interp.repairInline.Ends r
        (fun _ r' => ∃ p', r'.Stands ts e p' ∧ interp.Leads ts e { p' with state := t.target } Q)
        fun _ _ => False) : interp.Leads ts e p Q := by
  obtain ⟨_, hrole⟩ := hruns.single_of_read hs (ht ▸ List.mem_singleton_self t) hreads
  have hrun : s.isStop = false := by simp [State.isStop, hrole]
  have hlabel {p' : Progress} {r : Run} (h : r.Stands ts e p') (matched : Token)
      (hleads : interp.Leads ts e { p' with state := t.target } Q) :
      (bindLabel s matched).Ends r (fun _ r' => (take.goto t.target).Ends r'
        (fun _ r'' => ∃ p', r''.Stands ts e p' ∧ interp.Leads ts e p' Q) fun _ _ => False)
        fun _ _ => False :=
    (h.bindLabel s matched).mono fun _ _ h' => ends_modify ⟨_, h'.goto t.target, hleads⟩
  refine leads_of_visit hs hrun fun r h => ?_
  rw [visit_of_read ht hreads hrole]
  refine ends_bind (ends_bind (h.peek fun tok' r₁ htok' h₁ => ?_))
  obtain rfl := Option.some.inj (htok.symm.trans htok')
  dsimp only
  split
  · rename_i haccepts
    exact ends_bind ((h₁.consume htok).mono fun _ r₂ h₂ =>
      ends_bind (ends_pure (hlabel h₂ tok (hread haccepts))))
  · rename_i hrefuses
    refine ends_bind ((hrepair (by simpa using hrefuses) r₁ h₁).mono fun matched r₂ h₂ => ?_)
    obtain ⟨p', h₂, hleads⟩ := h₂
    exact hlabel h₂ matched hleads

/-- The token at hand is read if the transition accepts it. -/
theorem leads_read (htok : ts[p.place]? = some tok)
    (haccepts : t.accepts interp.network.maxType tok.type = true)
    (h : interp.Leads ts e
      { p with
        place := nextPlace ts p.place
        state := t.target
        strategy := {}
        children := p.children ++ [.leaf tok] } Q) : interp.Leads ts e p Q :=
  leads_of_match hruns hs ht hreads htok (fun _ => h) fun hrefuses =>
    absurd (hrefuses.symm.trans haccepts) Bool.false_ne_true

/-- The token at hand is dropped if it is not accepted but the next one is, which is
then read. -/
theorem leads_drop (hnumbered : Numbered ts) (hcalm : p.strategy.recovering = false)
    (htok : ts[p.place]? = some tok) (hnext : ts[nextPlace ts p.place]? = some next)
    (hrefuses : t.accepts interp.network.maxType tok.type = false)
    (haccepts : t.accepts interp.network.maxType next.type = true)
    (h : interp.Leads ts e
      { place := nextPlace ts (nextPlace ts p.place)
        state := t.target
        strategy := {}
        children := p.children ++ [.error tok, .leaf next]
        reports := p.reports ++ [(interp.siteOf p).unwanted tok] } Q) : interp.Leads ts e p Q := by
  have hdrops : (interp.siteOf p).Drops ts p.place :=
    ⟨next, hnext, (contains_siteOf hruns hs ht hreads _).mpr haccepts⟩
  refine leads_of_match hruns hs ht hreads htok
    (fun haccepts => absurd (hrefuses.symm.trans haccepts) Bool.false_ne_true) fun _ r hr => ?_
  refine hr.repairInline hnumbered hcalm (fun tok' next' r' htok' hnext' _ hr' => ?_)
    (fun _ _ _ _ hkeeps => absurd hdrops hkeeps) fun _ _ hkeeps => absurd hdrops hkeeps
  obtain rfl := Option.some.inj (htok.symm.trans htok')
  obtain rfl := Option.some.inj (hnext.symm.trans hnext')
  exact ⟨_, hr', h⟩

/-- A token is put in front of the one at hand if neither this one nor the next one
is accepted and this one can be read behind it. -/
theorem leads_insert (hnumbered : Numbered ts) (hcalm : p.strategy.recovering = false)
    (htok : ts[p.place]? = some tok)
    (hrefuses : t.accepts interp.network.maxType tok.type = false)
    (hkeeps : ∀ next, ts[nextPlace ts p.place]? = some next →
      t.accepts interp.network.maxType next.type = false)
    (hbehind : (interp.network.lookInContext t.target []).contains tok.type = true)
    (h : ∀ previous, interp.Leads ts e
      { p with
        state := t.target
        strategy := p.strategy.alert
        children := p.children ++
          [.error (interp.vocabulary.placeholder (interp.siteOf p).expected tok previous)]
        reports := p.reports ++ [(interp.siteOf p).missing tok] } Q) : interp.Leads ts e p Q := by
  have hstays : ¬(interp.siteOf p).Drops ts p.place := by
    rintro ⟨next, hnext, hcontains⟩
    have haccepts := (contains_siteOf hruns hs ht hreads _).mp hcontains
    exact absurd ((hkeeps next hnext).symm.trans haccepts) Bool.false_ne_true
  have hbridges : (interp.siteOf p).Bridges ts p.place :=
    ⟨tok, s, t, htok, hs, by rw [ht]; rfl, hbehind⟩
  refine leads_of_match hruns hs ht hreads htok
    (fun haccepts => absurd (hrefuses.symm.trans haccepts) Bool.false_ne_true) fun _ r hr => ?_
  refine hr.repairInline hnumbered hcalm
    (fun _ next _ _ hnext hcontains _ => absurd ⟨next, hnext, hcontains⟩ hstays)
    (fun tok' previous r' htok' _ hr' => ?_) fun _ _ _ hstuck => absurd hbridges hstuck
  obtain rfl := Option.some.inj (htok.symm.trans htok')
  exact ⟨_, hr', h previous⟩

end Reading

end Interpreter

section Ending

variable {interp : Interpreter} {ts : List Token} {e : Entry} {r : Run} {p : Progress}
  {Q : Progress → Prop}

structure Run.Closes (e : Entry) (p : Progress) (r : Run) : Prop where
  tree : r.tree = some (.node e.name e.alt e.failed p.children)
  diagnostics : r.diagnostics = p.reports
  errors : r.metrics.errors = p.reports.length

/-- At the end of the outermost rule a run finishes. -/
theorem Run.Stands.finishes (h : r.Stands ts e p) (hstop : interp.network.isStop p.state = true) :
    ∃ r', (∀ steps, interp.loop (steps + 1) r = (.finished, r')) ∧ r'.Closes e p := by
  obtain ⟨s, hs, hend⟩ := Graph.isStop_iff.mp hstop
  obtain ⟨marks, his⟩ := h.seen
  have hget : interp.network.getState r.state = .ok s := his.state ▸ Graph.getState_of_state? hs
  have hone : r.frames.length ≤ 1 := by
    have hlength := congrArg List.length his.frames
    rw [List.length_map] at hlength
    exact Nat.le_of_eq hlength
  have hstep := Interpreter.step_of_stop hget hend
  have hexit := his.exitRule hs hend
  rw [if_pos hone] at hstep hexit
  obtain ⟨hstream, hreports⟩ := r.exitRule_rest interp.network
  have hlisted : (r.exitRule interp.network).stream.Listed := hstream.symm ▸ h.listed
  have hlexical := hlisted.takeErrors.1
  refine ⟨(r.exitRule interp.network).flushLexErrors, Interpreter.loop_of_finished hstep, ?_⟩
  · generalize r.exitRule interp.network = r₁ at hexit hreports hlexical
    cases hexit with
    | finished _ _ _ _ htree herrors =>
      refine ⟨htree, ?_, herrors⟩
      rw [Run.flushLexErrors]
      dsimp only
      rw [Run.diagnostics_noteLexErrors, hlexical, List.map_nil, List.append_nil]
      exact (Run.diagnostics_of_notes rfl).trans (hreports.trans h.diagnostics)

/-- A run that is led to the end of the outermost rule finishes there, whatever
steps are left. -/
theorem Interpreter.Leads.finishes (h : interp.Leads ts e p Q)
    (hstop : ∀ p', Q p' → interp.network.isStop p'.state = true) (hr : r.Stands ts e p) :
    ∃ p' least r', Q p' ∧ (∀ steps, least ≤ steps → interp.loop steps r = (.finished, r')) ∧
      r'.Closes e p' := by
  obtain ⟨r₁, p', hreaches, hr₁, hp'⟩ := h r hr
  obtain ⟨steps, hloop⟩ := hreaches.loop_eq
  obtain ⟨r', hfinishes, hcloses⟩ := hr₁.finishes (hstop p' hp')
  refine ⟨p', steps + 1, r', hp', fun more hmore => ?_, hcloses⟩
  obtain ⟨rest, rfl⟩ := Nat.exists_eq_add_of_le hmore
  rw [Nat.add_assoc, Nat.add_comm 1 rest, hloop, hfinishes]

end Ending

section Parsing

variable {n : Network} {rule : RuleIndex} {span : RuleSpan} {tokens ts : List Token} {i : Nat}

/-- Where a parse of a list begins. -/
theorem Run.stands_begin (hspan : n.rule? rule = some span)
    (hat : (TokenStream.ofSource (.ofList tokens)).At ts i) :
    (Run.enterRule n rule span.stop 0 { stream := .ofSource (.ofList tokens) }).Stands ts
      { rule, follow := span.stop, precedence := 0, startIndex := i, name := n.ruleName rule }
      ⟨i, span.start, {}, [], []⟩ where
  seen := ⟨[], Run.is_begin hspan hat⟩
  listed := by
    have hlisted : (TokenStream.ofSource (.ofList tokens)).Listed := ⟨tokens, none, rfl⟩
    simp only [Run.enterRule, hspan]
    exact hlisted.index
  diagnostics := by
    simp only [Run.enterRule, hspan]
    rfl

/-- The result of a parse that is led to the end of its start rule. -/
theorem Parser.parse_of_leads {g : Grammar} (hooks : Hooks) {start : String}
    {options : ParserOptions} (listeners : List String) {Q : Progress → Prop}
    (hts : Supplies (.ofList tokens) 0 ts)
    (hindex : g.network.ruleIndex? start = some rule) (hspan : g.network.rule? rule = some span)
    (hbuilds : options.buildTree = true)
    (hleads : ∀ i, (TokenStream.ofSource (.ofList tokens)).At ts i → upcoming ts i = upcoming ts 0 →
      Interpreter.Leads ⟨g.network, g.vocabulary, hooks⟩ ts
        { rule, follow := span.stop, precedence := 0, startIndex := i
          name := g.network.ruleName rule }
        ⟨i, span.start, {}, [], []⟩ Q)
    (hstop : ∀ p, Q p → g.network.isStop p.state = true) :
    ∃ p least result, Q p ∧
      (∀ steps, least ≤ steps → (Parser.parse ⟨g, .ofSource (.ofList tokens), options, listeners⟩
        hooks steps start).result? = some (.ok result)) ∧
      result.tree = some (.node (g.network.ruleName rule) 1 false p.children) ∧
      result.diagnostics = p.reports.take options.maxErrors ∧
      result.metrics.errors = p.reports.length ∧
      result.metrics.tokens = ((ParseTree.leavesOfAll p.children).filter Token.isInput).length := by
  obtain ⟨ts', hts', hat⟩ := TokenStream.exists_at_ofSource (.ofList tokens)
  obtain rfl := hts.unique hts'
  have hnew : upcoming ts (visiblePlace ts 0) = upcoming ts 0 := by
    obtain ⟨_, _, _, hplace⟩ := hat.ends.visiblePlace_spec 0
    exact (hplace hat.ends.pos).2
  obtain ⟨p, least, r', hp, hloop, hcloses⟩ :=
    (hleads _ hat hnew).finishes hstop (Run.stands_begin hspan hat)
  let parser : Parser := ⟨g, .ofSource (.ofList tokens), options, listeners⟩
  have hparse (steps : Nat) (hsteps : least ≤ steps) :
      parser.parse hooks steps start = parser.report .finished r' := by
    have heq : parser.parse hooks steps start = _ := Parser.parse_eq hindex hspan
    rw [heq, hloop steps hsteps]
  refine ⟨p, least, (parser.report .finished r').result, hp, fun steps hsteps => ?_, ?_, ?_, ?_, ?_⟩
  · rw [hparse steps hsteps]
    rfl
  · rw [Parser.tree_report hbuilds, hcloses.tree]
    rfl
  · exact congrArg (List.take options.maxErrors) hcloses.diagnostics
  · exact hcloses.errors
  · obtain ⟨tree, htree, htold⟩ := Interpreter.loop_told hts.numbered least
      (Run.tells_begin hat hnew rule span.stop) (congrArg Prod.fst (hloop least (Nat.le_refl _)))
    rw [hloop least (Nat.le_refl _)] at htree htold
    obtain rfl := Option.some.inj (hcloses.tree.symm.trans htree)
    exact htold.tokens

end Parsing

end AdaptiveLL
