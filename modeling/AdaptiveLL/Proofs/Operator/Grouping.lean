/-
How a parse groups operators.

A definition of a rule of operators, and of a rule that calls it before the end of
the input, builds a network on which the parse of operands with operators between
them reports no error.  Its tree is the one tree over them in which every operator
has those under it that bind tighter.
-/
import AdaptiveLL.Proofs.Operator.Climbing
import AdaptiveLL.Proofs.Parser.Acceptance
import AdaptiveLL.Proofs.Parser.Exhaustion

namespace AdaptiveLL

/-- The rules are a rule of operators, and one that calls it before the end of the
input. -/
structure OperatorRules (rules : List Rule) (top ops : Rule) (as : List Arm) : Prop where
  mem_iff : ∀ r, r ∈ rules ↔ r = top ∨ r = ops
  name_ne : top.name ≠ ops.name
  top_body : top.body = .seq [.rule ops.name 0, .eof]
  alternatives : ops.body.alternatives = as.map (Arm.expr ops.name)
  tokens : ∀ a ∈ as, a.token.isTokenName = true
  inner : ∀ a ∈ as, a.token.isEnd = false

section Rules

variable {rules : List Rule} {top ops : Rule} {as : List Arm} {v : Vocabulary}

/-- What holds of the alternatives, and of any choice, holds of the body. -/
theorem Expr.forall_subterms_alternatives {P : Expr → Prop} (hchoice : ∀ es, P (.choice es))
    {body : Expr} (h : ∀ a ∈ body.alternatives, ∀ x ∈ a.subterms, P x) :
    ∀ x ∈ body.subterms, P x := by
  cases body with
  | choice es =>
    rw [subterms, List.forall_mem_cons, subtermsOfAll_eq]
    refine ⟨hchoice es, fun x hx => ?_⟩
    obtain ⟨a, ha, hx⟩ := List.mem_flatMap.mp hx
    exact h a ha x hx
  | _ => exact h _ (List.mem_singleton_self _)

theorem Expr.subterms_of_isTokenName {e : Expr} (h : e.isTokenName = true) : e.subterms = [e] := by
  cases e <;> first | rfl | cases h

/-- What holds of sequences, calls of the rule and tokens holds of an alternative. -/
theorem Arm.forall_subterms {P : Expr → Prop} (hseq : ∀ es, P (.seq es))
    (hright : ∀ e, P (.rightAssoc e)) {name : String} (hcall : P (.rule name 0)) {a : Arm}
    (hname : a.token.isTokenName = true) (htoken : P a.token) :
    ∀ x ∈ (a.expr name).subterms, P x := by
  have hbinary {token : Expr} (hname : token.isTokenName = true) (htoken : P token) :
      ∀ x ∈ (Expr.seq [.rule name 0, token, .rule name 0]).subterms, P x := by
    rw [Expr.forall_subterms_seq hseq]
    simp [Expr.subterms_of_isTokenName hname, Expr.subterms, hcall, htoken]
  cases a with
  | primary token =>
    have hone : token.subterms = [token] := Expr.subterms_of_isTokenName hname
    rw [expr, hone]
    exact List.forall_mem_singleton.mpr htoken
  | binary token right =>
    cases right with
    | false => exact hbinary hname htoken
    | true =>
      rw [expr, Expr.subterms, List.forall_mem_cons]
      exact ⟨hright _, hbinary hname htoken⟩

namespace OperatorRules

theorem forall_subterms (h : OperatorRules rules top ops as) {P : Expr → Prop}
    (hseq : ∀ es, P (.seq es)) (hchoice : ∀ es, P (.choice es)) (hright : ∀ e, P (.rightAssoc e))
    (hcall : P (.rule ops.name 0)) (htoken : ∀ e, e.isTokenName = true → e.isEnd = false → P e) :
    ∀ x ∈ ops.body.subterms, P x := by
  apply Expr.forall_subterms_alternatives hchoice
  rw [h.alternatives]
  intro e he
  obtain ⟨a, ha, rfl⟩ := List.mem_map.mp he
  exact Arm.forall_subterms hseq hright hcall (h.tokens a ha)
    (htoken _ (h.tokens a ha) (h.inner a ha))

theorem mem_top (h : OperatorRules rules top ops as) : top ∈ rules :=
  (h.mem_iff top).mpr (.inl rfl)

theorem mem_ops (h : OperatorRules rules top ops as) : ops ∈ rules :=
  (h.mem_iff ops).mpr (.inr rfl)

theorem endsLast (h : OperatorRules rules top ops as) : top.body.EndsLast := by
  rw [h.top_body]
  exact .chain (List.forall_mem_singleton.mpr rfl) (.only (.token rfl))

/-- A parse can begin with the rule that calls the one of operators. -/
theorem outermost (h : OperatorRules rules top ops as) : Outermost rules top where
  mem := h.mem_top
  uncalled := by
    intro r hr level hcall
    rcases (h.mem_iff r).mp hr with rfl | rfl
    · rw [h.top_body] at hcall
      simp [Expr.subterms, Expr.subtermsOfAll, h.name_ne] at hcall
    · refine h.forall_subterms (P := fun x => x ≠ .rule top.name level) (fun _ => nofun)
        (fun _ => nofun) (fun _ => nofun) ?_ ?_ _ hcall rfl
      · exact fun heq => h.name_ne (Expr.rule.inj heq).1.symm
      · rintro _ hname _ rfl
        cases hname
  inner := by
    intro r hr hname
    rcases (h.mem_iff r).mp hr with rfl | rfl
    · exact absurd rfl hname
    · exact h.forall_subterms (fun _ => rfl) (fun _ => rfl) (fun _ => rfl) rfl fun _ _ hend => hend
  body := .inr h.endsLast

/-- Nothing in the operator forms depends on a predicate. -/
theorem no_predicate (h : OperatorRules rules top ops as) {rules' : List Rule}
    (hoperators : rules.mapM Rule.withOperators = .ok rules') {r' : Rule} (hr' : r' ∈ rules')
    (text : String) : .predicate text ∉ r'.body.subterms := by
  obtain ⟨r, hr, hbecomes⟩ := exists_of_withOperators hoperators hr'
  have hnone : ∀ x ∈ r.body.subterms, x ≠ .predicate text := by
    rcases (h.mem_iff r).mp hr with rfl | rfl
    · rw [h.top_body]
      simp [Expr.subterms, Expr.subtermsOfAll]
    · apply h.forall_subterms (P := fun x => x ≠ .predicate text) (fun _ => nofun) (fun _ => nofun)
        (fun _ => nofun) nofun
      rintro _ hname _ rfl
      cases hname
  intro hmem
  exact Rule.forall_subterms_withOperators (P := fun x => x ≠ .predicate text) (fun _ => nofun)
    (fun _ => nofun) (fun _ => nofun) (fun _ => nofun) (fun _ _ _ _ => nofun)
    hbecomes hnone _ hmem rfl

theorem not_eof (h : OperatorRules rules top ops as) (hspelled : v.SpellsTokens) {t : TokenType} :
    (∀ i right, Arm.IsOperator v as t i right → t ≠ .eof) ∧ (Arm.IsPrimary v as t → t ≠ .eof) := by
  constructor
  · rintro i right ⟨e, he, hfor⟩
    exact hfor.not_eof hspelled (h.inner _ (List.mem_of_getElem? he))
  · rintro ⟨e, he, hfor⟩
    exact hfor.not_eof hspelled (h.inner _ he)

end OperatorRules

/-- Without predicates in its rules, a network asks none. -/
theorem Network.Runs.permits {n : Network} (hruns : n.Runs v rules)
    (hnone : ∀ r ∈ rules, ∀ text, .predicate text ∉ r.body.subterms) (host : Option Hooks) :
    n.Permits host := by
  intro id s hs t ht hooks _ target rule index heq
  subst heq
  obtain ⟨r, _, _, hr, _, _, hform⟩ := hruns.laid.form_of_mem hs ht
  generalize s.transitions = transitions at hform ht
  cases hform with
  | edge hedge he =>
    obtain rfl := List.mem_singleton.mp ht
    cases hedge with
    | predicate => exact absurd he (hnone r (List.mem_of_getElem? hr) _)
  | hop => cases List.mem_singleton.mp ht
  | block =>
    obtain ⟨_, _, heq⟩ := List.mem_map.mp ht
    cases heq
  | loop => simp at ht

/-- The rules lie in their network with the landmarks that a run over operators
passes. -/
theorem OperatorRules.exists_landmarks {n : Network} {rules' : List Rule} {start : RuleIndex}
    {r : Rule} {span : RuleSpan} {part : Part} (h : OperatorRules rules top ops as)
    (hoperators : rules.mapM Rule.withOperators = .ok rules') (hruns : n.Runs v rules')
    (hdistinct : Arm.Distinct v as) (hbody : r.body = top.body)
    (hlaid : RuleLaid n.toGraph v start r span part) :
    ∃ o : Landmarks, o.Of n v as ∧ o.top = start ∧ o.topSpan = span ∧
      n.ruleName o.rule = ops.name := by
  obtain ⟨ops', hops', hbecomes⟩ := withOperators_exists hoperators h.mem_ops
  obtain ⟨hname, _⟩ := Rule.withOperators_cases hbecomes
  obtain ⟨rule, opsSpan, _, hindex, _, hopsLaid⟩ := hruns.exists_ruleIndex hops'
  obtain ⟨primary, knot, hladder⟩ := hopsLaid.exists_ladder hindex hbecomes h.alternatives h.tokens
  have hwhole := hlaid.body
  rw [hbody, h.top_body] at hwhole
  obtain ⟨follow, read, _, hcall, hend, hbehind⟩ := hwhole.chain_inv
  obtain ⟨callee, calleeSpan, hcallee, hspan, hcallShape⟩ := hcall.call_inv
  obtain ⟨t, hfor, hendShape⟩ := hend.only_inv.token_inv (.inr rfl)
  obtain rfl := Option.some.inj (hindex.symm.trans (hname ▸ hcallee))
  obtain rfl := Option.some.inj (hopsLaid.span_eq.symm.trans hspan)
  obtain rfl := hfor.unique .eof
  refine ⟨⟨rule, opsSpan, primary, knot, start, span, part.entry, follow, read⟩,
    ⟨hdistinct, fun i right hop => (h.not_eof hruns.spelled).1 i right hop rfl, hladder,
      .single ⟨_, by decide, hlaid.start_shape⟩, .of_shape hcallShape (by decide), .single hbehind,
      ⟨part.exit, .of_shape hendShape (by decide), .single hlaid.leave⟩, hlaid.stops⟩, rfl, rfl, ?_⟩
  rw [Graph.ruleName, hopsLaid.span_eq, Option.map_some, Option.getD_some, hopsLaid.name_eq, hname]

end Rules

section Leaves

variable {name : String} {parts : List ParseTree} {tree : OperatorTree} {v : Vocabulary}
  {as : List Arm} {t : Token}

/-- The leaves of a node that shows a tree are the tokens of the tree. -/
theorem PartsShow.leaves (h : PartsShow name parts tree) :
    ParseTree.leavesOfAll parts = tree.tokens := by
  induction h with
  | primary => rfl
  | binary _ _ ihl ihr =>
    simp only [ParseTree.leavesOfAll, ParseTree.leaves, ihl, ihr, OperatorTree.tokens]
    simp

/-- A grouped tree has operators and operands and nothing else. -/
theorem OperatorTree.Grouped.mem_tokens (h : tree.Grouped v as) (ht : t ∈ tree.tokens) :
    (∃ i right, Arm.IsOperator v as t.type i right) ∨ Arm.IsPrimary v as t.type := by
  induction h with
  | primary hprimary =>
    rw [List.mem_singleton.mp ht]
    exact .inr hprimary
  | binary hop _ _ _ _ ihl ihr =>
    rcases List.mem_append.mp ht with hleft | hrest
    · exact ihl hleft
    rcases List.mem_cons.mp hrest with rfl | hright
    · exact .inl ⟨_, _, hop⟩
    · exact ihr hright

/-- The tokens of the input that are leaves of the root are those of the tree. -/
theorem OperatorTree.Built.input_leaves (h : tree.Built v as) {node : ParseTree}
    (hshows : node.Shows name tree) (hinner : ∀ t ∈ tree.tokens, t.isEof = false) {last : Token}
    (hlast : last.isEof = true) (root : String) (alt : Nat) :
    ((ParseTree.node root alt false [node, .leaf last]).leaves.filter Token.isInput) =
      tree.tokens := by
  obtain ⟨_, parts, rfl, hparts⟩ := hshows
  have hall : tree.tokens.filter Token.isInput = tree.tokens := by
    rw [List.filter_eq_self]
    intro t ht
    simp [Token.isInput, h.real t ht, hinner t ht]
  simp only [ParseTree.leaves, ParseTree.leavesOfAll, hparts.leaves, List.append_nil,
    List.filter_append, hall]
  simp [Token.isInput, hlast]

end Leaves

/-- Operands with operators between them are parsed without an error, into the one
tree over them in which every operator has those under it that bind tighter. -/
theorem Definition.parse_groups {d : Definition} {g : Grammar} {top ops : Rule} {as : List Arm}
    (hbuild : d.build = .ok g) (hrules : OperatorRules d.merge.rules top ops as)
    (hdistinct : Arm.Distinct g.vocabulary as) {source : TokenSource} {ts : List Token}
    (hts : Supplies source 0 ts)
    (hinput : OperatorInput g.vocabulary as ((ts.filter Token.isVisible).map Token.type))
    (hooks : Hooks) (options : ParserOptions) (hbuilds : options.buildTree = true)
    (listeners : List String) :
    ∃ steps result alt node last tree,
      (Parser.parse ⟨g, .ofSource source, options, listeners⟩ hooks steps top.name).result? =
        some (.ok result) ∧ result.metrics.errors = 0 ∧
      result.tree = some (.node top.name alt false [node, .leaf last]) ∧ last.isEof = true ∧
      node.Shows ops.name tree ∧ tree.Grouped g.vocabulary as ∧
      tree.tokens = ts.filter (fun t => t.isVisible && !t.isEof) ∧
      ∀ tree' : OperatorTree, tree'.Grouped g.vocabulary as → tree'.tokens = tree.tokens →
        tree' = tree := by
  obtain ⟨rules, hoperators, _, hruns⟩ := Definition.runs_of_build hbuild
  have hout := hrules.outermost.withOperators hoperators
  obtain ⟨start, span, part, hindex, hstart, hlaid⟩ := hruns.exists_ruleIndex hout.mem
  have hrooted : Rooted g.network g.vocabulary rules start { top with leftRecursive := false } :=
    ⟨hruns, hstart, hruns.heads hout hstart, hrules.endsLast⟩
  obtain ⟨o, ho, rfl, rfl, hname⟩ := hrules.exists_landmarks hoperators hruns hdistinct
    (r := { top with leftRecursive := false }) rfl hlaid
  let interp : Interpreter := ⟨g.network, g.vocabulary, hooks⟩
  have hpermits : interp.network.Permits (some interp.hooks) :=
    hruns.permits (fun _ hr' => hrules.no_predicate hoperators hr') _
  obtain ⟨ts', hts', hat⟩ := TokenStream.exists_at_ofSource source
  obtain rfl := hts.unique hts'
  have hnew : upcoming ts (visiblePlace ts 0) = ts.filter Token.isVisible := by
    obtain ⟨_, _, _, hplace⟩ := hat.ends.visiblePlace_spec 0
    exact (hplace hat.ends.pos).2
  have htop : g.network.ruleName o.top = top.name := by
    rw [Graph.ruleName, hlaid.span_eq, Option.map_some, Option.getD_some, hlaid.name_eq]
  -- The run begins on a track to its end, and before the operands.
  have hbegin := Run.is_begin hlaid.span_eq hat
  let x := View.begin (visiblePlace ts 0) o.top o.topSpan (g.network.ruleName o.top)
  have hword : OperatorInput g.vocabulary as (x.types ts) := by
    rw [View.types, show x.place = visiblePlace ts 0 from rfl, hnew]
    exact hinput
  have htrack : x.OnTrack interp.network o.top ts (x.types ts) :=
    hrooted.onTrack_begin hlaid
      ((hruns.completes_iff_derives hlaid 0 _).mp (ho.completes_input hword))
  have hclimbs : x.Climbs o interp.network g.vocabulary as ops.name top.name ts :=
    .before htop rfl rfl ho.opens rfl hword
  have hsight : x.Sighted ts := hat.visible
  obtain ⟨steps, z, hhalt, hclean, htree, htracks, _, hstop, houter⟩ :=
    htrack.finishes hrooted hpermits hts.numbered hbegin
  obtain ⟨alt, node, tree, last, hnode, hshows, hbuilt, hlast⟩ :=
    (hclimbs.tracks hrooted hpermits ho hname hat.ends hts.numbered hsight htracks).finished
      ho hstop houter
  -- Its leaves are the tokens of the input.
  have hinner (t : Token) (ht : t ∈ tree.tokens) : t.isEof = false := by
    obtain ⟨hop, hprimary⟩ := hrules.not_eof hruns.spelled (t := t.type)
    rw [Token.isEof, beq_eq_false_iff_ne]
    rcases hbuilt.grouped.mem_tokens ht with ⟨i, right, h⟩ | h
    · exact hop i right h
    · exact hprimary h
  obtain ⟨tree', htree', ⟨i, hi, hleaves⟩, _⟩ := interp.loop_told hts.numbered steps
    (Run.tells_begin hat hnew o.top o.topSpan.stop) hhalt
  obtain ⟨j, t, hj, ht, heof⟩ :=
    Run.Is.finished_atInputEnd hruns hstart hrooted.body.ends hlaid.span_eq hts.numbered hat hhalt
  obtain rfl : i = j := hi.index.1.symm.trans hj.index.1
  obtain rfl : z.node = tree' := Option.some.inj (htree.symm.trans htree')
  rw [hnode, hbuilt.input_leaves hshows hinner hlast, hat.ends.visible_take_of_isEof ht heof]
    at hleaves
  have hparse : Parser.parse ⟨g, .ofSource source, options, listeners⟩ hooks steps top.name = _ :=
    Parser.parse_eq hindex hlaid.span_eq
  refine ⟨steps, _, max alt 1, node, last, tree, ParseReport.result?_eq_ok.mpr ⟨?_, rfl⟩,
    ?_, ?_, hlast, hshows, hbuilt.grouped, hleaves, fun tree' hgrouped htokens =>
      hgrouped.unique hdistinct hbuilt.grouped htokens⟩ <;> rw [hparse]
  · exact hhalt
  · exact hclean
  · refine (Parser.tree_report hbuilds _ _).trans ?_
    rw [htree, hnode]
    rfl

/-- Powers, which group to the right, and sums, which group to the left. -/
def towers : Definition where
  name := "Towers"
  rules := [
    { name := "s", body := .seq [.rule "e" 0, .eof] },
    { name := "e", body := .choice [
      .rightAssoc (.seq [.rule "e" 0, .literal "^", .rule "e" 0]),
      .seq [.rule "e" 0, .literal "+", .rule "e" 0], .literal "x"] }]

def towerArms : List Arm :=
  [.binary (.literal "^") true, .binary (.literal "+") false, .primary (.literal "x")]

def towerTokens : List Token :=
  [.make 3 "x" 0 0 1 0, .make 2 "+" 1 1 1 1, .make 3 "x" 2 2 1 2, .make 1 "^" 3 3 1 3,
    .make 3 "x" 4 4 1 4, .make 1 "^" 5 5 1 5, .make 3 "x" 6 6 1 6]

/-- The tree of this sum: the second power is the right operand of the first. -/
def towerTree : OperatorTree :=
  .binary (.primary ((Token.make 3 "x" 0 0 1 0).atIndex 0)) ((Token.make 2 "+" 1 1 1 1).atIndex 1)
    (.binary (.primary ((Token.make 3 "x" 2 2 1 2).atIndex 2))
      ((Token.make 1 "^" 3 3 1 3).atIndex 3)
      (.binary (.primary ((Token.make 3 "x" 4 4 1 4).atIndex 4))
        ((Token.make 1 "^" 5 5 1 5).atIndex 5)
        (.primary ((Token.make 3 "x" 6 6 1 6).atIndex 6))))

theorem parse_groups_towers :
    let g := towers.grammar (by decide +kernel)
    ∃ steps result alt node last,
      (Parser.parse ⟨g, .ofSource (.ofList towerTokens), {}, []⟩ .permissive steps "s").result? =
        some (.ok result) ∧ result.metrics.errors = 0 ∧
      result.tree = some (.node "s" alt false [node, .leaf last]) ∧
      node.Shows "e" towerTree := by
  intro g
  have hrules : OperatorRules towers.merge.rules { name := "s", body := .seq [.rule "e" 0, .eof] }
      { name := "e", body := .choice (towerArms.map (Arm.expr "e")) } towerArms := by
    refine ⟨fun r => ?_, by decide, rfl, rfl, by decide, by decide⟩
    change r ∈ [_, _] ↔ _
    rw [List.mem_cons, List.mem_singleton]
    rfl
  have hdistinct : Arm.Distinct g.vocabulary towerArms := .of_nodup (by decide +kernel)
  have hpower : Arm.IsOperator g.vocabulary towerArms 1 0 true :=
    ⟨_, rfl, tokenFor_iff.mpr (by decide +kernel)⟩
  have hsum : Arm.IsOperator g.vocabulary towerArms 2 1 false :=
    ⟨_, rfl, tokenFor_iff.mpr (by decide +kernel)⟩
  have hx : Arm.IsPrimary g.vocabulary towerArms 3 :=
    ⟨.literal "x", by simp [towerArms], tokenFor_iff.mpr (by decide +kernel)⟩
  have hinput : OperatorInput g.vocabulary towerArms [3, 2, 3, 1, 3, 1, 3, .eof] :=
    ⟨3, _, rfl, hx, .more hsum hx (.more hpower hx (.more hpower hx .last))⟩
  have hts : Supplies (.ofList towerTokens) 0 _ :=
    .more rfl (.more rfl (.more rfl (.more rfl (.more rfl (.more rfl (.more rfl (.last rfl)))))))
  obtain ⟨steps, result, alt, node, last, tree, hresult, hclean, htree, _, hshows, _,
      htokens, hunique⟩ :=
    Definition.parse_groups (towers.build_eq _) hrules hdistinct hts hinput .permissive {} rfl []
  have hone (t : Token) (ht : t.type = 3) :
      (OperatorTree.primary t).Grouped g.vocabulary towerArms :=
    .primary (ht ▸ hx)
  have hgrouped : towerTree.Grouped g.vocabulary towerArms := by
    refine .binary hsum (hone _ rfl)
      (.binary hpower (hone _ rfl) (.binary hpower (hone _ rfl) (hone _ rfl)
      (.primary _) (.primary _)) (.primary _) ?_) (.primary _) ?_
    · exact .binary hdistinct hpower (.inr ⟨rfl, rfl⟩)
    · exact .binary hdistinct hpower (.inl Nat.one_pos)
  obtain rfl := hunique _ hgrouped htokens.symm
  exact ⟨steps, result, alt, node, last, hresult, hclean, htree, hshows⟩

end AdaptiveLL
