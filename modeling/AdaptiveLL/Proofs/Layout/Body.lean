/-
Wiring lays rule bodies.

The parts of a sequence are wired before they are joined, so a join changes nothing
but the exit of the part in front.  With blocks and loops this gives the main
statement: wiring an expression lays it on the states that were added for it.
-/
import AdaptiveLL.Proofs.Layout.Block

namespace AdaptiveLL

inductive WiredAll (scope : WiringScope) : List Expr → Graph → List Segment → Graph → Prop where
  | nil {g} : WiredAll scope [] g [] g
  | cons {e es g g' g'' seg segs} (hfirst : Wired scope e g seg.entry seg.exit g')
      (hrest : WiredAll scope es g' segs g'') : WiredAll scope (e :: es) g (seg :: segs) g''

section

variable {scope : WiringScope} {e : Expr} {es : List Expr} {g g' h h' : Graph} {seg : Segment}
  {segs : List Segment}

theorem WiredAll.grown (hall : WiredAll scope es g segs g') : g.Extends g' := by
  induction hall with
  | nil => exact .refl _
  | cons hfirst _ ih => exact hfirst.grown.trans ih

theorem wiredAll_run {ws : List (Wiring Segment)} (hws : List.Forall₂ (Wires scope) es ws)
    (hrun : (ws.mapM id).run g = .ok (segs, g')) : WiredAll scope es g segs g' := by
  induction hws generalizing g segs with
  | nil =>
    rw [List.mapM_nil, Wiring.pure_ok] at hrun
    obtain ⟨rfl, rfl⟩ := hrun
    exact .nil
  | cons hw _ ih =>
    simp only [List.mapM_cons, Wiring.bind_ok, Wiring.pure_ok, id] at hrun
    obtain ⟨seg, g₁, hseg, rest, g₂, hrest, rfl, rfl⟩ := hrun
    exact .cons (hw _ _ _ hseg) (ih hrest)

/-- What joining the segments of a sequence does: `g` and `g'` are the graphs before and
behind the wiring of the parts, `h` and `h'` those before and behind the joining. -/
structure Chained (scope : WiringScope) (es : List Expr) (g g' : Graph) (entry exit : Nat)
    (h h' : Graph) : Prop where
  size_eq : h'.states.size = h.states.size
  rules_eq : h'.rules = h.rules
  kept : ∀ id : Nat, id < g.states.size → h'.shape? id = h.shape? id
  entry_mem : g.states.size ≤ entry ∧ entry < g'.states.size
  exit_mem : g.states.size ≤ exit ∧ exit < g'.states.size
  exit_open : ∃ role : StateRole, role.Plain ∧ h'.shape? exit = some ⟨role, scope.rule, []⟩
  laid : ∀ G : Graph, G.Agrees h' g.states.size g'.states.size exit →
    Laid G scope.vocabulary scope.rule (.seq es) entry exit g.states.size g'.states.size

theorem chain_entry {s : Segment} (hrun : (scope.chain (s :: segs)).run h = .ok (seg, h')) :
    seg.entry = s.entry := by
  cases segs with
  | nil =>
    rw [WiringScope.chain, Wiring.pure_ok] at hrun
    rw [← hrun.1]
  | cons next rest =>
    simp only [WiringScope.chain, Wiring.bind_ok, Wiring.pure_ok] at hrun
    obtain ⟨_, _, _, _, _, _, rfl, _⟩ := hrun
    rfl

/-- A segment by itself is a chain. -/
theorem Wired.chained_only {entry exit : Nat} (hwired : Wired scope e g entry exit g')
    (hmatch : h.Matches g' g.states.size g'.states.size) :
    Chained scope [e] g g' entry exit h h := by
  have hexit := hmatch.shape_eq exit hwired.exit_mem.1 hwired.exit_mem.2
  obtain ⟨role, hrole, hshape⟩ := hwired.exit_open
  refine ⟨rfl, rfl, fun _ _ => rfl, hwired.entry_mem, hwired.exit_mem, ⟨role, hrole, ?_⟩, ?_⟩
  · rw [hexit, hshape]
  · intro G hG
    refine .only (hwired.laid G (hG.trans ⟨hmatch.rules_eq, ?_, ?_⟩ (Nat.le_refl _)
      (Nat.le_refl _) hwired.exit_mem.1 hwired.exit_mem.2 (.inl rfl)))
    · exact fun id hlo hhi _ => hmatch.shape_eq id hlo hhi
    · exact fun shape hs => ⟨shape.transitions, by rw [hexit, hs]⟩

/-- A segment and a chain behind it, to whose entry it is joined, are a chain. -/
theorem Wired.chained_cons {g₁ : Graph} {entry mid next exit : Nat}
    (hfirst : Wired scope e g entry mid g₁) (hgrown : g₁.Extends g')
    (hmatch : h.Matches g' g.states.size g'.states.size)
    (hrest : Chained scope es g₁ g' next exit (h.addTransition mid (.epsilon next)) h')
    (hne : es ≠ []) : Chained scope (e :: es) g g' entry exit h h' := by
  have hsize := hfirst.grown.size_le
  have hsize' := hgrown.size_le
  have hmid_mem := hfirst.exit_mem
  have hentry_mem := hfirst.entry_mem
  have hexit_mem := hrest.exit_mem
  have hkept (id : Nat) (hid : id < g₁.states.size) (hne : id ≠ mid) :
      h'.shape? id = h.shape? id := by
    rw [hrest.kept id hid]
    simp [Graph.shape?_addTransition, hne]
  obtain ⟨role, hrole, hopen⟩ := hfirst.exit_open
  have hshape : h.shape? mid = some ⟨role, scope.rule, []⟩ := by
    rw [hmatch.shape_eq mid hmid_mem.1 (by omega), hgrown.shape_eq mid hmid_mem.2, hopen]
  have hmid : h'.shape? mid = some ⟨role, scope.rule, [.epsilon next]⟩ := by
    rw [hrest.kept mid hmid_mem.2]
    simp [Graph.shape?_addTransition, hshape]
  refine ⟨by simpa using hrest.size_eq, hrest.rules_eq, fun id hid => hkept id ?_ ?_,
    ⟨hentry_mem.1, ?_⟩, ⟨?_, hexit_mem.2⟩, hrest.exit_open, ?_⟩
  · omega
  · omega
  · exact Nat.lt_of_lt_of_le hentry_mem.2 hsize'
  · exact Nat.le_trans hsize hexit_mem.1
  · intro G hG
    have hmatches : G.Matches h' g.states.size g₁.states.size :=
      hG.matches (Nat.le_refl _) hsize' (.inr hexit_mem.1)
    have hrules : h'.rules = g₁.rules :=
      hrest.rules_eq.trans (hmatch.rules_eq.trans hgrown.rules_eq)
    obtain ⟨second, es, rfl⟩ := List.exists_cons_of_ne_nil hne
    refine .chain (hfirst.laid G ?_) (hrest.laid G ?_) ?_
    · refine hmatches.agrees hrules ?_ hmid_mem.1 hmid_mem.2 ?_
      · intro id hlo hhi hne
        rw [hkept id hhi hne, hmatch.shape_eq id hlo (by omega), hgrown.shape_eq id hhi]
      · intro shape hs
        rw [hopen, Option.some.injEq] at hs
        subst hs
        exact ⟨_, hmid⟩
    · exact ⟨hG.rules_eq, fun id hlo hhi hne => hG.shape_eq id (by omega) hhi hne, hG.exit_eq⟩
    · exact hmatches.leadsTo hmid_mem.1 hmid_mem.2 ⟨role, hrole, hmid⟩

/-- A chain of segments lays the sequence, whatever the graph shows outside of them. -/
theorem chain_run (hall : WiredAll scope es g segs g') (hne : segs ≠ [])
    (hmatch : h.Matches g' g.states.size g'.states.size)
    (hrun : (scope.chain segs).run h = .ok (seg, h')) :
    Chained scope es g g' seg.entry seg.exit h h' := by
  induction hall generalizing h h' seg with
  | nil => exact absurd rfl hne
  | @cons e es g g₁ g' s segs hfirst hrest ih =>
    cases hrest with
    | nil =>
      rw [WiringScope.chain, Wiring.pure_ok] at hrun
      obtain ⟨rfl, rfl⟩ := hrun
      exact hfirst.chained_only hmatch
    | @cons next es _ g₂ _ s' segs hnext hrest =>
      simp only [WiringScope.chain, Wiring.bind_ok, WiringScope.connect, Wiring.modify_ok,
        Wiring.pure_ok] at hrun
      obtain ⟨_, h₁, rfl, tail, h₂, htail, rfl, rfl⟩ := hrun
      have hall' : WiredAll scope (next :: es) g₁ (s' :: segs) g' := .cons hnext hrest
      have hmid := hfirst.exit_mem
      have hsize := hfirst.grown.size_le
      have hmatch₁ : (h.addTransition s.exit (.epsilon s'.entry)).Matches g' g₁.states.size
          g'.states.size := by
        refine ⟨hmatch.rules_eq, fun id hlo hhi => ?_⟩
        have hne : id ≠ s.exit := by omega
        simp [Graph.shape?_addTransition, hne, hmatch.shape_eq id (by omega) hhi]
      have hchained := ih (by simp) hmatch₁ htail
      rw [chain_entry htail] at hchained
      exact hfirst.chained_cons hall'.grown hmatch hchained (by simp)

theorem wires_seq {items : List Expr} {ws : List (Wiring Segment)}
    (hws : List.Forall₂ (Wires scope) items ws) :
    Wires scope (.seq items) (do scope.chain (← ws.mapM id)) := by
  intro g seg g' hrun
  rw [Wiring.bind_ok] at hrun
  obtain ⟨segs, g₁, hsegs, hchain⟩ := hrun
  have hall := wiredAll_run hws hsegs
  cases hall with
  | nil =>
    obtain ⟨rfl, rfl⟩ := edge_run hchain
    exact wired_edge .nothing
  | cons hfirst hrest =>
    have hall : WiredAll scope _ g _ g₁ := .cons hfirst hrest
    have hgrown := hall.grown
    have hjoined := chain_run hall (by simp) ⟨rfl, fun _ _ _ => rfl⟩ hchain
    have hsize := hjoined.size_eq
    refine ⟨⟨by rw [hsize]; exact hgrown.size_le, hjoined.rules_eq.trans hgrown.rules_eq, ?_⟩,
      by rw [hsize]; exact hjoined.entry_mem, by rw [hsize]; exact hjoined.exit_mem,
      hjoined.exit_open, by rw [hsize]; exact hjoined.laid⟩
    intro id hid
    rw [hjoined.kept id hid, hgrown.shape_eq id hid]

theorem tokenFor_of_tokenType {t : TokenType} (ht : scope.tokenType e = .ok t) :
    TokenFor scope.vocabulary e t := by
  unfold WiringScope.tokenType at ht
  split at ht
  · split at ht
    · cases ht
      exact .literal ‹_›
    · cases ht
  · split at ht
    · cases ht
      exact .token ‹_›
    · cases ht
  · cases ht
    exact .eof
  · cases ht

theorem wires_tokenEdge : Wires scope e (scope.tokenEdge e) := by
  intro g seg g' hrun
  rw [WiringScope.tokenEdge, Wiring.bind_ok] at hrun
  obtain ⟨t, _, hlift, hrun⟩ := hrun
  obtain ⟨ht, rfl⟩ := Wiring.lift_ok.mp hlift
  obtain ⟨rfl, rfl⟩ := edge_run hrun
  exact wired_edge (.token (tokenFor_of_tokenType ht))

theorem tokenTypes_run {types : List TokenType}
    (hrun : (es.mapM fun e => (scope.tokenType e : Wiring TokenType)).run g = .ok (types, g')) :
    List.Forall₂ (TokenFor scope.vocabulary) es types ∧ g' = g := by
  induction es generalizing g types with
  | nil =>
    rw [List.mapM_nil, Wiring.pure_ok] at hrun
    obtain ⟨rfl, rfl⟩ := hrun
    exact ⟨.nil, rfl⟩
  | cons e es ih =>
    simp only [List.mapM_cons, Wiring.bind_ok, Wiring.pure_ok] at hrun
    obtain ⟨t, _, hlift, ts, _, hts, rfl, rfl⟩ := hrun
    obtain ⟨ht, rfl⟩ := Wiring.lift_ok.mp hlift
    obtain ⟨hrest, rfl⟩ := ih hts
    exact ⟨.cons (tokenFor_of_tokenType ht) hrest, rfl⟩

theorem wires_choice {ws : List (Wiring Segment)} (hws : List.Forall₂ (Wires scope) es ws) :
    Wires scope (.choice es) (scope.choice es ws) := by
  intro g seg g' hrun
  unfold WiringScope.choice at hrun
  by_cases hform : Expr.formTokenChoice es = true
  · rw [if_pos hform, Wiring.bind_ok] at hrun
    obtain ⟨types, g₁, hmap, hrun⟩ := hrun
    obtain ⟨htypes, rfl⟩ := tokenTypes_run hmap
    obtain ⟨rfl, rfl⟩ := edge_run hrun
    exact wired_edge (.tokens hform htypes)
  · rw [if_neg hform] at hrun
    cases hws with
    | nil => exact absurd hrun Wiring.throw_ok
    | cons hfirst hrest =>
      cases hrest with
      | nil =>
        have hwired := hfirst _ _ _ hrun
        exact ⟨hwired.grown, hwired.entry_mem, hwired.exit_mem, hwired.exit_open,
          fun G hG => .single (hwired.laid G hG)⟩
      | cons hnext hrest =>
        exact wires_block (by simpa using hform) (by simp) (.cons hfirst (.cons hnext hrest)) _ _ _
          hrun

theorem wires_label {name : String} {w : Wiring Segment} (hw : Wires scope e w) :
    Wires scope (.label name e) (scope.labelled name e w) := by
  intro g seg g' hrun
  rw [WiringScope.labelled] at hrun
  split at hrun
  · exact absurd hrun Wiring.throw_ok
  · simp only [Wiring.bind_ok, Wiring.modify_ok, Wiring.pure_ok] at hrun
    obtain ⟨seg, g₁, hseg, _, _, rfl, rfl, rfl⟩ := hrun
    have hwired := hw _ _ _ hseg
    have hsize : (g₁.setLabel seg.entry name).states.size = g₁.states.size := by
      simp [Graph.setLabel, Graph.modifyState]
    refine ⟨⟨by rw [hsize]; exact hwired.grown.size_le, hwired.grown.rules_eq, ?_⟩,
      by rw [hsize]; exact hwired.entry_mem, by rw [hsize]; exact hwired.exit_mem, ?_, ?_⟩
    · intro id hid
      rw [Graph.shape?_setLabel, hwired.grown.shape_eq id hid]
    · simpa only [Graph.shape?_setLabel] using hwired.exit_open
    · intro G hG
      rw [hsize] at hG ⊢
      refine .label (hwired.laid G ⟨hG.rules_eq, fun id hlo hhi hne => ?_, fun shape hs => ?_⟩)
      · rw [hG.shape_eq id hlo hhi hne, Graph.shape?_setLabel]
      · exact hG.exit_eq shape (by rw [Graph.shape?_setLabel, hs])

theorem wires_callEdge {name : String} {level : Int} :
    Wires scope (.rule name level) (scope.callEdge name level) := by
  intro g seg g' hrun
  rw [WiringScope.callEdge, Wiring.bind_ok] at hrun
  obtain ⟨_, _, hget, hrun⟩ := hrun
  obtain ⟨rfl, rfl⟩ := Wiring.get_ok.mp hget
  split at hrun
  · exact absurd hrun Wiring.throw_ok
  · rename_i callee start hcallee
    obtain ⟨index, hindex, hmap⟩ := Option.bind_eq_some_iff.mp hcallee
    obtain ⟨span, hspan, heq⟩ := Option.map_eq_some_iff.mp hmap
    obtain ⟨rfl, rfl⟩ : index = callee ∧ span.start = start := by simpa using heq
    obtain ⟨rfl, rfl⟩ := edge_run hrun
    exact wired_edge (.call hindex hspan)

theorem wires_action {text : String} : Wires scope (.action text) (do
    let index ← modifyGet fun g => g.addAction text
    scope.edge fun target => .action target scope.rule index) := by
  intro g seg g' hrun
  rw [Wiring.bind_ok] at hrun
  obtain ⟨index, g₁, hadd, hrun⟩ := hrun
  obtain ⟨rfl, rfl⟩ : g.actions.size = index ∧ (g.addAction text).2 = g₁ := by
    simpa [Graph.addAction] using Wiring.modifyGet_ok.mp hadd
  obtain ⟨rfl, rfl⟩ := edge_run hrun
  have hedge : EdgeFor (g.addAction text).2 scope.vocabulary scope.rule (g.states.size + 1)
      (.action text) (.action (g.states.size + 1) scope.rule g.actions.size) := .action
  have hwired := wired_edge (g := (g.addAction text).2) hedge
  exact ⟨⟨hwired.grown.size_le, hwired.grown.rules_eq, hwired.grown.shape_eq⟩, hwired.entry_mem,
    hwired.exit_mem, hwired.exit_open, hwired.laid⟩

theorem wires_predicate {text : String} : Wires scope (.predicate text) (do
    let index ← modifyGet fun g => g.addPredicate text
    scope.edge fun target => .predicate target scope.rule index) := by
  intro g seg g' hrun
  rw [Wiring.bind_ok] at hrun
  obtain ⟨index, g₁, hadd, hrun⟩ := hrun
  obtain ⟨rfl, rfl⟩ : g.predicates.size = index ∧ (g.addPredicate text).2 = g₁ := by
    simpa [Graph.addPredicate] using Wiring.modifyGet_ok.mp hadd
  obtain ⟨rfl, rfl⟩ := edge_run hrun
  have hedge : EdgeFor (g.addPredicate text).2 scope.vocabulary scope.rule (g.states.size + 1)
      (.predicate text) (.predicate (g.states.size + 1) scope.rule g.predicates.size) := .predicate
  have hwired := wired_edge (g := (g.addPredicate text).2) hedge
  exact ⟨⟨hwired.grown.size_le, hwired.grown.rules_eq, hwired.grown.shape_eq⟩, hwired.entry_mem,
    hwired.exit_mem, hwired.exit_open, hwired.laid⟩

theorem wires_rightAssoc {w : Wiring Segment} (hw : Wires scope e w) :
    Wires scope (.rightAssoc e) w := by
  intro g seg g' hrun
  have hwired := hw _ _ _ hrun
  exact ⟨hwired.grown, hwired.entry_mem, hwired.exit_mem, hwired.exit_open,
    fun G hG => .rightAssoc (hwired.laid G hG)⟩

end

/-- The wiring is right for an expression and for the alternatives that it lends. -/
def WiresBoth (scope : WiringScope) (e : Expr) (w : WiredExpr) : Prop :=
  Wires scope e w.whole ∧ List.Forall₂ (Wires scope) e.lent w.alternatives

theorem WiresBoth.single {scope : WiringScope} {e : Expr} {w : Wiring Segment}
    (hlent : e.lent = [e]) (hw : Wires scope e w) : WiresBoth scope e (.single w) :=
  ⟨hw, by rw [hlent]; exact .cons hw .nil⟩

theorem wiresBoth_choice {scope : WiringScope} {es : List Expr} {ws : List (Wiring Segment)}
    (hws : List.Forall₂ (Wires scope) es ws) :
    WiresBoth scope (.choice es) (scope.choiceParts es ws) := by
  by_cases hone : (Expr.formTokenChoice es || decide (es.length ≤ 1)) = true
  · have hlent : (Expr.choice es).lent = [.choice es] := if_pos hone
    have hparts : scope.choiceParts es ws = .single (scope.choice es ws) := if_pos hone
    rw [hparts]
    exact .single hlent (wires_choice hws)
  · have hlent : (Expr.choice es).lent = es := if_neg hone
    have hparts : scope.choiceParts es ws = ⟨scope.choice es ws, ws⟩ := if_neg hone
    rw [hparts]
    exact ⟨wires_choice hws, by rw [hlent]; exact hws⟩

mutual

/-- Wiring an expression lays it. -/
theorem wiresBoth_wire (scope : WiringScope) : ∀ e : Expr, WiresBoth scope e (scope.wire e)
  | .literal _ => .single rfl wires_tokenEdge
  | .token _ => .single rfl wires_tokenEdge
  | .eof => .single rfl wires_tokenEdge
  | .wildcard => .single rfl (wires_edge fun _ _ => .wildcard)
  | .empty => .single rfl (wires_edge fun _ _ => .empty)
  | .action _ => .single rfl wires_action
  | .predicate _ => .single rfl wires_predicate
  | .precedence _ => .single rfl (wires_edge fun _ _ => .precedence)
  | .rule _ _ => .single rfl wires_callEdge
  | .seq items => .single rfl (wires_seq (wires_wireAll scope items))
  | .choice alternatives => wiresBoth_choice (wires_wireAll scope alternatives)
  | .optional body =>
    have hnone : Wires scope .empty (scope.edge .epsilon) := wires_edge fun _ _ => .empty
    .single rfl (wires_optional
      (List.rel_append (wiresBoth_wire scope body).2 (.cons hnone .nil)))
  | .star body => .single rfl (wires_starLoop .star (wiresBoth_wire scope body).2)
  | .operatorLoop body =>
    .single rfl (wires_starLoop .operators (wiresBoth_wire scope body).2)
  | .plus body => .single rfl (wires_plusLoop (wiresBoth_wire scope body).2)
  | .label _ body => .single rfl (wires_label (wiresBoth_wire scope body).1)
  | .rightAssoc body => .single rfl (wires_rightAssoc (wiresBoth_wire scope body).1)

/-- Wiring several expressions lays each. -/
theorem wires_wireAll (scope : WiringScope) :
    ∀ es : List Expr, List.Forall₂ (Wires scope) es (scope.wireAll es)
  | [] => .nil
  | e :: es => .cons (wiresBoth_wire scope e).1 (wires_wireAll scope es)

end

end AdaptiveLL
