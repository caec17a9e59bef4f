/-
The graph of a grammar lays the bodies of all its rules.

First every rule gets its start and stop state, then the bodies are wired one after
the other.  A rule that is wired stays as it is: what comes later adds states, and
changes the start state of its own rule only.
-/
import AdaptiveLL.Proofs.Layout.Body
import Mathlib.Data.List.Induction

namespace AdaptiveLL

/-- A rule lies in a graph: its body between its start and its stop state. -/
structure RuleLaid (g : Graph) (v : Vocabulary) (i : RuleIndex) (r : Rule) (span : RuleSpan)
    (x : Part) : Prop where
  span_eq : g.rule? i = some span
  name_eq : span.name = r.name
  expr_eq : x.expr = r.body
  start_shape : g.shape? span.start = some ⟨.ruleStart, i, [.epsilon x.entry]⟩
  stop_shape : g.shape? span.stop = some ⟨.ruleStop, i, []⟩
  body : Laid g v i r.body x.entry x.exit x.lo x.hi
  leave : g.LeadsTo i x.exit span.stop

/-- The states of a graph are those of the rules that lie in it. -/
structure RulesLaid (g : Graph) (v : Vocabulary) (rules : List Rule) : Prop where
  names_eq : g.rules.toList.map RuleSpan.name = rules.map Rule.name
  rule : ∀ (i : Nat) r, rules[i]? = some r → ∃ span x, RuleLaid g v i r span x
  cover : ∀ id : Nat, id < g.states.size → ∃ (i : Nat) (r : Rule) (span : RuleSpan) (x : Part),
    rules[i]? = some r ∧ RuleLaid g v i r span x ∧
      (id = span.start ∨ id = span.stop ∨ x.lo ≤ id ∧ id < x.hi)

/-- The graph that has the start and stop states of some rules and no more. -/
def graphOfSpans (rules : List Rule) : Graph :=
  rules.foldl (fun (g : Graph) r => g.addRule r.name r.leftRecursive) {}

/-- The states that rule `i` gets before any body is wired. -/
def Rule.span (r : Rule) (i : Nat) : RuleSpan :=
  ⟨r.name, 2 * i, 2 * i + 1, r.leftRecursive⟩

/-- A graph has the start and stop states of some rules and no more. -/
structure Spanned (g : Graph) (rules : List Rule) : Prop where
  size_eq : g.states.size = 2 * rules.length
  rules_eq : g.rules.toList = rules.mapIdx fun i r => r.span i
  start_shape : ∀ i : Nat, i < rules.length → g.shape? (2 * i) = some ⟨.ruleStart, i, []⟩
  stop_shape : ∀ i : Nat, i < rules.length → g.shape? (2 * i + 1) = some ⟨.ruleStop, i, []⟩

theorem Spanned.addRule {g : Graph} {rules : List Rule} (h : Spanned g rules) (r : Rule) :
    Spanned (g.addRule r.name r.leftRecursive) (rules ++ [r]) := by
  have hrules : g.rules.size = rules.length := by
    simpa using congrArg List.length h.rules_eq
  have hshape (id : Nat) : (g.addRule r.name r.leftRecursive).shape? id =
      if id = g.states.size + 1 then some ⟨.ruleStop, g.rules.size, []⟩
      else if id = g.states.size then some ⟨.ruleStart, g.rules.size, []⟩ else g.shape? id := by
    have hstates : (g.addRule r.name r.leftRecursive).shape? id =
        ((g.addState .ruleStart g.rules.size).2.addState .ruleStop g.rules.size).2.shape? id := rfl
    rw [hstates, Graph.shape?_addState, Graph.shape?_addState, Graph.states_size_addState]
  refine ⟨?_, ?_, ?_, ?_⟩
  · simp [Graph.addRule, Graph.addState, h.size_eq]
    omega
  · simp [Graph.addRule, Graph.addState, h.rules_eq, List.mapIdx_append, Rule.span, hrules,
      h.size_eq]
  · intro i hi
    rw [hshape, h.size_eq, hrules, if_neg (by omega)]
    by_cases hlast : i = rules.length
    · rw [if_pos (by omega), hlast]
    · rw [if_neg (by omega)]
      exact h.start_shape i (by simp at hi; omega)
  · intro i hi
    rw [hshape, h.size_eq, hrules]
    by_cases hlast : i = rules.length
    · rw [if_pos (by omega), hlast]
    · rw [if_neg (by omega), if_neg (by omega)]
      exact h.stop_shape i (by simp at hi; omega)

theorem spanned_graphOfSpans (rules : List Rule) : Spanned (graphOfSpans rules) rules := by
  induction rules using List.reverseRecOn with
  | nil => exact ⟨rfl, rfl, by simp, by simp⟩
  | append_singleton rules r ih =>
    have hstep : graphOfSpans (rules ++ [r]) =
        (graphOfSpans rules).addRule r.name r.leftRecursive := by
      simp [graphOfSpans]
    rw [hstep]
    exact ih.addRule r

/-- A later graph shows what this one does, except for the start states of the rules
from number `k` up to number `n`, and for what it adds. -/
structure Graph.Keeps (G g : Graph) (k n : Nat) : Prop where
  rules_eq : G.rules = g.rules
  shape_eq : ∀ id : Nat, id < g.states.size → (∀ j : Nat, k ≤ j → j < n → id ≠ 2 * j) →
    G.shape? id = g.shape? id

/-- The first rules of a graph are wired; `parts` has their bodies. -/
structure WiredRules (v : Vocabulary) (rules : List Rule) (g : Graph) (parts : List Part) :
    Prop where
  rules_eq : g.rules.toList = rules.mapIdx fun i r => r.span i
  size_le : 2 * rules.length ≤ g.states.size
  start_shape : ∀ i : Nat, parts.length ≤ i → i < rules.length →
    g.shape? (2 * i) = some ⟨.ruleStart, i, []⟩
  stop_shape : ∀ i : Nat, i < rules.length → g.shape? (2 * i + 1) = some ⟨.ruleStop, i, []⟩
  rule : ∀ (i : Nat) r x, rules[i]? = some r → parts[i]? = some x → ∀ G : Graph,
    G.Keeps g parts.length rules.length → RuleLaid G v i r (r.span i) x
  cover : ∀ id : Nat, 2 * rules.length ≤ id → id < g.states.size →
    ∃ x ∈ parts, x.lo ≤ id ∧ id < x.hi

theorem Spanned.wiredRules {v : Vocabulary} {rules : List Rule} {g : Graph}
    (h : Spanned g rules) : WiredRules v rules g [] where
  rules_eq := h.rules_eq
  size_le := Nat.le_of_eq h.size_eq.symm
  start_shape i _ hi := h.start_shape i hi
  stop_shape := h.stop_shape
  rule := by simp
  cover id hlo hhi := by
    have hsize := h.size_eq
    omega

theorem WiredRules.rule?_eq {v : Vocabulary} {rules : List Rule} {g : Graph} {parts : List Part}
    (h : WiredRules v rules g parts) {i : Nat} {r : Rule} (hr : rules[i]? = some r) :
    g.rule? i = some (r.span i) := by
  rw [Graph.rule?, ← Array.getElem?_toList, h.rules_eq, List.getElem?_mapIdx, hr]
  rfl

/-- The body of rule `i` is joined to the start and the stop state of the rule. -/
def Graph.join (g : Graph) (i entry exit : Nat) : Graph :=
  (g.addTransition (2 * i) (.epsilon entry)).addTransition exit (.epsilon (2 * i + 1))

theorem wireRule_run {v : Vocabulary} {g g' : Graph} {i : Nat} {r : Rule}
    (hspan : g.rule? i = some (r.span i)) (hrun : (wireRule v i r).run g = .ok ((), g')) :
    ∃ (entry exit : Nat) (g₁ : Graph), Wired ⟨v, i, r.name⟩ r.body g entry exit g₁ ∧
      g' = g₁.join i entry exit := by
  simp only [wireRule, Wiring.bind_ok] at hrun
  obtain ⟨seg, g₁, hseg, _, _, hget, hrun⟩ := hrun
  obtain ⟨rfl, rfl⟩ := Wiring.get_ok.mp hget
  have hwired := (wiresBoth_wire ⟨v, i, r.name⟩ r.body).1 _ _ _ hseg
  have hspan₁ : g₁.rule? i = some (r.span i) := by
    rw [Graph.rule?, hwired.grown.rules_eq]
    exact hspan
  rw [hspan₁] at hrun
  simp only [WiringScope.connect, Wiring.bind_ok, Wiring.modify_ok, Rule.span] at hrun
  obtain ⟨_, _, rfl, rfl⟩ := hrun
  exact ⟨_, _, g₁, hwired, rfl⟩

section Joining

variable {v : Vocabulary} {rules : List Rule} {g g₁ G : Graph} {parts : List Part} {r : Rule}
  {i entry exit id : Nat}

@[simp] theorem Graph.states_size_join : (g.join i entry exit).states.size = g.states.size := by
  simp [join]

theorem Graph.shape?_join (hstart : id ≠ 2 * i) (hexit : id ≠ exit) :
    (g.join i entry exit).shape? id = g.shape? id := by
  simp [join, shape?_addTransition, hstart, hexit]

theorem Graph.shape?_join_start (hne : 2 * i ≠ exit)
    (h : g.shape? (2 * i) = some ⟨.ruleStart, i, []⟩) :
    (g.join i entry exit).shape? (2 * i) = some ⟨.ruleStart, i, [.epsilon entry]⟩ := by
  simp [join, shape?_addTransition, hne, h]

theorem Graph.shape?_join_exit {role : StateRole} (hne : 2 * i ≠ exit)
    (h : g.shape? exit = some ⟨role, i, []⟩) :
    (g.join i entry exit).shape? exit = some ⟨role, i, [.epsilon (2 * i + 1)]⟩ := by
  simp [join, shape?_addTransition, hne.symm, h]

/-- Wiring a rule leaves the old states as they were, but for the start of the rule. -/
theorem Wired.shape?_join (h : Wired ⟨v, i, r.name⟩ r.body g entry exit g₁)
    (hid : id < g.states.size) (hstart : id ≠ 2 * i) :
    (g₁.join i entry exit).shape? id = g.shape? id := by
  have hexit := h.exit_mem.1
  rw [Graph.shape?_join hstart (by omega), h.grown.shape_eq id hid]

namespace WiredRules

theorem ruleLaid_join (h : WiredRules v rules g parts) (hr : rules[parts.length]? = some r)
    (hwired : Wired ⟨v, parts.length, r.name⟩ r.body g entry exit g₁)
    (hG : G.Keeps (g₁.join parts.length entry exit) (parts.length + 1) rules.length) :
    RuleLaid G v parts.length r (r.span parts.length)
      ⟨r.body, entry, exit, g.states.size, g₁.states.size⟩ := by
  have hlast : parts.length < rules.length := (List.getElem?_eq_some_iff.mp hr).1
  have hsize := h.size_le
  have hgrow := hwired.grown.size_le
  have hexit := hwired.exit_mem
  have hne : 2 * parts.length ≠ exit := by omega
  -- The later graph changes the start states of later rules only, which are not among these.
  have hkept (id : Nat) (hid : id < g₁.states.size)
      (hfree : ∀ j : Nat, parts.length + 1 ≤ j → j < rules.length → id ≠ 2 * j) :
      G.shape? id = (g₁.join parts.length entry exit).shape? id :=
    hG.shape_eq id (by simpa using hid) hfree
  have hrules : G.rules = g.rules := hG.rules_eq.trans hwired.grown.rules_eq
  obtain ⟨role, hrole, hopen⟩ := hwired.exit_open
  have hleave : G.shape? exit = some ⟨role, parts.length, [.epsilon (2 * parts.length + 1)]⟩ := by
    rw [hkept exit hexit.2 fun j _ hj => by omega]
    exact Graph.shape?_join_exit hne hopen
  refine ⟨?_, rfl, rfl, ?_, ?_, hwired.laid G ⟨hG.rules_eq, ?_, ?_⟩, ⟨role, hrole, hleave⟩⟩
  · rw [Graph.rule?, hrules]
    exact h.rule?_eq hr
  · have hold : g₁.shape? (2 * parts.length) = some ⟨.ruleStart, parts.length, []⟩ := by
      rw [hwired.grown.shape_eq _ (by omega)]
      exact h.start_shape parts.length (Nat.le_refl _) hlast
    rw [Rule.span, hkept (2 * parts.length) (by omega) fun j hj _ => by omega]
    exact Graph.shape?_join_start hne hold
  · rw [Rule.span, hkept (2 * parts.length + 1) (by omega) fun j hj _ => by omega,
      hwired.shape?_join (by omega) (by omega), h.stop_shape parts.length hlast]
  · intro id hlo hhi hid
    have hlo : g.states.size ≤ id := hlo
    rw [hkept id hhi fun j _ hj => by omega, Graph.shape?_join (by omega) hid]
  · intro shape hs
    rw [hopen, Option.some.injEq] at hs
    subst hs
    exact ⟨_, hleave⟩

theorem wireRule {g' : Graph} (h : WiredRules v rules g parts)
    (hr : rules[parts.length]? = some r)
    (hrun : (AdaptiveLL.wireRule v parts.length r).run g = .ok ((), g')) :
    ∃ x, WiredRules v rules g' (parts ++ [x]) := by
  obtain ⟨entry, exit, g₁, hwired, rfl⟩ := wireRule_run (h.rule?_eq hr) hrun
  have hlast : parts.length < rules.length := (List.getElem?_eq_some_iff.mp hr).1
  have hsize := h.size_le
  have hgrow := hwired.grown.size_le
  have hsize₁ : (g₁.join parts.length entry exit).states.size = g₁.states.size :=
    Graph.states_size_join
  have hrules : (g₁.join parts.length entry exit).rules = g.rules := hwired.grown.rules_eq
  have hparts (x : Part) : (parts ++ [x]).length = parts.length + 1 := by simp
  refine ⟨⟨r.body, entry, exit, g.states.size, g₁.states.size⟩, ?_⟩
  refine ⟨by rw [hrules, h.rules_eq], by omega, ?_, ?_, ?_, ?_⟩
  · intro i hi hi'
    rw [hparts] at hi
    rw [hwired.shape?_join (by omega) (by omega), h.start_shape i (by omega) hi']
  · intro i hi
    rw [hwired.shape?_join (by omega) (by omega), h.stop_shape i hi]
  · intro i r' x hr' hx G hG
    rw [hparts] at hG
    by_cases hi : i < parts.length
    · rw [List.getElem?_append_left hi] at hx
      refine h.rule i r' x hr' hx G ⟨hG.rules_eq.trans hrules, fun id hid hfree => ?_⟩
      rw [hG.shape_eq id (by omega) (fun j hj => hfree j (by omega)),
        hwired.shape?_join hid (hfree parts.length (Nat.le_refl _) hlast)]
    · obtain rfl : i = parts.length := by
        have hlt := (List.getElem?_eq_some_iff.mp hx).1
        rw [hparts] at hlt
        omega
      obtain rfl : r = r' := Option.some.inj (hr.symm.trans hr')
      rw [List.getElem?_append_right (Nat.le_refl _), Nat.sub_self, List.getElem?_cons_zero,
        Option.some.injEq] at hx
      exact hx ▸ h.ruleLaid_join hr hwired hG
  · intro id hlo hhi
    by_cases hid : id < g.states.size
    · obtain ⟨x, hx, hmem⟩ := h.cover id hlo hid
      exact ⟨x, List.mem_append_left _ hx, hmem⟩
    · exact ⟨_, List.mem_append_right _ List.mem_cons_self, by dsimp only; omega,
        by dsimp only; omega⟩

end WiredRules

end Joining

theorem WiredRules.wireRules {v : Vocabulary} {rules : List Rule} {g g' : Graph}
    {parts : List Part} {rest : List Rule} (h : WiredRules v rules g parts)
    (hrest : rules.drop parts.length = rest)
    (hrun : ((rest.zipIdx parts.length).forM fun (r, index) =>
      AdaptiveLL.wireRule v index r).run g = .ok ((), g')) :
    ∃ parts', parts'.length = parts.length + rest.length ∧ WiredRules v rules g' parts' := by
  induction rest generalizing g parts with
  | nil =>
    simp only [List.zipIdx_nil, List.forM_eq_forM, List.forM_nil, Wiring.pure_ok] at hrun
    obtain ⟨_, rfl⟩ := hrun
    exact ⟨parts, rfl, h⟩
  | cons r rest ih =>
    simp only [List.zipIdx_cons, List.forM_eq_forM, List.forM_cons, Wiring.bind_ok] at hrun
    obtain ⟨_, g₁, hfirst, hrun⟩ := hrun
    have hr : rules[parts.length]? = some r := by
      have hhead := congrArg List.head? hrest
      simpa [List.head?_drop] using hhead
    obtain ⟨x, hx⟩ := h.wireRule hr hfirst
    have htail : rules.drop (parts ++ [x]).length = rest := by
      rw [List.length_append, List.length_singleton, ← List.tail_drop, hrest, List.tail_cons]
    have hlength : parts.length + 1 = (parts ++ [x]).length := by simp
    obtain ⟨parts', hparts', hdone⟩ := ih hx htail (by rw [← hlength]; exact hrun)
    refine ⟨parts', ?_, hdone⟩
    rw [hparts', ← hlength, List.length_cons]
    omega

/-- Every rule lies in the graph that wiring makes of all rules, whatever the highest
token type is said to be. -/
theorem rulesLaid_wireRules {v : Vocabulary} {rules : List Rule} {g : Graph}
    (hrun : wireRules rules v = .ok g) (maxType : TokenType) :
    RulesLaid { g with maxType } v rules := by
  have hrun' : (rules.zipIdx.forM fun (r, index) => wireRule v index r).run (graphOfSpans rules) =
      .ok ((), g) := by
    simp only [wireRules, bind, Except.bind, pure, Except.pure] at hrun
    split at hrun
    · cases hrun
    · rename_i result hwork
      cases hrun
      exact hwork
  obtain ⟨parts, hlength, hdone⟩ :=
    (spanned_graphOfSpans rules).wiredRules.wireRules (v := v) rfl hrun'
  have hlength : parts.length = rules.length := by simpa using hlength
  have hlaid (i : Nat) (r : Rule) (x : Part) (hr : rules[i]? = some r) (hx : parts[i]? = some x) :
      RuleLaid { g with maxType } v i r (r.span i) x :=
    hdone.rule i r x hr hx { g with maxType } ⟨rfl, fun _ _ _ => rfl⟩
  refine ⟨?_, ?_, ?_⟩
  · rw [show ({ g with maxType } : Graph).rules = g.rules from rfl, hdone.rules_eq]
    refine List.ext_getElem? fun i => ?_
    cases hr : rules[i]? <;> simp [hr, Rule.span]
  · intro i r hr
    have hi : i < parts.length := hlength ▸ (List.getElem?_eq_some_iff.mp hr).1
    exact ⟨_, parts[i], hlaid i r parts[i] hr (List.getElem?_eq_getElem hi)⟩
  · intro id hid
    have hid : id < g.states.size := hid
    by_cases hlow : id < 2 * rules.length
    · have hi : id / 2 < rules.length := by omega
      have hr := List.getElem?_eq_getElem hi
      have hx := List.getElem?_eq_getElem (hlength ▸ hi : id / 2 < parts.length)
      refine ⟨id / 2, _, _, _, hr, hlaid _ _ _ hr hx, ?_⟩
      simp only [Rule.span]
      omega
    · obtain ⟨x, hx, hmem⟩ := hdone.cover id (by omega) hid
      obtain ⟨i, hi, rfl⟩ := List.mem_iff_getElem.mp hx
      have hr := List.getElem?_eq_getElem (hlength ▸ hi : i < rules.length)
      exact ⟨i, _, _, _, hr, hlaid i _ _ hr (List.getElem?_eq_getElem hi), .inr (.inr hmem)⟩

end AdaptiveLL
