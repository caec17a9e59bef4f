/-
What a definition that builds is like.

Merging leaves one rule of each name, the operator form keeps the names, and the
checks have passed, so the network lays rules that make progress.
-/
import AdaptiveLL.Proofs.Layout.Rules
import AdaptiveLL.Proofs.Progress

namespace AdaptiveLL

/-- The parser rules of a definition, with left recursion turned into operators. -/
def Definition.operatorRules (d : Definition) : Except GrammarDefect (List Rule) :=
  d.merge.rules.mapM Rule.withOperators

/-- No literal and no name leads to a reserved type. -/
structure Vocabulary.SpellsTokens (v : Vocabulary) : Prop where
  literals : ∀ spelling ∈ v.spellings, TokenType.first ≤ spelling.2
  names : ∀ named ∈ v.names, TokenType.first ≤ named.2

/-- A network has the layout of some rules that make progress. -/
structure Network.Runs (n : Network) (v : Vocabulary) (rules : List Rule) : Prop where
  nodup : (rules.map Rule.name).Nodup
  leftCycle : leftCycle? rules = none
  emptyClosure : emptyClosure? rules = none
  laid : RulesLaid n.toGraph v rules
  maxType_eq : n.maxType = v.maxType
  checked : n.toGraph.toNetwork n.maxType = .ok n
  spelled : v.SpellsTokens

/-- The grammar of a definition that builds. -/
def Definition.grammar (d : Definition) (h : d.build.isOk = true) : Grammar :=
  match d.build, h with
  | .ok g, _ => g

theorem Definition.build_eq (d : Definition) (h : d.build.isOk = true) :
    d.build = .ok (d.grammar h) := by
  unfold Definition.grammar
  split
  assumption

section Merge

theorem Merged.nodup_addRule {m : Merged} (h : (m.rules.map Rule.name).Nodup) (r : Rule) :
    ((m.addRule r).rules.map Rule.name).Nodup := by
  unfold Merged.addRule
  split
  · exact h
  · rename_i hnew
    simp only [List.any_eq_true, beq_iff_eq, not_exists, not_and] at hnew
    rw [List.map_append, List.nodup_append]
    refine ⟨h, by simp, ?_⟩
    intro a ha b hb
    obtain ⟨s, hs, rfl⟩ := List.mem_map.mp ha
    obtain rfl : b = r.name := by simpa using hb
    exact hnew s hs

theorem Merged.rules_foldl_addLexer (m : Merged) (ds : List LexDefinition) :
    (ds.foldl Merged.addLexer m).rules = m.rules := by
  induction ds generalizing m with
  | nil => rfl
  | cons d ds ih =>
    rw [List.foldl_cons, ih]
    unfold Merged.addLexer
    split <;> rfl

theorem Merged.nodup_foldl_addRule {m : Merged} (h : (m.rules.map Rule.name).Nodup)
    (rs : List Rule) : ((rs.foldl Merged.addRule m).rules.map Rule.name).Nodup := by
  induction rs generalizing m with
  | nil => exact h
  | cons r rs ih => exact ih (Merged.nodup_addRule h r)

mutual

theorem Definition.nodup_mergeInto : ∀ (d : Definition) {m : Merged},
    (m.rules.map Rule.name).Nodup → ((d.mergeInto m).rules.map Rule.name).Nodup
  | ⟨name, rules, lexer, tokens, imports⟩, m, h => by
    rw [Definition.mergeInto]
    refine Definition.nodup_mergeAllInto imports ?_
    rw [Merged.rules_foldl_addLexer]
    exact Merged.nodup_foldl_addRule h rules

theorem Definition.nodup_mergeAllInto : ∀ (ds : List Definition) {m : Merged},
    (m.rules.map Rule.name).Nodup → ((Definition.mergeAllInto m ds).rules.map Rule.name).Nodup
  | [], m, h => by rwa [Definition.mergeAllInto]
  | d :: rest, m, h => by
    rw [Definition.mergeAllInto]
    exact Definition.nodup_mergeAllInto rest (Definition.nodup_mergeInto d h)

end

/-- Merging leaves one rule of each name. -/
theorem Definition.nodup_merge (d : Definition) : (d.merge.rules.map Rule.name).Nodup :=
  Definition.nodup_mergeInto d List.nodup_nil

end Merge

section Types

namespace Vocabulary

variable {v : Vocabulary}

theorem first_le_next (v : Vocabulary) : TokenType.first ≤ v.maxType + 1 :=
  Int.le_add_of_nonneg_left (Int.natCast_nonneg v.entries.size)

theorem SpellsTokens.empty : Vocabulary.empty.SpellsTokens where
  literals _ h := absurd h List.not_mem_nil
  names _ h := absurd h List.not_mem_nil

theorem SpellsTokens.internName (h : v.SpellsTokens) (name : String) :
    (v.internName name).2.SpellsTokens := by
  unfold Vocabulary.internName
  split
  · exact h
  · exact ⟨h.literals, List.forall_mem_cons.mpr ⟨v.first_le_next, h.names⟩⟩

theorem SpellsTokens.internLiteral (h : v.SpellsTokens) (text : String) :
    (v.internLiteral text).2.SpellsTokens := by
  unfold Vocabulary.internLiteral
  split
  · exact h
  · exact ⟨List.forall_mem_cons.mpr ⟨v.first_le_next, h.literals⟩, h.names⟩

theorem SpellsTokens.addSpelling (h : v.SpellsTokens) (t : TokenType) (text : String) :
    (v.addSpelling t text).SpellsTokens := by
  unfold Vocabulary.addSpelling
  split
  · exact h
  · rename_i hnew
    refine ⟨List.forall_mem_cons.mpr ⟨?_, h.literals⟩, h.names⟩
    simp only [Bool.or_eq_true, not_or] at hnew
    by_contra hlt
    rw [Int.not_le] at hlt
    simp [lookup?, hlt] at hnew

theorem SpellsTokens.foldl {α : Type} {f : Vocabulary → α → Vocabulary}
    (hf : ∀ v x, v.SpellsTokens → (f v x).SpellsTokens) (xs : List α) (h : v.SpellsTokens) :
    (xs.foldl f v).SpellsTokens := by
  induction xs generalizing v with
  | nil => exact h
  | cons x xs ih => exact ih (hf v x h)

theorem SpellsTokens.first_le (h : v.SpellsTokens) {text : String} {t : TokenType}
    (ht : v.typeOfLiteral? text = some t) : TokenType.first ≤ t := by
  obtain ⟨l₁, l₂, heq, _⟩ := List.lookup_eq_some_iff.mp ht
  exact h.literals (text, t) (by simp [heq])

theorem SpellsTokens.first_le_name (h : v.SpellsTokens) {name : String} {t : TokenType}
    (ht : v.definedType? name = some t) : TokenType.first ≤ t := by
  obtain ⟨l₁, l₂, heq, _⟩ := List.lookup_eq_some_iff.mp ht
  exact h.names (name, t) (by simp [heq])

end Vocabulary

/-- The vocabulary of a grammar keeps the reserved types apart. -/
theorem Merged.spellsTokens_vocabulary (m : Merged) : m.vocabulary.SpellsTokens := by
  have hintern (v : Vocabulary) (name : String) (h : v.SpellsTokens) :
      (v.internName name).2.SpellsTokens := h.internName name
  unfold Merged.vocabulary
  refine .foldl hintern _ (.foldl hintern _ (.foldl ?_ _ (.foldl ?_ _ ?_)))
  · intro v d h
    unfold Merged.defineTokenRule
    dsimp only
    split
    · exact h.internName d.name
    · exact (h.internName d.name).addSpelling _ _
  · exact fun v text h => h.internLiteral text
  · exact .empty

end Types

theorem Rule.name_withOperators {r r' : Rule} (h : r.withOperators = .ok r') :
    r'.name = r.name := by
  simp only [Rule.withOperators, bind, Except.bind, pure, Except.pure] at h
  split at h
  · cases h
  · split at h
    · cases h
      rfl
    · cases h
      rfl

theorem names_withOperators {rules rules' : List Rule}
    (h : rules.mapM Rule.withOperators = .ok rules') :
    rules'.map Rule.name = rules.map Rule.name := by
  induction rules generalizing rules' with
  | nil =>
    cases h
    rfl
  | cons r rules ih =>
    rw [List.mapM_cons] at h
    cases hr : r.withOperators with
    | error d => simp [hr, bind, Except.bind] at h
    | ok r' =>
      cases hrest : rules.mapM Rule.withOperators with
      | error d => simp [hr, hrest, bind, Except.bind] at h
      | ok rest =>
        obtain rfl : r' :: rest = rules' := by
          simpa [hr, hrest, bind, Except.bind, pure, Except.pure] using h
        rw [List.map_cons, List.map_cons, ih hrest, Rule.name_withOperators hr]

theorem Definition.nodup_operatorRules {d : Definition} {rules : List Rule}
    (h : d.operatorRules = .ok rules) : (rules.map Rule.name).Nodup := by
  rw [names_withOperators h]
  exact d.nodup_merge

section Check

/-- A list of checks passes if each of them does. -/
theorem Except.forM_eq_ok {ε α : Type} {f : α → Except ε Unit} {xs : List α} :
    xs.forM f = .ok () ↔ ∀ x ∈ xs, f x = .ok () := by
  induction xs with
  | nil => exact ⟨nofun, fun _ => rfl⟩
  | cons x xs ih =>
    change (f x >>= fun _ => xs.forM f) = _ ↔ _
    rw [List.forall_mem_cons, ← ih]
    cases hx : f x <;> simp [bind, Except.bind]

variable {g : Graph}

/-- The highest type has no part in the check. -/
theorem Graph.toNetwork_of_check_ok (h : g.check = .ok ()) (maxType : TokenType) :
    ∃ n, g.toNetwork maxType = .ok n := by
  have hcheck : Graph.check { g with maxType } = .ok () := h
  rw [toNetwork, hcheck]
  exact ⟨_, rfl⟩

theorem Graph.toNetwork_of_check_error {defect : NetworkDefect} (h : g.check = .error defect)
    (maxType : TokenType) : g.toNetwork maxType = .error defect := by
  have hcheck : Graph.check { g with maxType } = .error defect := h
  rw [toNetwork, hcheck]
  rfl

end Check

/-- Numbering decisions and working out look-ahead sets leaves the graph as it is. -/
theorem Graph.toNetwork_ok {g : Graph} {maxType : TokenType} {n : Network}
    (h : g.toNetwork maxType = .ok n) :
    n.toGraph = { g with maxType } ∧
      ∀ id : Nat, id < n.states.size → n.next id = n.toGraph.lookInRule id := by
  unfold Graph.toNetwork at h
  cases hcheck : Graph.check { g with maxType } with
  | error d => simp [hcheck, bind, Except.bind] at h
  | ok u =>
    simp only [hcheck, bind, Except.bind, pure, Except.pure, Except.ok.injEq] at h
    subst h
    refine ⟨rfl, fun id hid => ?_⟩
    have hid : id < g.states.size := hid
    simp [Network.next, hid]

theorem Network.Runs.next_eq {n : Network} {v : Vocabulary} {rules : List Rule}
    (hruns : n.Runs v rules) : ∀ id : Nat, id < n.states.size →
    n.next id = n.toGraph.lookInRule id :=
  (Graph.toNetwork_ok hruns.checked).2

theorem networkOfRules_ok {rules : List Rule} {v : Vocabulary} {n : Network}
    (h : networkOfRules rules v = .ok n) :
    RulesLaid n.toGraph v rules ∧ n.maxType = v.maxType ∧
      n.toGraph.toNetwork n.maxType = .ok n := by
  unfold networkOfRules at h
  cases hwire : wireRules rules v with
  | error d => simp [hwire, bind, Except.bind] at h
  | ok g =>
    cases hnet : g.toNetwork v.maxType with
    | error d => simp [hwire, hnet, bind, Except.bind, Except.mapError] at h
    | ok n' =>
      obtain rfl : n' = n := by simpa [hwire, hnet, bind, Except.bind, Except.mapError] using h
      obtain ⟨hgraph, _⟩ := Graph.toNetwork_ok hnet
      refine ⟨?_, by rw [hgraph], ?_⟩
      · rw [hgraph]
        exact rulesLaid_wireRules hwire v.maxType
      · rw [hgraph]
        exact hnet

/-- The network of a definition that builds runs the rules of the definition. -/
theorem Definition.runs_of_build {d : Definition} {g : Grammar} (h : d.build = .ok g) :
    ∃ rules, d.operatorRules = .ok rules ∧ rules ≠ [] ∧ g.network.Runs g.vocabulary rules := by
  simp only [Definition.build, bind, Except.bind, pure, Except.pure] at h
  split at h
  · cases h
  split at h
  · cases h
  rename_i hsome
  split at h
  · cases h
  split at h
  · cases h
  rename_i rules hrules
  split at h
  · cases h
  rename_i hprogress
  split at h
  · cases h
  rename_i n hnet
  cases h
  obtain ⟨hcycle, hclosure⟩ : leftCycle? rules = none ∧ emptyClosure? rules = none := by
    unfold checkProgress at hprogress
    split at hprogress
    · cases hprogress
    · cases hprogress
    · exact ⟨‹_›, ‹_›⟩
  obtain ⟨hlaid, hmax, hchecked⟩ := networkOfRules_ok hnet
  refine ⟨rules, hrules, ?_, Definition.nodup_operatorRules hrules, hcycle, hclosure, hlaid, hmax,
    hchecked, Merged.spellsTokens_vocabulary _⟩
  rintro rfl
  have hnames := congrArg List.length (names_withOperators hrules)
  simp only [List.map_nil, List.length_nil, List.length_map] at hnames
  rw [List.eq_nil_of_length_eq_zero hnames.symm] at hsome
  exact hsome rfl

end AdaptiveLL
