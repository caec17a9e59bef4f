/-
What the checks on rules establish.

The nullable rules are a fixed point: a rule whose body is nullable under them is one
of them.  Where the search for a cycle of left calls finds none, every chain of left
calls comes to an end.
-/
import AdaptiveLL.Grammar
import Mathlib.Data.List.Nodup
import Mathlib.Data.List.Infix
import Mathlib.Data.List.Perm.Subperm

namespace AdaptiveLL

section Nullable

variable {rules : List Rule} {nullable : List String}

/-- The names found in the first rounds of the search for nullable rules. -/
def nullableIn (rules : List Rule) (rounds : Nat) : List String :=
  rounds.fold (fun _ _ acc => growNullable rules acc) []

theorem nullableIn_succ (rounds : Nat) :
    nullableIn rules (rounds + 1) = growNullable rules (nullableIn rules rounds) := by
  rw [nullableIn, Nat.fold_succ]
  rfl

theorem suffix_growNullable (rules : List Rule) (nullable : List String) :
    nullable <:+ growNullable rules nullable := by
  unfold growNullable
  induction rules generalizing nullable with
  | nil => exact List.suffix_rfl
  | cons r rest ih =>
    rw [List.foldl_cons]
    split
    · exact (List.suffix_cons r.name nullable).trans (ih _)
    · exact ih _

theorem nodup_growNullable (hnodup : nullable.Nodup) : (growNullable rules nullable).Nodup := by
  unfold growNullable
  induction rules generalizing nullable with
  | nil => exact hnodup
  | cons r rest ih =>
    rw [List.foldl_cons]
    split
    · rename_i hnew
      simp only [Bool.and_eq_true, Bool.not_eq_true', List.contains_eq_mem, decide_eq_false_iff_not]
        at hnew
      exact ih (List.nodup_cons.mpr ⟨hnew.1, hnodup⟩)
    · exact ih hnodup

theorem growNullable_subset : growNullable rules nullable ⊆ rules.map Rule.name ++ nullable := by
  unfold growNullable
  induction rules generalizing nullable with
  | nil => exact fun _ hx => hx
  | cons r rest ih =>
    rw [List.foldl_cons]
    intro x hx
    split at hx
    · have hrest := ih hx
      simp only [List.mem_append, List.mem_cons, List.map_cons] at hrest ⊢
      tauto
    · have hrest := ih hx
      simp only [List.mem_append, List.mem_cons, List.map_cons] at hrest ⊢
      tauto

/-- A round that adds nothing has found no rule that is missing. -/
theorem mem_of_growNullable_eq (hsame : growNullable rules nullable = nullable) {r : Rule}
    (hr : r ∈ rules) (hbody : r.body.isNullable nullable = true) : r.name ∈ nullable := by
  unfold growNullable at hsame
  induction rules with
  | nil => cases hr
  | cons s rest ih =>
    rw [List.foldl_cons] at hsame
    split at hsame
    · have hlonger := (suffix_growNullable rest (s.name :: nullable)).length_le
      rw [growNullable, hsame, List.length_cons] at hlonger
      omega
    · rename_i hold
      rcases List.mem_cons.mp hr with rfl | hr
      · simpa [hbody] using hold
      · exact ih hsame hr

theorem nodup_nullableIn (rules : List Rule) (rounds : Nat) : (nullableIn rules rounds).Nodup := by
  induction rounds with
  | zero => exact List.nodup_nil
  | succ rounds ih =>
    rw [nullableIn_succ]
    exact nodup_growNullable ih

theorem nullableIn_subset (rounds : Nat) : nullableIn rules rounds ⊆ rules.map Rule.name := by
  induction rounds with
  | zero => exact List.nil_subset _
  | succ rounds ih =>
    rw [nullableIn_succ]
    intro x hx
    rcases List.mem_append.mp (growNullable_subset hx) with hx | hx
    · exact hx
    · exact ih hx

theorem stable_or_length_nullableIn (rules : List Rule) (rounds : Nat) :
    growNullable rules (nullableIn rules rounds) = nullableIn rules rounds ∨
      rounds < (growNullable rules (nullableIn rules rounds)).length := by
  have hgrows (n : Nat) : growNullable rules (nullableIn rules n) = nullableIn rules n ∨
      (nullableIn rules n).length < (growNullable rules (nullableIn rules n)).length := by
    have hsuffix := suffix_growNullable rules (nullableIn rules n)
    rcases Nat.lt_or_eq_of_le hsuffix.length_le with hlt | heq
    · exact .inr hlt
    · exact .inl (hsuffix.eq_of_length heq).symm
  induction rounds with
  | zero =>
    rcases hgrows 0 with hsame | hlt
    · exact .inl hsame
    · exact .inr (Nat.zero_lt_of_lt hlt)
  | succ rounds ih =>
    rcases hgrows (rounds + 1) with hsame | hlt
    · exact .inl hsame
    · rcases ih with hstable | hlength
      · rw [nullableIn_succ, hstable, hstable]
        exact .inl rfl
      · rw [← nullableIn_succ] at hlength
        exact .inr (by omega)

/-- A rule whose body is nullable is one of the nullable rules. -/
theorem mem_nullableRules {r : Rule} (hr : r ∈ rules)
    (hbody : r.body.isNullable (nullableRules rules) = true) : r.name ∈ nullableRules rules := by
  have hlast : nullableRules rules = nullableIn rules rules.length := rfl
  rw [hlast] at hbody ⊢
  rcases stable_or_length_nullableIn rules rules.length with hstable | hlength
  · exact mem_of_growNullable_eq hstable hr hbody
  · rw [← nullableIn_succ] at hlength
    have hsub := List.subperm_of_subset (nodup_nullableIn rules (rules.length + 1))
      (nullableIn_subset _)
    have hle := hsub.length_le
    rw [List.length_map] at hle
    omega

end Nullable

section LoopBody

variable {rules : List Rule}

/-- Where no empty closure was found, every loop body has to read something. -/
theorem isNullable_loopBody_eq_false (hnone : emptyClosure? rules = none) {r : Rule}
    (hr : r ∈ rules) {e body : Expr} (he : e ∈ r.body.subterms) (hbody : e.loopBody? = some body) :
    body.isNullable (nullableRules rules) = false := by
  have hfind := List.find?_eq_none.mp (Option.map_eq_none_iff.mp hnone) r hr
  simp only [List.any_eq_true, not_exists, not_and] at hfind
  simpa [hbody] using hfind e he

end LoopBody

section LeftCall

/-- Every chain of left calls from these rules comes to an end. -/
def AllEnd (callees : String → List String) (names : List String) : Prop :=
  ∀ name ∈ names, Acc (fun b a => b ∈ callees a) name

/-- A search that goes through several names in turn goes through each. -/
theorem foldlM_ok {P : List String → Prop}
    {f : List String → String → Except (List String) (List String)}
    {names done done' : List String}
    (hstep : ∀ name ∈ names, ∀ done done', P done → f done name = .ok done' →
      P done' ∧ done ⊆ done' ∧ name ∈ done')
    (hdone : P done) (hrun : names.foldlM f done = .ok done') :
    P done' ∧ done ⊆ done' ∧ names ⊆ done' := by
  induction names generalizing done with
  | nil =>
    cases hrun
    exact ⟨hdone, List.Subset.refl _, List.nil_subset _⟩
  | cons name names ih =>
    rw [List.foldlM_cons] at hrun
    cases hfirst : f done name with
    | error cycle => simp [hfirst, bind, Except.bind] at hrun
    | ok found =>
      rw [hfirst] at hrun
      obtain ⟨hP, hsub, hmem⟩ := hstep name List.mem_cons_self done found hdone hfirst
      obtain ⟨hP', hsub', hmem'⟩ :=
        ih (fun n hn => hstep n (List.mem_cons_of_mem _ hn)) hP hrun
      exact ⟨hP', List.Subset.trans hsub hsub', List.cons_subset.mpr ⟨hsub' hmem, hmem'⟩⟩

/-- Nothing that a search has done starts an endless chain of left calls. -/
theorem searchCycle_ok {callees : String → List String} {names : List String}
    (hcallees : ∀ a, callees a ⊆ names) {depth : Nat} {path done done' : List String}
    {name : String}
    (hnodup : path.Nodup) (hpath : path ⊆ names) (hname : name ∈ names)
    (hdepth : names.length < depth + path.length) (hdone : AllEnd callees done)
    (hrun : searchCycle callees depth path done name = .ok done') :
    AllEnd callees done' ∧ done ⊆ done' ∧ name ∈ done' := by
  induction depth generalizing path done done' name with
  | zero =>
    have hlength := (List.subperm_of_subset hnodup hpath).length_le
    omega
  | succ depth ih =>
    rw [searchCycle] at hrun
    split at hrun
    · cases hrun
    · rename_i hnew
      split at hrun
      · rename_i hold
        cases hrun
        exact ⟨hdone, List.Subset.refl _, by simpa using hold⟩
      · cases hfold : (callees name).foldlM (searchCycle callees depth (name :: path)) done with
        | error cycle => simp [hfold, bind, Except.bind] at hrun
        | ok found =>
          obtain rfl : name :: found = done' := by
            simpa [hfold, bind, Except.bind, pure, Except.pure] using hrun
          have hnodup' : (name :: path).Nodup :=
            List.nodup_cons.mpr ⟨by simpa using hnew, hnodup⟩
          obtain ⟨hends, hsub, hall⟩ := foldlM_ok (P := AllEnd callees)
            (fun callee hcallee _ _ hd hr => ih hnodup' (List.cons_subset.mpr ⟨hname, hpath⟩)
              (hcallees name hcallee) (by rw [List.length_cons]; omega) hd hr) hdone hfold
          refine ⟨?_, List.Subset.trans hsub (List.subset_cons_self _ _), List.mem_cons_self⟩
          intro x hx
          rcases List.mem_cons.mp hx with rfl | hx
          · exact ⟨_, fun b hb => hends b (hall hb)⟩
          · exact hends x hx

theorem leftCallees_subset {rules : List Rule} {nullable : List String} (name : String) :
    leftCallees rules nullable name ⊆ rules.map Rule.name := by
  intro callee hcallee
  unfold leftCallees at hcallee
  split at hcallee
  · cases hcallee
  · simpa using (List.mem_filter.mp hcallee).2

/-- Where no cycle of left calls was found, there is no endless chain of them. -/
theorem allEnd_of_leftCycle?_eq_none {rules : List Rule} (hnone : leftCycle? rules = none) :
    AllEnd (leftCallees rules (nullableRules rules)) (rules.map Rule.name) := by
  unfold leftCycle? at hnone
  simp only at hnone
  split at hnone
  · rename_i done hsearch
    rw [← List.foldlM_map] at hsearch
    obtain ⟨hends, _, hall⟩ := foldlM_ok
      (P := AllEnd (leftCallees rules (nullableRules rules)))
      (fun name hname _ _ hd hr => searchCycle_ok leftCallees_subset List.nodup_nil
        (List.nil_subset _) hname (by simp) hd hr) (by intro _ h; cases h) hsearch
    exact fun name hname => hends name (hall hname)
  · cases hnone

end LeftCall

end AdaptiveLL
