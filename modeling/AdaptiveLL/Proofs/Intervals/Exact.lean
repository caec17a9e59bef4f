/-
What the intervals of a type set say of its members.

Where the intervals ascend and do not touch, the members can be listed in ascending
order, counted, and found by halving, and no other set with such intervals has the
same members.  The count is right as long as a half word holds the count of each
interval.
-/
import AdaptiveLL.Proofs.Intervals
import Mathlib.Algebra.Order.Group.Int
import Mathlib.Data.Int.Interval
import Mathlib.Data.Set.Card
import Mathlib.Order.Bounds.Basic
import Mathlib.Tactic.ByContra

namespace AdaptiveLL

namespace Interval

variable {i j : Interval} {t : TokenType}

def below (i j : Interval) : Bool :=
  i.hi < j.lo

theorem members_eq (i : Interval) :
    i.members = (List.range i.count).map fun (k : Nat) => i.lo + (k : Int) := by
  rw [members, lowest, Nat.min_self]

theorem length_members (i : Interval) : i.members.length = i.count := by
  rw [members_eq, List.length_map, List.length_range]

theorem size_eq (hproper : i.lo ≤ i.hi) (hfits : i.hi - i.lo + 1 < Word.halfBound) :
    i.size = i.count := by
  have hpos : 0 ≤ i.hi - i.lo + 1 := by
    rw [← Int.sub_nonneg] at hproper
    exact Int.le_add_one hproper
  have hlow : -Word.halfBound ≤ i.hi - i.lo + 1 := Int.le_trans (by decide) hpos
  have hword : i.hi - i.lo + 1 < Word.bound := Int.lt_trans hfits (by decide)
  rw [size, Word.wrapHalf_of_lt hlow hfits, Word.ofHalf_of_nonneg hpos hword, count]

theorem mem_members : t ∈ i.members ↔ i.contains t = true := by
  rw [members_eq, List.mem_map, contains_iff]
  constructor
  · rintro ⟨k, hk, rfl⟩
    have hk' : k < (i.hi - i.lo + 1).toNat := List.mem_range.mp hk
    grind
  · rintro ⟨hlo, hhi⟩
    have hk : (t - i.lo).toNat < (i.hi - i.lo + 1).toNat := by grind
    refine ⟨(t - i.lo).toNat, List.mem_range.mpr hk, ?_⟩
    rw [Int.toNat_of_nonneg (Int.sub_nonneg_of_le hlo)]
    exact add_sub_cancel i.lo t

theorem pairwise_members (i : Interval) : i.members.Pairwise (· < ·) := by
  rw [members_eq]
  exact List.pairwise_map.mpr (List.pairwise_lt_range.imp fun hlt =>
    Int.add_lt_add_left (Int.ofNat_lt.mpr hlt) i.lo)

/-- What remains of an interval lies in it. -/
theorem within_of_mem_without (h : j ∈ i.without t) : i.lo ≤ j.lo ∧ j.hi ≤ i.hi := by
  unfold without at h
  grind [contains_iff]

theorem le_of_mem_without (hi : i.lo ≤ i.hi) (h : j ∈ i.without t) : j.lo ≤ j.hi := by
  unfold without at h
  grind [contains_iff]

/-- The type that was taken away is missing between the pieces. -/
theorem pairwise_without (i : Interval) (t : TokenType) : (i.without t).Pairwise Apart := by
  unfold without
  split
  · split <;> split <;> simp [Apart]
  · exact List.pairwise_singleton _ _

end Interval

namespace TypeSet

variable {s s' : TypeSet} {t : TokenType}

theorem Canonical.erase (h : s.Canonical) (t : TokenType) : (s.erase t).Canonical := by
  refine ⟨fun j hj => ?_, List.pairwise_flatMap.mpr ⟨fun i _ => i.pairwise_without t, ?_⟩⟩
  · obtain ⟨i, hi, hj⟩ := List.mem_flatMap.mp hj
    exact Interval.le_of_mem_without (h.proper i hi) hj
  · refine h.apart.imp fun {i i'} hapart j hj j' hj' => ?_
    have hup : j.hi ≤ i.hi := (Interval.within_of_mem_without hj).2
    have hlow : i'.lo ≤ j'.lo := (Interval.within_of_mem_without hj').1
    unfold Interval.Apart at hapart ⊢
    grind

theorem Canonical.ofList (ts : List TokenType) : (ofList ts).Canonical := by
  have grow (s : TypeSet) (hs : s.Canonical) : (ts.foldl TypeSet.add s).Canonical := by
    induction ts generalizing s with
    | nil => exact hs
    | cons t ts ih => exact ih _ (hs.addRange t t)
  exact grow empty canonical_empty

/-- The ends of the intervals are members. -/
theorem Canonical.contains_ends (h : s.Canonical) {i : Interval}
    (hi : i ∈ s.intervals) : s.contains i.lo = true ∧ s.contains i.hi = true := by
  have hproper : i.lo ≤ i.hi := h.proper i hi
  exact ⟨List.any_eq_true.mpr ⟨i, hi, Interval.contains_iff.mpr ⟨Int.le_refl _, hproper⟩⟩,
    List.any_eq_true.mpr ⟨i, hi, Interval.contains_iff.mpr ⟨hproper, Int.le_refl _⟩⟩⟩

section Listing

theorem mem_toList : t ∈ s.toList ↔ s.contains t = true := by
  simp only [toList, List.mem_flatMap, Interval.mem_members, contains, List.any_eq_true]

/-- The members of one interval come before those of the next one. -/
theorem Canonical.pairwise_toList (h : s.Canonical) : s.toList.Pairwise (· < ·) := by
  refine List.pairwise_flatMap.mpr ⟨fun i _ => i.pairwise_members, ?_⟩
  refine h.apart.imp fun {i j} hapart t ht u hu => ?_
  have hti : t ≤ i.hi := (Interval.contains_iff.mp (Interval.mem_members.mp ht)).2
  have hju : j.lo ≤ u := (Interval.contains_iff.mp (Interval.mem_members.mp hu)).1
  unfold Interval.Apart at hapart
  grind

/-- Where every interval and the whole are counted right, the sum does not wrap
around. -/
theorem foldl_add_size {is : List Interval} (hsize : ∀ i ∈ is, i.size = i.members.length)
    {total : Nat} (hbound : total + (is.flatMap Interval.members).length < Word.bound) :
    is.foldl (fun total i => Word.add total i.size) total =
      total + (is.flatMap Interval.members).length := by
  induction is generalizing total with
  | nil => rfl
  | cons i is ih =>
    obtain ⟨hi, his⟩ := List.forall_mem_cons.mp hsize
    rw [List.flatMap_cons, List.length_append, ← Nat.add_assoc] at hbound ⊢
    have hadd : Word.add total i.size = total + i.members.length := by
      rw [hi]
      exact Word.add_of_lt (by omega)
    rw [List.foldl_cons, hadd]
    exact ih his hbound

/-- Among so many types in a row there are not more members. -/
theorem Canonical.length_toList_le (h : s.Canonical) {bottom : Int} {width : Nat}
    (hbounds : ∀ t : Int, s.contains t = true → bottom ≤ t ∧ t < bottom + width) :
    s.toList.length ≤ width := by
  have hnodup : s.toList.Nodup := h.pairwise_toList.imp fun hlt => Int.ne_of_lt hlt
  have hcard := Int.card_Ico bottom (bottom + width)
  rw [add_sub_cancel_left, Int.toNat_natCast] at hcard
  rw [← List.toFinset_card_of_nodup hnodup, ← hcard]
  refine Finset.card_le_card fun t ht => ?_
  exact Finset.mem_Ico.mpr (hbounds t (mem_toList.mp (List.mem_toFinset.mp ht)))

theorem Canonical.size_eq (h : s.Canonical)
    (hfits : ∀ t u, s.contains t = true → s.contains u = true → u - t + 1 < Word.halfBound) :
    s.size = s.toList.length := by
  have hsize (i : Interval) (hi : i ∈ s.intervals) : i.size = i.members.length := by
    obtain ⟨hlo, hhi⟩ := h.contains_ends hi
    rw [Interval.length_members]
    exact Interval.size_eq (h.proper i hi) (hfits _ _ hlo hhi)
  have hbound : s.toList.length < Word.bound := by
    cases hmin : s.min? with
    | none =>
      have hnil : s.toList = [] := List.eq_nil_iff_forall_not_mem.mpr fun t ht => by
        rw [mem_toList, not_contains_of_min? hmin] at ht
        cases ht
      rw [hnil]
      decide
    | some bottom =>
      obtain ⟨hmem, hleast⟩ := h.min?_eq_some hmin
      have hrange (t : Int) (ht : s.contains t = true) :
          bottom ≤ t ∧ t < bottom + (2 ^ 31 : Nat) := by
        have hlt : t - bottom + 1 < 2 ^ 31 := hfits bottom t hmem ht
        exact ⟨hleast t ht, by omega⟩
      exact Nat.lt_of_le_of_lt (h.length_toList_le hrange) (by decide)
  have hsum : s.size = 0 + s.toList.length := foldl_add_size hsize (by rwa [Nat.zero_add])
  rwa [Nat.zero_add] at hsum

end Listing

section Extensionality

variable {i : Interval} {rest : List Interval}

theorem Canonical.tail (h : Canonical ⟨i :: rest⟩) : Canonical ⟨rest⟩ :=
  ⟨(List.forall_mem_cons.mp h.proper).2, (List.pairwise_cons.mp h.apart).2⟩

/-- What lies in the other intervals lies above the first one, and not next to it. -/
theorem Canonical.lt_of_contains_tail (h : Canonical ⟨i :: rest⟩)
    (ht : contains ⟨rest⟩ t = true) : i.hi + 1 < t := by
  obtain ⟨j, hj, hjt⟩ := List.any_eq_true.mp ht
  have hij : i.hi + 1 < j.lo := (List.pairwise_cons.mp h.apart).1 j hj
  have hlo : j.lo ≤ t := (Interval.contains_iff.mp hjt).1
  grind

theorem contains_cons : contains ⟨i :: rest⟩ t = true ↔
    (i.lo ≤ t ∧ t ≤ i.hi) ∨ contains ⟨rest⟩ t = true := by
  rw [contains, List.any_cons, Bool.or_eq_true, Interval.contains_iff]
  rfl

theorem Canonical.contains_tail (h : Canonical ⟨i :: rest⟩) :
    contains ⟨rest⟩ t = true ↔ contains ⟨i :: rest⟩ t = true ∧ i.hi < t := by
  rw [contains_cons]
  constructor
  · intro ht
    have hlt := h.lt_of_contains_tail ht
    exact ⟨.inr ht, by grind⟩
  · rintro ⟨hi | ht, hlt⟩
    · grind
    · exact ht

/-- The first interval goes up to the first type that is missing. -/
theorem Canonical.hi_le (h : Canonical ⟨i :: rest⟩) {j : Interval} (hlo : i.lo = j.lo)
    (hj : ∀ t, j.lo ≤ t → t ≤ j.hi → contains ⟨i :: rest⟩ t = true) : j.hi ≤ i.hi := by
  by_contra hlt
  have hproper : i.lo ≤ i.hi := h.proper i List.mem_cons_self
  have hnext : contains ⟨i :: rest⟩ (i.hi + 1) = true := hj (i.hi + 1) (by grind) (by grind)
  rcases contains_cons.mp hnext with hin | htail
  · grind
  · exact absurd (h.lt_of_contains_tail htail) (Int.lt_irrefl _)

theorem Canonical.min?_eq_some_iff (h : s.Canonical) :
    s.min? = some t ↔ s.contains t = true ∧ ∀ u, s.contains u = true → t ≤ u := by
  refine ⟨h.min?_eq_some, fun ⟨ht, hle⟩ => ?_⟩
  cases hmin : s.min? with
  | none => rw [not_contains_of_min? hmin t] at ht; cases ht
  | some u =>
    obtain ⟨hu, hleast⟩ := h.min?_eq_some hmin
    exact congrArg some (Int.le_antisymm (hleast t ht) (hle u hu))

theorem min?_congr (h : s.Canonical) (h' : s'.Canonical)
    (hsame : ∀ t, s.contains t = true ↔ s'.contains t = true) : s.min? = s'.min? := by
  refine Option.ext fun t => ?_
  simp only [h.min?_eq_some_iff, h'.min?_eq_some_iff, hsame]

/-- The members say what the intervals are. -/
theorem Canonical.ext (h : s.Canonical) (h' : s'.Canonical)
    (hsame : ∀ t, s.contains t = true ↔ s'.contains t = true) : s = s' := by
  obtain ⟨is⟩ := s
  obtain ⟨js⟩ := s'
  induction is generalizing js with
  | nil =>
    have hmin : min? ⟨js⟩ = none := (min?_congr h h' hsame).symm
    cases js with
    | nil => rfl
    | cons => cases hmin
  | cons i rest ih =>
    have hmin : min? ⟨js⟩ = some i.lo := (min?_congr h h' hsame).symm
    cases js with
    | nil => cases hmin
    | cons j rest' =>
      have hlo : j.lo = i.lo := Option.some.inj hmin
      have hup : j.hi ≤ i.hi := h.hi_le hlo.symm fun t hlow hhigh =>
        (hsame t).mpr (contains_cons.mpr (.inl ⟨hlow, hhigh⟩))
      have hdown : i.hi ≤ j.hi := h'.hi_le hlo fun t hlow hhigh =>
        (hsame t).mp (contains_cons.mpr (.inl ⟨hlow, hhigh⟩))
      have hhi : j.hi = i.hi := Int.le_antisymm hup hdown
      have hrest : (⟨rest⟩ : TypeSet) = ⟨rest'⟩ := ih h.tail rest' h'.tail fun t => by
        rw [h.contains_tail, h'.contains_tail, hsame t, hhi]
      obtain ⟨lo, hi⟩ := i
      obtain ⟨lo', hi'⟩ := j
      obtain rfl : lo' = lo := hlo
      obtain rfl : hi' = hi := hhi
      obtain rfl := TypeSet.mk.inj hrest
      rfl

end Extensionality

section Search

variable {is : Array Interval} {m k : Nat}

/-- Whether a type is in the set, found by halving the intervals that are left. -/
def search (s : TypeSet) (t : TokenType) : Bool :=
  s.intervals.toArray.binSearchContains ⟨t, t⟩ Interval.below

/-- The ends of the intervals ascend. -/
theorem Canonical.ascends (h : Canonical ⟨is.toList⟩) (hmk : m ≤ k) (hk : k < is.size) :
    is[m].lo ≤ is[k].lo ∧ is[m].hi ≤ is[k].hi := by
  rcases Nat.lt_or_eq_of_le hmk with hlt | rfl
  · have hapart : is[m].hi + 1 < is[k].lo :=
      List.pairwise_iff_getElem.mp h.apart m k (Nat.lt_trans hlt hk) hk hlt
    have hm : is[m].lo ≤ is[m].hi := h.proper _ (Array.getElem_mem_toList _)
    have hk' : is[k].lo ≤ is[k].hi := h.proper _ (Array.getElem_mem_toList _)
    grind
  · exact ⟨Int.le_refl _, Int.le_refl _⟩

/-- An interval that lies below the type is not behind one that holds it. -/
theorem Canonical.lt_of_below (h : Canonical ⟨is.toList⟩) (hm : m < is.size) (hk : k < is.size)
    (hbelow : is[m].below ⟨t, t⟩ = true) (ht : is[k].contains t = true) : m < k := by
  by_contra hkm
  have hends := (h.ascends (Nat.le_of_not_lt hkm) hm).2
  have hlt : is[m].hi < t := of_decide_eq_true hbelow
  have hle : t ≤ is[k].hi := (Interval.contains_iff.mp ht).2
  grind

theorem Canonical.lt_of_above (h : Canonical ⟨is.toList⟩) (hm : m < is.size) (hk : k < is.size)
    (habove : (⟨t, t⟩ : Interval).below is[m] = true) (ht : is[k].contains t = true) : k < m := by
  by_contra hmk
  have hends := (h.ascends (Nat.le_of_not_lt hmk) hk).1
  have hlt : t < is[m].lo := of_decide_eq_true habove
  have hle : is[k].lo ≤ t := (Interval.contains_iff.mp ht).1
  grind

/-- Halving finds an interval that holds the type if there is one, since none is on
the side that is given up. -/
theorem Canonical.binSearch_iff (h : Canonical ⟨is.toList⟩) (t : TokenType)
    (lo : Fin (is.size + 1)) (hi : Fin is.size) (hle : lo.1 ≤ hi.1) :
    Array.binSearchAux Interval.below Option.isSome is ⟨t, t⟩ lo hi hle = true ↔
      ∃ (k : Nat) (hk : k < is.size), lo.1 ≤ k ∧ k ≤ hi.1 ∧ is[k].contains t = true := by
  fun_induction Array.binSearchAux Interval.below Option.isSome is ⟨t, t⟩ lo hi hle with
  | case1 lo hi hle m i hbelow hmore _ ih =>
    rw [ih]
    constructor
    · rintro ⟨k, hk, hlow, hrest⟩
      exact ⟨k, hk, by grind, hrest⟩
    · rintro ⟨k, hk, hlow, hhigh, ht⟩
      exact ⟨k, hk, h.lt_of_below (by omega) hk hbelow ht, hhigh, ht⟩
  | case2 lo hi hle m i hbelow hdone =>
    refine ⟨nofun, ?_⟩
    rintro ⟨k, hk, hlow, hhigh, ht⟩
    have hmk : m < k := h.lt_of_below (by omega) hk hbelow ht
    exact absurd (Nat.le_trans hmk hhigh) hdone
  | case3 lo hi hle m i _ habove hdone =>
    refine ⟨nofun, ?_⟩
    rintro ⟨k, hk, hlow, hhigh, ht⟩
    have hkm : k < m := h.lt_of_above (by omega) hk habove ht
    omega
  | case4 lo hi hle m i _ habove hmore _ ih =>
    rw [ih]
    constructor
    · rintro ⟨k, hk, hlow, hhigh, ht⟩
      exact ⟨k, hk, hlow, by grind, ht⟩
    · rintro ⟨k, hk, hlow, hhigh, ht⟩
      have hkm : k < m := h.lt_of_above (by omega) hk habove ht
      exact ⟨k, hk, hlow, Nat.le_sub_one_of_lt hkm, ht⟩
  | case5 lo hi hle m i hbelow habove =>
    refine ⟨fun _ => ⟨m, by omega, by omega, by omega, Interval.contains_iff.mpr ⟨?_, ?_⟩⟩,
      fun _ => rfl⟩
    · exact Int.not_lt.mp fun hlt => habove (decide_eq_true hlt)
    · exact Int.not_lt.mp fun hlt => hbelow (decide_eq_true hlt)

theorem Canonical.search_eq (h : s.Canonical) (t : TokenType) : s.search t = s.contains t := by
  obtain ⟨is⟩ := s
  have hcontains : contains ⟨is⟩ t = true ↔
      ∃ (k : Nat) (hk : k < is.toArray.size), is.toArray[k].contains t = true := by
    rw [contains, List.any_eq_true]
    constructor
    · rintro ⟨i, hi, ht⟩
      obtain ⟨k, hk, rfl⟩ := List.mem_iff_getElem.mp hi
      exact ⟨k, hk, ht⟩
    · rintro ⟨k, hk, ht⟩
      exact ⟨_, List.getElem_mem hk, ht⟩
  rw [Bool.eq_iff_iff, hcontains, search, Array.binSearchContains]
  split
  · rename_i hpos
    dsimp only
    rw [dif_pos (by omega), h.binSearch_iff]
    constructor
    · rintro ⟨k, hk, -, -, ht⟩
      exact ⟨k, hk, ht⟩
    · rintro ⟨k, hk, ht⟩
      refine ⟨k, hk, Nat.zero_le k, ?_, ht⟩
      dsimp only
      split <;> omega
  · rename_i hempty
    refine iff_of_false Bool.false_ne_true ?_
    rintro ⟨k, hk, -⟩
    exact absurd (Nat.zero_lt_of_lt hk) hempty

end Search

section Meaning

/-- The set stands for a set of types, and its functions answer for that set. -/
structure Represents (s : TypeSet) (types : Set TokenType) : Prop where
  canonical : s.Canonical
  contains_iff : ∀ t, s.contains t = true ↔ t ∈ types
  search_iff : ∀ t, s.search t = true ↔ t ∈ types
  ascending : s.toList.Pairwise (· < ·)
  mem_toList : ∀ t, t ∈ s.toList ↔ t ∈ types
  finite : types.Finite
  size_eq : (∀ t ∈ types, ∀ u ∈ types, u - t + 1 < Word.halfBound) → s.size = types.ncard
  min?_eq_some_iff : ∀ t, s.min? = some t ↔ IsLeast types t

theorem Canonical.represents (h : s.Canonical) {types : Set TokenType}
    (hmem : ∀ t, s.contains t = true ↔ t ∈ types) : s.Represents types := by
  have hlist (t : TokenType) : t ∈ s.toList ↔ t ∈ types := TypeSet.mem_toList.trans (hmem t)
  have htypes : types = ↑s.toList.toFinset := by
    ext t
    rw [Finset.mem_coe, List.mem_toFinset, hlist]
  refine ⟨h, hmem, fun t => h.search_eq t ▸ hmem t, h.pairwise_toList, hlist, ?_, fun hfits => ?_,
    fun t => ?_⟩
  · rw [htypes]
    exact Finset.finite_toSet _
  · have hnodup : s.toList.Nodup := h.pairwise_toList.imp fun hlt => Int.ne_of_lt hlt
    rw [h.size_eq fun t u ht hu => hfits t ((hmem t).mp ht) u ((hmem u).mp hu), htypes,
      Set.ncard_coe_finset, List.toFinset_card_of_nodup hnodup]
  · rw [h.min?_eq_some_iff, hmem]
    exact and_congr_right fun _ => forall_congr' fun u => by rw [hmem]

end Meaning

end TypeSet

end AdaptiveLL
