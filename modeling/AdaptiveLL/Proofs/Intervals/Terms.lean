/-
A type set is a finite set of types, however it was built.

Every operation keeps the intervals ascending and apart and has the members that it
should have.  A set with the one representation of its members answers for them: it
finds and lists them and knows the lowest one, and counts them as far as a half word
does.  It makes no difference whether there are numbers above those that are used.
-/
import AdaptiveLL.Proofs.Intervals.Exact

namespace AdaptiveLL

namespace TypeSet

section Saturating

variable {top : TokenType} {s : TypeSet}

/-- Insertion where there is no number above `top`, so that `top` is its own
successor. -/
def insertUpTo (top : TokenType) (new : Interval) : List Interval → List Interval
  | [] => [new]
  | i :: rest =>
    if min (i.hi + 1) top < new.lo then i :: insertUpTo top new rest
    else if min (new.hi + 1) top < i.lo then new :: i :: rest
    else insertUpTo top ⟨min new.lo i.lo, max new.hi i.hi⟩ rest

/-- Add all types from `lo` to `hi` where there is no number above `top`. -/
def addRangeUpTo (top : TokenType) (s : TypeSet) (lo hi : TokenType) : TypeSet :=
  if hi < lo then s else ⟨insertUpTo top ⟨lo, hi⟩ s.intervals⟩

/-- What begins at `top` or below lies behind a successor if and only if it does so
without a highest number. -/
theorem min_succ_lt_iff {t u : TokenType} (hu : u ≤ top) : min (t + 1) top < u ↔ t + 1 < u := by
  grind

theorem insertUpTo_eq {new : Interval} {is : List Interval} (hnew : new.lo ≤ top)
    (his : ∀ i ∈ is, i.lo ≤ top) : insertUpTo top new is = insertInterval new is := by
  induction is generalizing new with
  | nil => rfl
  | cons i rest ih =>
    obtain ⟨hi, hrest⟩ := List.forall_mem_cons.mp his
    have hjoined : (⟨min new.lo i.lo, max new.hi i.hi⟩ : Interval).lo ≤ top :=
      Int.le_trans (Int.min_le_left _ _) hnew
    simp only [insertUpTo, insertInterval, min_succ_lt_iff hnew, min_succ_lt_iff hi,
      ih hnew hrest, ih hjoined hrest]

theorem addRangeUpTo_eq {lo : TokenType} (hlo : lo ≤ top) (hs : ∀ i ∈ s.intervals, i.lo ≤ top)
    (hi : TokenType) : s.addRangeUpTo top lo hi = s.addRange lo hi := by
  rw [addRangeUpTo, addRange, insertUpTo_eq hlo hs]

theorem forall_lo_addRange {P : TokenType → Prop} {lo : TokenType} (hlo : P lo)
    (hs : ∀ i ∈ s.intervals, P i.lo) (hi : TokenType) :
    ∀ i ∈ (s.addRange lo hi).intervals, P i.lo := by
  unfold addRange
  split
  · exact hs
  · exact forall_lo_insertInterval hlo hs

theorem foldl_addRangeUpTo {is : List Interval} (his : ∀ i ∈ is, i.lo ≤ top)
    (hs : ∀ i ∈ s.intervals, i.lo ≤ top) :
    is.foldl (fun acc i => acc.addRangeUpTo top i.lo i.hi) s =
      is.foldl (fun acc i => acc.addRange i.lo i.hi) s := by
  induction is generalizing s with
  | nil => rfl
  | cons i rest ih =>
    obtain ⟨hi, hrest⟩ := List.forall_mem_cons.mp his
    rw [List.foldl_cons, List.foldl_cons, addRangeUpTo_eq hi hs]
    exact ih hrest (forall_lo_addRange (P := (· ≤ top)) hi hs i.hi)

end Saturating

end TypeSet

inductive SetTerm where
  | single (t : TokenType)
  | range (lo hi : TokenType)
  | ofList (ts : List TokenType)
  | add (s : SetTerm) (t : TokenType)
  | addRange (s : SetTerm) (lo hi : TokenType)
  | union (s other : SetTerm)
  | erase (s : SetTerm) (t : TokenType)

namespace SetTerm

def build : SetTerm → TypeSet
  | .single t => .single t
  | .range lo hi => .range lo hi
  | .ofList ts => .ofList ts
  | .add s t => s.build.add t
  | .addRange s lo hi => s.build.addRange lo hi
  | .union s other => s.build.union other.build
  | .erase s t => s.build.erase t

def types : SetTerm → Set TokenType
  | .single t => {t}
  | .range lo hi => {t | lo ≤ t ∧ t ≤ hi}
  | .ofList ts => {t | t ∈ ts}
  | .add s t => insert t s.types
  | .addRange s lo hi => s.types ∪ {t | lo ≤ t ∧ t ≤ hi}
  | .union s other => s.types ∪ other.types
  | .erase s t => s.types \ {t}

/-- The numbers that the set is built with. -/
def numbers : SetTerm → List TokenType
  | .single t => [t]
  | .range lo hi => [lo, hi]
  | .ofList ts => ts
  | .add s t => t :: s.numbers
  | .addRange s lo hi => lo :: hi :: s.numbers
  | .union s other => s.numbers ++ other.numbers
  | .erase s t => t :: s.numbers

/-- The set that is built where there is no number above `top`. -/
def buildUpTo (top : TokenType) : SetTerm → TypeSet
  | .single t => .addRangeUpTo top .empty t t
  | .range lo hi => .addRangeUpTo top .empty lo hi
  | .ofList ts => ts.foldl (fun s t => s.addRangeUpTo top t t) .empty
  | .add s t => (s.buildUpTo top).addRangeUpTo top t t
  | .addRange s lo hi => (s.buildUpTo top).addRangeUpTo top lo hi
  | .union s other =>
    (other.buildUpTo top).intervals.foldl (fun acc i => acc.addRangeUpTo top i.lo i.hi)
      (s.buildUpTo top)
  | .erase s t => (s.buildUpTo top).erase t

theorem canonical_build (a : SetTerm) : a.build.Canonical := by
  induction a with
  | single t => exact TypeSet.canonical_empty.addRange t t
  | range lo hi => exact TypeSet.canonical_empty.addRange lo hi
  | ofList ts => exact TypeSet.Canonical.ofList ts
  | add s t ih => exact ih.addRange t t
  | addRange s lo hi ih => exact ih.addRange lo hi
  | union s other ih _ => exact ih.union other.build
  | erase s t ih => exact ih.erase t

theorem contains_build (a : SetTerm) (t : TokenType) :
    a.build.contains t = true ↔ t ∈ a.types := by
  induction a with
  | single u => exact TypeSet.contains_single
  | range lo hi => exact TypeSet.contains_range
  | ofList ts => exact TypeSet.contains_ofList
  | add s u ih => exact TypeSet.contains_add.trans ((or_congr_left ih).trans or_comm)
  | addRange s lo hi ih => exact TypeSet.contains_addRange.trans (or_congr_left ih)
  | union s other ih ih' => exact TypeSet.contains_union.trans (or_congr ih ih')
  | erase s u ih => exact TypeSet.contains_erase.trans (and_congr_left' ih)

/-- The types lie between the numbers that they are built with. -/
theorem bounds_of_mem_types (a : SetTerm) {bottom top : TokenType}
    (h : ∀ t ∈ a.numbers, bottom ≤ t ∧ t ≤ top) : ∀ t ∈ a.types, bottom ≤ t ∧ t ≤ top := by
  have hrange {lo hi t : TokenType} (hlo : bottom ≤ lo ∧ lo ≤ top) (hhi : bottom ≤ hi ∧ hi ≤ top)
      (ht : lo ≤ t ∧ t ≤ hi) : bottom ≤ t ∧ t ≤ top :=
    ⟨Int.le_trans hlo.1 ht.1, Int.le_trans ht.2 hhi.2⟩
  induction a with
  | single u =>
    rintro t rfl
    exact h t List.mem_cons_self
  | range lo hi =>
    obtain ⟨hlo, hhi⟩ := List.forall_mem_cons.mp h
    exact fun t ht => hrange hlo (hhi hi List.mem_cons_self) ht
  | ofList ts => exact h
  | add s u ih =>
    obtain ⟨hu, hs⟩ := List.forall_mem_cons.mp h
    rintro t (rfl | ht)
    · exact hu
    · exact ih hs t ht
  | addRange s lo hi ih =>
    obtain ⟨hlo, hrest⟩ := List.forall_mem_cons.mp h
    obtain ⟨hhi, hs⟩ := List.forall_mem_cons.mp hrest
    rintro t (ht | ht)
    · exact ih hs t ht
    · exact hrange hlo hhi ht
  | union s other ih ih' =>
    obtain ⟨hs, hother⟩ := List.forall_mem_append.mp h
    rintro t (ht | ht)
    · exact ih hs t ht
    · exact ih' hother t ht
  | erase s u ih => exact fun t ht => ih (List.forall_mem_cons.mp h).2 t ht.1

theorem ends_build (a : SetTerm) {bottom top : TokenType}
    (h : ∀ t ∈ a.numbers, bottom ≤ t ∧ t ≤ top) :
    ∀ i ∈ a.build.intervals, bottom ≤ i.lo ∧ i.lo ≤ top ∧ i.hi ≤ top := by
  intro i hi
  obtain ⟨hlo, hhi⟩ := a.canonical_build.contains_ends hi
  have hlow := a.bounds_of_mem_types h i.lo ((a.contains_build i.lo).mp hlo)
  have hhigh := a.bounds_of_mem_types h i.hi ((a.contains_build i.hi).mp hhi)
  exact ⟨hlow.1, hlow.2, hhigh.2⟩

/-- A highest number makes no difference to a set that is built with numbers up to
it. -/
theorem buildUpTo_eq (a : SetTerm) {bottom top : TokenType}
    (h : ∀ t ∈ a.numbers, bottom ≤ t ∧ t ≤ top) : a.buildUpTo top = a.build := by
  have hbegin (s : SetTerm) (hs : ∀ t ∈ s.numbers, bottom ≤ t ∧ t ≤ top) :
      ∀ i ∈ s.build.intervals, i.lo ≤ top := fun i hi => (s.ends_build hs i hi).2.1
  have hempty : ∀ i ∈ TypeSet.empty.intervals, i.lo ≤ top := fun _ hi => absurd hi List.not_mem_nil
  induction a with
  | single u =>
    exact TypeSet.addRangeUpTo_eq (h u List.mem_cons_self).2 hempty u
  | range lo hi =>
    exact TypeSet.addRangeUpTo_eq (h lo List.mem_cons_self).2 hempty hi
  | ofList ts =>
    have hpoints : ∀ i ∈ ts.map fun t => (⟨t, t⟩ : Interval), i.lo ≤ top :=
      List.forall_mem_map.mpr fun t ht => (h t ht).2
    have hfold := TypeSet.foldl_addRangeUpTo hpoints hempty
    rwa [List.foldl_map, List.foldl_map] at hfold
  | add s u ih =>
    obtain ⟨hu, hs⟩ := List.forall_mem_cons.mp h
    rw [buildUpTo, ih hs]
    exact TypeSet.addRangeUpTo_eq hu.2 (hbegin s hs) u
  | addRange s lo hi ih =>
    obtain ⟨hlo, hrest⟩ := List.forall_mem_cons.mp h
    have hs := (List.forall_mem_cons.mp hrest).2
    rw [buildUpTo, ih hs]
    exact TypeSet.addRangeUpTo_eq hlo.2 (hbegin s hs) hi
  | union s other ih ih' =>
    obtain ⟨hs, hother⟩ := List.forall_mem_append.mp h
    rw [buildUpTo, ih hs, ih' hother]
    exact TypeSet.foldl_addRangeUpTo (hbegin other hother) (hbegin s hs)
  | erase s u ih => rw [buildUpTo, ih (List.forall_mem_cons.mp h).2, build]

/-- A type set is the finite set of types that it was built as, and it has one
representation.  The numbers that it is kept in lie between those it is built with,
and it makes no difference whether there are numbers above them. -/
theorem build_exact (a b : SetTerm) :
    a.build.Represents a.types ∧ (a.build = b.build ↔ a.types = b.types) ∧
      ∀ bottom top, (∀ t ∈ a.numbers, bottom ≤ t ∧ t ≤ top) →
        (∀ i ∈ a.build.intervals, bottom ≤ i.lo ∧ i.hi ≤ top) ∧ a.buildUpTo top = a.build := by
  refine ⟨a.canonical_build.represents a.contains_build, ⟨fun heq => ?_, fun heq => ?_⟩,
    fun bottom top h => ⟨fun i hi => ?_, a.buildUpTo_eq h⟩⟩
  · ext t
    rw [← a.contains_build, heq, b.contains_build]
  · refine a.canonical_build.ext b.canonical_build fun t => ?_
    rw [a.contains_build, b.contains_build, heq]
  · obtain ⟨hlo, -, hhi⟩ := a.ends_build h i hi
    exact ⟨hlo, hhi⟩

/-- All half words from zero on: the count of the interval wraps around, though the
differences of its members do not. -/
theorem build_miscounted :
    (∀ t ∈ (range 0 (Word.halfBound - 1)).types, ∀ u ∈ (range 0 (Word.halfBound - 1)).types,
      u - t < Word.halfBound) ∧
    (range 0 (Word.halfBound - 1)).build.size = 18446744071562067968 ∧
    (range 0 (Word.halfBound - 1)).types.ncard = 2147483648 := by
  refine ⟨fun t ht u hu => ?_, by decide +kernel, ?_⟩
  · exact Int.lt_of_le_of_lt (Int.sub_le_sub hu.2 ht.1) (by decide)
  · have htypes : (range 0 (Word.halfBound - 1)).types =
        ↑(Finset.Icc (0 : Int) (Word.halfBound - 1)) := by
      ext t
      exact Finset.mem_coe.trans Finset.mem_Icc |>.symm
    rw [htypes, Set.ncard_coe_finset, Int.card_Icc]
    decide +kernel

end SetTerm

end AdaptiveLL
