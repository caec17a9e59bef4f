/-
Type sets have one representation.

The intervals of a set hold at least one type each, they ascend, and between any two
of them a type is missing.  Insertion keeps this, so the first interval begins with
the lowest member.
-/
import AdaptiveLL.TypeSet.Membership

namespace AdaptiveLL

/-- A type is missing between two intervals, of which the first is the lower one. -/
def Interval.Apart (i j : Interval) : Prop :=
  i.hi + 1 < j.lo

namespace TypeSet

/-- The intervals hold types, ascend and do not touch. -/
structure Canonical (s : TypeSet) : Prop where
  proper : ∀ i ∈ s.intervals, i.lo ≤ i.hi
  apart : s.intervals.Pairwise Interval.Apart

/-- After an insertion the intervals begin where one of them began before, or the
new one. -/
theorem forall_lo_insertInterval {P : TokenType → Prop} {new : Interval} {is : List Interval}
    (hnew : P new.lo) (his : ∀ i ∈ is, P i.lo) : ∀ i ∈ insertInterval new is, P i.lo := by
  induction is generalizing new with
  | nil => simpa [insertInterval] using hnew
  | cons i rest ih =>
    obtain ⟨hi, hrest⟩ := List.forall_mem_cons.mp his
    unfold insertInterval
    split
    · exact List.forall_mem_cons.mpr ⟨hi, ih hnew hrest⟩
    · split
      · exact List.forall_mem_cons.mpr ⟨hnew, his⟩
      · exact ih (by grind) hrest

theorem canonical_insertInterval {new : Interval} (hnew : new.lo ≤ new.hi) {is : List Interval}
    (h : Canonical ⟨is⟩) : Canonical ⟨insertInterval new is⟩ := by
  induction is generalizing new with
  | nil => exact ⟨by simpa [insertInterval] using hnew, List.pairwise_singleton _ _⟩
  | cons i rest ih =>
    obtain ⟨hi, hproper⟩ := List.forall_mem_cons.mp h.proper
    obtain ⟨hbelow, hapart⟩ := List.pairwise_cons.mp h.apart
    have hrest : Canonical ⟨rest⟩ := ⟨hproper, hapart⟩
    unfold insertInterval
    split
    · rename_i hlow
      have hrec := ih hnew hrest
      exact ⟨List.forall_mem_cons.mpr ⟨hi, hrec.proper⟩,
        List.pairwise_cons.mpr ⟨forall_lo_insertInterval hlow hbelow, hrec.apart⟩⟩
    · split
      · rename_i hhigh
        refine ⟨List.forall_mem_cons.mpr ⟨hnew, h.proper⟩, List.pairwise_cons.mpr ⟨?_, h.apart⟩⟩
        refine List.forall_mem_cons.mpr ⟨hhigh, fun j hj => ?_⟩
        have hij : i.hi + 1 < j.lo := hbelow j hj
        show new.hi + 1 < j.lo
        grind
      · exact ih (by grind) hrest

theorem canonical_empty : Canonical empty :=
  ⟨nofun, List.Pairwise.nil⟩

theorem Canonical.addRange {s : TypeSet} (h : s.Canonical) (lo hi : TokenType) :
    (s.addRange lo hi).Canonical := by
  unfold TypeSet.addRange
  split
  · exact h
  · exact canonical_insertInterval (Int.not_lt.mp ‹_›) h

theorem Canonical.union {s : TypeSet} (h : s.Canonical) (other : TypeSet) :
    (s.union other).Canonical := by
  unfold TypeSet.union
  generalize other.intervals = is
  induction is generalizing s with
  | nil => exact h
  | cons i is ih => exact ih (h.addRange i.lo i.hi)

/-- The lowest member is found at the front. -/
theorem Canonical.min?_eq_some {s : TypeSet} (h : s.Canonical) {t : TokenType}
    (hmin : s.min? = some t) :
    s.contains t = true ∧ ∀ u, s.contains u = true → t ≤ u := by
  obtain ⟨is⟩ := s
  cases is with
  | nil => cases hmin
  | cons i rest =>
    obtain rfl : i.lo = t := Option.some.inj hmin
    obtain ⟨hi, _⟩ := List.forall_mem_cons.mp h.proper
    obtain ⟨hbelow, _⟩ := List.pairwise_cons.mp h.apart
    refine ⟨?_, fun u hu => ?_⟩
    · simp [contains, Interval.contains, hi]
    · obtain ⟨j, hj, hju⟩ := List.any_eq_true.mp hu
      have hlow : j.lo ≤ u := (Interval.contains_iff.mp hju).1
      rcases List.mem_cons.mp hj with rfl | hrest
      · exact hlow
      · have hij : i.hi + 1 < j.lo := hbelow j hrest
        grind

/-- A set without a lowest member is empty. -/
theorem not_contains_of_min? {s : TypeSet} (hmin : s.min? = none) (t : TokenType) :
    s.contains t = false := by
  obtain ⟨is⟩ := s
  cases is with
  | nil => rfl
  | cons => cases hmin

end TypeSet

end AdaptiveLL
