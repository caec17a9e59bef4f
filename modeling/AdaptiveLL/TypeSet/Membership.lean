/-
What the operations on type sets mean for their members.

Insertion may join intervals, but only those that overlap or touch, so it adds
exactly the types that were to be added; removal takes away exactly one.
-/
import AdaptiveLL.TypeSet

namespace AdaptiveLL

namespace Interval

theorem contains_without {i : Interval} {t u : TokenType} :
    (i.without t).any (fun j => j.contains u) = true ↔ i.contains u = true ∧ u ≠ t := by
  by_cases h : i.contains t = true
  · have bounds := contains_iff.1 h
    by_cases low : i.lo < t <;> by_cases high : t < i.hi <;>
      grind [without, contains_iff]
  · have differs : i.contains u = true → u ≠ t := fun hu he => h (he ▸ hu)
    simpa [without, h] using differs

end Interval

namespace TypeSet

theorem any_insertInterval {new : Interval} (nonempty : new.lo ≤ new.hi) (is : List Interval)
    (t : TokenType) :
    (insertInterval new is).any (fun i => i.contains t) = true
      ↔ new.contains t = true ∨ is.any (fun i => i.contains t) = true := by
  induction is generalizing new with
  | nil => simp [insertInterval]
  | cons i rest ih =>
    by_cases below : i.hi + 1 < new.lo
    · have recurse := ih nonempty
      simp only [insertInterval, below, if_true, List.any_cons, Bool.or_eq_true, recurse]
      exact or_left_comm
    · by_cases above : new.hi + 1 < i.lo
      · simp [insertInterval, below, above]
      · have widened : min new.lo i.lo ≤ max new.hi i.hi := by grind
        have recurse := @ih ⟨min new.lo i.lo, max new.hi i.hi⟩ widened
        have joined : (⟨min new.lo i.lo, max new.hi i.hi⟩ : Interval).contains t = true
            ↔ new.contains t = true ∨ i.contains t = true := by
          grind [Interval.contains_iff]
        simp only [insertInterval, below, above, if_false, recurse, joined, List.any_cons,
          Bool.or_eq_true, or_assoc]

theorem contains_addRange {s : TypeSet} {lo hi t : TokenType} :
    (s.addRange lo hi).contains t = true ↔ s.contains t = true ∨ lo ≤ t ∧ t ≤ hi := by
  by_cases h : hi < lo
  · have none : ¬ (lo ≤ t ∧ t ≤ hi) := by grind
    simp [addRange, h, none]
  · have inserted := @any_insertInterval ⟨lo, hi⟩ (by simpa using h) s.intervals t
    simp only [addRange, h, if_false, contains, inserted, Interval.contains_iff]
    exact or_comm

theorem contains_add {s : TypeSet} {t u : TokenType} :
    (s.add t).contains u = true ↔ s.contains u = true ∨ u = t := by
  have point : t ≤ u ∧ u ≤ t ↔ u = t := by grind
  simp only [add, contains_addRange, point]

theorem contains_single {t u : TokenType} : (single t).contains u = true ↔ u = t := by
  simp [single, contains_add]

theorem contains_range {lo hi t : TokenType} :
    (range lo hi).contains t = true ↔ lo ≤ t ∧ t ≤ hi := by
  simp [range, contains_addRange]

theorem contains_ofList {ts : List TokenType} {t : TokenType} :
    (ofList ts).contains t = true ↔ t ∈ ts := by
  have grow (s : TypeSet) : (ts.foldl add s).contains t = true
      ↔ s.contains t = true ∨ t ∈ ts := by
    induction ts generalizing s with
    | nil => simp
    | cons u rest ih =>
      simp only [List.foldl_cons, ih, contains_add, List.mem_cons, or_assoc]
  simp [ofList, grow]

theorem contains_union {s other : TypeSet} {t : TokenType} :
    (s.union other).contains t = true ↔ s.contains t = true ∨ other.contains t = true := by
  have grow (is : List Interval) (s : TypeSet) :
      (is.foldl (fun acc i => acc.addRange i.lo i.hi) s).contains t = true
        ↔ s.contains t = true ∨ is.any (fun i => i.contains t) = true := by
    induction is generalizing s with
    | nil => simp
    | cons i rest ih =>
      simp only [List.foldl_cons, ih, contains_addRange, List.any_cons, Bool.or_eq_true,
        Interval.contains_iff, or_assoc]
  exact grow other.intervals s

theorem contains_erase {s : TypeSet} {t u : TokenType} :
    (s.erase t).contains u = true ↔ s.contains u = true ∧ u ≠ t := by
  have pieces (i : Interval) := Interval.contains_without (i := i) (t := t) (u := u)
  simp only [List.any_eq_true] at pieces
  simp only [erase, contains, List.any_flatMap, List.any_eq_true, pieces]
  constructor
  · rintro ⟨i, hi, hu, ne⟩
    exact ⟨⟨i, hi, hu⟩, ne⟩
  · rintro ⟨⟨i, hi, hu⟩, ne⟩
    exact ⟨i, hi, hu, ne⟩

end TypeSet

end AdaptiveLL
