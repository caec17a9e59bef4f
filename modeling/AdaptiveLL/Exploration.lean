/-
Depth-first exploration with a work list.

The first item of the list is taken up next, and what follows from it is put in
front of the others.  Every item has a key, and an item is dropped if an earlier
one had its key.  The keys are kept in an ordered set, so that a large exploration
need not look through all that it has seen.
-/
import Std.Data.TreeSet

namespace AdaptiveLL

universe u v w

variable {α : Type u} {κ : Type w} [Ord κ] [Std.TransOrd κ] [Std.LawfulEqOrd κ] {key : α → κ}

/-- The items taken up so far, the latest first, with their keys. -/
structure Explored (key : α → κ) where
  items : List α := []
  keys : Std.TreeSet κ := ∅
  mem_keys : ∀ k, k ∈ keys ↔ ∃ x ∈ items, key x = k := by simp

namespace Explored

def has (seen : Explored key) (x : α) : Bool :=
  seen.keys.contains (key x)

def add (seen : Explored key) (x : α) : Explored key where
  items := x :: seen.items
  keys := seen.keys.insert (key x)
  mem_keys k := by simp [Std.TreeSet.mem_insert, seen.mem_keys]

omit [Std.TransOrd κ] [Std.LawfulEqOrd κ] in
theorem has_iff {seen : Explored key} {x : α} :
    seen.has x = true ↔ ∃ y ∈ seen.items, key y = key x := by
  rw [has, Std.TreeSet.contains_iff_mem, seen.mem_keys]

end Explored

variable {m : Type u → Type v} [Monad m]

/-- Take up at most `steps` items of a work list; the result has all items taken up
in the order of the work. -/
def explore (key : α → κ) (next : α → m (List α)) :
    (steps : Nat) → (work : List α) → Explored key → m (List α)
  | 0, _, seen => pure seen.items.reverse
  | _ + 1, [], seen => pure seen.items.reverse
  | steps + 1, x :: work, seen =>
    if seen.has x then explore key next steps work seen
    else do
      let found ← next x
      explore key next steps (found ++ work) (seen.add x)

end AdaptiveLL
