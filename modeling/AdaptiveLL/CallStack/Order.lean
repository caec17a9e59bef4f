/-
An order of stacks, and of states under stacks, to find them again in large sets.

Stacks that share their upper frames are common, so a state under a stack carries
the depth of its stack: stacks of different depths are told apart without walking
down both.
-/
import AdaptiveLL.CallStack
import Std.Data.TreeSet

namespace AdaptiveLL

namespace Frame

instance : Ord Frame where
  compare := compareLex (compareOn returnState) (compareOn precedence)

instance : Std.TransOrd Frame :=
  inferInstanceAs (Std.TransCmp (compareLex (compareOn returnState) (compareOn precedence)))

instance : Std.LawfulEqOrd Frame where
  compare_self := Std.ReflCmp.compare_self
  eq_of_compare {f g} h := by
    change compareLex (compareOn returnState) (compareOn precedence) f g = .eq at h
    have same : f.returnState = g.returnState ∧ f.precedence = g.precedence := by
      simpa [compareLex_eq_eq, compareOn] using h
    cases f
    cases g
    simpa using same

end Frame

/-- A state under a stack, with the depth of the stack. -/
structure StackedState where
  state : StateId
  depth : Nat
  stack : CallStack

namespace StackedState

def of (state : StateId) (stack : CallStack) : StackedState :=
  ⟨state, stack.length, stack⟩

instance : Ord StackedState where
  compare := compareLex (compareOn state) (compareLex (compareOn depth) (compareOn stack))

instance : Std.TransOrd StackedState :=
  inferInstanceAs (Std.TransCmp
    (compareLex (compareOn state) (compareLex (compareOn depth) (compareOn stack))))

instance : Std.LawfulEqOrd StackedState where
  compare_self := Std.ReflCmp.compare_self
  eq_of_compare {x y} h := by
    change compareLex (compareOn state) (compareLex (compareOn depth) (compareOn stack)) x y = .eq
      at h
    have same : x.state = y.state ∧ x.depth = y.depth ∧ x.stack = y.stack := by
      simpa [compareLex_eq_eq, compareOn] using h
    cases x
    cases y
    simpa using same

theorem of_inj {s t : StateId} {c d : CallStack} : of s c = of t d ↔ s = t ∧ c = d := by
  simp only [of, mk.injEq]
  constructor
  · rintro ⟨state, _, stack⟩
    exact ⟨state, stack⟩
  · rintro ⟨rfl, rfl⟩
    simp

end StackedState

end AdaptiveLL
