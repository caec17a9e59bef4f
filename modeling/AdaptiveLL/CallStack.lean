/-
Stacks of pending rule calls.

A frame says where the caller goes on and with which precedence the caller was
itself called.  The top of the stack is the head of the list, so a stack shares
its tail with the stack it was pushed on.  Under the empty stack the outermost
rule is running: behind its end only the end of the input can follow.
-/

namespace AdaptiveLL

abbrev StateId := Nat

abbrev RuleIndex := Nat

/-- One pending call. -/
structure Frame where
  returnState : StateId
  precedence : Int
deriving DecidableEq

/-- Pending calls, the innermost first. -/
abbrev CallStack := List Frame

namespace CallStack

/-- The states at which the callers go on, the innermost first. -/
def returnStates (s : CallStack) : List StateId :=
  s.map Frame.returnState

end CallStack

end AdaptiveLL
