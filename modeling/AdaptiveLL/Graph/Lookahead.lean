/-
Which tokens can be read next.

The walk starts at a state under a call stack and follows everything that reads
no token.  Predicates and precedences are looked through.  A rule that is being
expanded on the way is not entered again, which keeps the walk finite on
recursive rules.  At the end of the outermost rule the walk notes the end of the
input, or, if it was asked about one rule only, that the rule can end.
-/
import AdaptiveLL.CallStack.Order
import AdaptiveLL.Exploration
import AdaptiveLL.Graph

namespace AdaptiveLL

/-- A state and stack that the walk comes to, with the rules entered on the way
there and not left since. -/
structure LookVisit where
  state : StateId
  stack : CallStack
  entered : List RuleIndex := []

namespace LookVisit

/-- The walk takes up each state under each stack once. -/
def key (x : LookVisit) : StackedState :=
  .of x.state x.stack

/-- Where a transition leads the walk, if it reads nothing and enters no rule
that is being expanded. -/
def along (x : LookVisit) : Transition → Option LookVisit
  | .call target rule follow level =>
    if x.entered.contains rule then none
    else some ⟨target, ⟨follow, level⟩ :: x.stack, rule :: x.entered⟩
  | .epsilon target => some { x with state := target }
  | .predicate target _ _ => some { x with state := target }
  | .precedence target _ => some { x with state := target }
  | .action target _ _ => some { x with state := target }
  | .atom _ _ => none
  | .set _ _ => none
  | .wildcard _ => none

end LookVisit

namespace Graph

/-- Where the walk goes on: at the end of a rule in its caller, else along the
transitions. -/
def lookNext (g : Graph) (x : LookVisit) : List LookVisit :=
  match g.state? x.state with
  | none => []
  | some s =>
    if s.isStop then
      match x.stack with
      | [] => []
      | frame :: stack => [⟨frame.returnState, stack, x.entered.erase s.rule⟩]
    else s.transitions.filterMap x.along

/-- What the walk notes at a state: the types its transitions accept, or `atEnd`
where the outermost rule ends. -/
def lookTypes (g : Graph) (atEnd : TokenType) (x : LookVisit) : TypeSet :=
  match g.state? x.state with
  | none => .empty
  | some s =>
    if s.isStop then if x.stack.isEmpty then .single atEnd else .empty
    else (s.transitions.filterMap (Transition.label? g.maxType)).foldl .union .empty

/-- The number of stacks a walk can come to: those below the given one, with no
more frames on top than there are rules to call. -/
def stackBound (g : Graph) (depth frames : Nat) : Nat :=
  (depth + 1) * (frames + 1).pow g.calls.length

/-- More steps than a walk needs that takes up each state under each stack once. -/
def lookBound (g : Graph) (stack : CallStack) : Nat :=
  let states := g.states.size + stack.length + 1
  1 + states * g.stackBound stack.length g.calls.length * (g.transitionCount + 1)

/-- Everything the walk from a state comes to. -/
def lookVisits (g : Graph) (state : StateId) (stack : CallStack) : List LookVisit :=
  Id.run (explore LookVisit.key (fun x => pure (g.lookNext x)) (g.lookBound stack)
    [⟨state, stack, []⟩] {})

/-- The types that can be read next from a state under a stack, `atEnd` standing
for the end of the outermost rule. -/
def lookFrom (g : Graph) (atEnd : TokenType) (state : StateId) (stack : CallStack) : TypeSet :=
  (g.lookVisits state stack).foldl (fun types x => types.union (g.lookTypes atEnd x)) .empty

/-- The types that can be read next within the rule of a state. -/
def lookInRule (g : Graph) (state : StateId) : TypeSet :=
  g.lookFrom .epsilon state []

/-- The types that can be read next at a state whose callers are on the stack. -/
def lookInContext (g : Graph) (state : StateId) (stack : CallStack) : TypeSet :=
  g.lookFrom .eof state stack

end Graph

end AdaptiveLL
