/-
Scripted host programs: what actions print and which predicates hold, by text.
-/
import AdaptiveLL.Hooks

namespace AdaptiveLL

/-- A scripted host program. -/
structure Script where
  /-- What an action prints; of several entries the first counts. -/
  actions : List (String × (ActionView → String)) := []
  /-- The values of predicates; those not listed hold. -/
  predicates : List (String × Bool) := []

namespace Script

def hooks (s : Script) : Hooks :=
  .fixed fun text => (s.predicates.lookup text).getD true

/-- What the actions among some calls print, in order. -/
def output (s : Script) (calls : Array HookCall) : List String :=
  calls.toList.filterMap fun
    | .action context text => (s.actions.lookup text).map fun print => print context
    | .predicate _ _ _ => none

end Script

end AdaptiveLL
