/-
Networks: graphs that passed the check, with their decisions numbered and the
tokens that can come next worked out for each state.
-/
import AdaptiveLL.Graph.Lookahead

namespace AdaptiveLL

/-- What can be wrong with a graph, or with the use of a network. -/
inductive NetworkDefect where
  /-- A state that offers alternatives has none. -/
  | emptyDecision (state : StateId)
  /-- A state that ends no rule has no transition. -/
  | deadEnd (state : StateId)
  | missingState (state : StateId)
  | danglingTarget (source target : StateId)
  /-- A call does not lead to the start of the rule it names. -/
  | badCallTarget (source : StateId)
  /-- There is no rule of the name a parse was to start with. -/
  | unknownRule (name : String)
  /-- A rule was called again before a token was read. -/
  | recursionCycle (rule : String) (index : Nat)
deriving DecidableEq

namespace NetworkDefect

def message : NetworkDefect → String
  | .emptyDecision state => "decision state " ++ toString state ++ " has no alternatives"
  | .deadEnd state => "state " ++ toString state ++ " has no outgoing transitions"
  | .missingState state => "state " ++ toString state ++ " does not exist"
  | .danglingTarget source target =>
    "transition from state " ++ toString source ++ " targets missing state " ++ toString target
  | .badCallTarget source =>
    "rule transition from state " ++ toString source ++ " does not target its rule's start state"
  | .unknownRule name => "unknown start rule `" ++ name ++ "`"
  | .recursionCycle rule index =>
    "rule `" ++ rule ++ "` re-entered at token " ++ toString index ++ " without consuming input"

def code : NetworkDefect → String
  | .emptyDecision _ => "atn::empty_decision"
  | .deadEnd _ => "atn::dead_end"
  | .missingState _ => "atn::missing_state"
  | .danglingTarget _ _ => "atn::dangling_target"
  | .badCallTarget _ => "atn::bad_rule_target"
  | .unknownRule _ => "atn::unknown_rule"
  | .recursionCycle _ _ => "atn::recursion_cycle"

end NetworkDefect

namespace Graph

def getState (g : Graph) (id : StateId) : Except NetworkDefect State :=
  match g.state? id with
  | some s => .ok s
  | none => .error (.missingState id)

/-- Only the end of a rule may have no transition. -/
def checkExits (id : StateId) (s : State) : Except NetworkDefect Unit :=
  if !s.transitions.isEmpty || s.isStop then .ok ()
  else if s.role.offersAlternatives then .error (.emptyDecision id)
  else .error (.deadEnd id)

/-- A transition leads to a state; a call leads to the start of its rule and
comes back to a state. -/
def checkTransition (g : Graph) (id : StateId) (t : Transition) : Except NetworkDefect Unit :=
  match g.state? t.target with
  | none => .error (.danglingTarget id t.target)
  | some s =>
    match t.call? with
    | none => .ok ()
    | some (_, rule, follow, _) =>
      if s.role != .ruleStart || s.rule != rule then .error (.badCallTarget id)
      else if g.states.size ≤ follow then .error (.danglingTarget id follow)
      else .ok ()

/-- Check the states in order, and of each its exits before its transitions. -/
def check (g : Graph) : Except NetworkDefect Unit :=
  g.states.toList.zipIdx.forM fun (s, id) => do
    checkExits id s
    s.transitions.forM (g.checkTransition id)

/-- The states that have to choose, in order. -/
def decisionStates (g : Graph) : List StateId :=
  (g.states.toList.zipIdx.filter fun (s, _) => s.isDecision).map fun (_, id) => id

end Graph

/-- A checked graph. -/
structure Network extends Graph where
  /-- The states that have to choose; a decision's number is its place. -/
  decisions : Array StateId
  /-- For each state the types that can be read next within its rule. -/
  nextTypes : Array TypeSet

namespace Graph

/-- Check a graph and work out its decisions and look-ahead sets. -/
def toNetwork (g : Graph) (maxType : TokenType) : Except NetworkDefect Network := do
  let g := { g with maxType }
  g.check
  return { g with
    decisions := g.decisionStates.toArray
    nextTypes := ((List.range g.states.size).map g.lookInRule).toArray }

end Graph

namespace Network

/-- The types that can be read next within the rule of a state; none for a state
that does not exist. -/
def next (n : Network) (state : StateId) : TypeSet :=
  n.nextTypes[state]?.getD .empty

def decisionState? (n : Network) (decision : Nat) : Option StateId :=
  n.decisions[decision]?

/-- The number of the decision a state takes. -/
def decisionOf? (n : Network) (state : StateId) : Option Nat :=
  n.decisions.findIdx? (· == state)

/-- Go on outward while the current rule can end, collecting what may be read. -/
def expectedOutward (n : Network) (following expected : TypeSet) : List StateId → TypeSet
  | [] => if following.contains .epsilon then expected.add .eof else expected
  | ret :: rest =>
    if following.contains .epsilon then
      expectedOutward n (n.next ret) ((expected.union (n.next ret)).erase .epsilon) rest
    else expected

/-- The types acceptable at a state under a stack.  While a rule can end, what
follows its call is acceptable too; where the outermost rule can end, so is the
end of the input. -/
def expected (n : Network) (state : StateId) (stack : CallStack) : TypeSet :=
  let following := n.next state
  if following.contains .epsilon then
    n.expectedOutward following (following.erase .epsilon) stack.returnStates
  else following

/-- Go on outward while the current rule can end, until the type is found. -/
def expectsOutward (n : Network) (t : TokenType) (following : TypeSet) : List StateId → Bool
  | [] => following.contains .epsilon && t == .eof
  | ret :: rest =>
    if following.contains .epsilon then
      (n.next ret).contains t || expectsOutward n t (n.next ret) rest
    else false

/-- Whether a type is acceptable at a state under a stack, without collecting all
that are. -/
def expects (n : Network) (state : StateId) (stack : CallStack) (t : TokenType) : Bool :=
  let following := n.next state
  following.contains t
    || following.contains .epsilon && n.expectsOutward t following stack.returnStates

/-- The types that some pending call can go on with. -/
def recoverySet (n : Network) (stack : CallStack) : TypeSet :=
  (stack.returnStates.foldl (fun acc ret => acc.union (n.next ret)) TypeSet.empty).erase .epsilon

end Network

end AdaptiveLL
