/-
Transition graphs.

A graph has numbered states and numbered rules.  A rule runs from its start state
to its stop state; a call transition goes to the start state of another rule and
says where the caller goes on.  Only three kinds of transitions read a token.
-/
import AdaptiveLL.CallStack
import AdaptiveLL.TypeSet

namespace AdaptiveLL

inductive Transition where
  | epsilon (target : StateId)
  /-- Reads a token of one type. -/
  | atom (target : StateId) (token : TokenType)
  /-- Reads a token of one of several types. -/
  | set (target : StateId) (types : TypeSet)
  /-- Reads any token but the end of the input. -/
  | wildcard (target : StateId)
  /-- Calls the rule that starts at the target, and goes on at `follow`. -/
  | call (target : StateId) (rule : RuleIndex) (follow : StateId) (precedence : Int)
  /-- Passes if the predicate with this number holds. -/
  | predicate (target : StateId) (rule : RuleIndex) (index : Nat)
  /-- Passes if the invocation's precedence is at most this level. -/
  | precedence (target : StateId) (level : Int)
  /-- Runs the action with this number. -/
  | action (target : StateId) (rule : RuleIndex) (index : Nat)
deriving DecidableEq

namespace Transition

def target : Transition → StateId
  | .epsilon target => target
  | .atom target _ => target
  | .set target _ => target
  | .wildcard target => target
  | .call target _ _ _ => target
  | .predicate target _ _ => target
  | .precedence target _ => target
  | .action target _ _ => target

/-- Whether a transition reads no token. -/
def isEpsilon : Transition → Bool
  | .epsilon _ => true
  | .atom _ _ => false
  | .set _ _ => false
  | .wildcard _ => false
  | .call _ _ _ _ => true
  | .predicate _ _ _ => true
  | .precedence _ _ => true
  | .action _ _ _ => true

/-- Whether a transition reads a token of type `t`; `maxType` is the highest type
there is. -/
def accepts (maxType t : TokenType) : Transition → Bool
  | .atom _ token => token == t
  | .set _ types => types.contains t
  | .wildcard _ => TokenType.first ≤ t && t ≤ maxType
  | _ => false

/-- The types that a reading transition accepts. -/
def label? (maxType : TokenType) : Transition → Option TypeSet
  | .atom _ token => some (.single token)
  | .set _ types => some types
  | .wildcard _ => some (.range TokenType.first maxType)
  | _ => none

/-- The part a call plays for its rule: the state the callee starts at, the
callee, where the caller goes on, and the callee's precedence. -/
def call? : Transition → Option (StateId × RuleIndex × StateId × Int)
  | .call target rule follow level => some (target, rule, follow, level)
  | _ => none

end Transition

/-- The part a state plays in its rule. -/
inductive StateRole where
  | basic
  | ruleStart
  | ruleStop
  | blockStart
  | blockEnd
  | starBlockStart
  | plusBlockStart
  /-- The head of a loop; `operators` marks the loop over a rule's operators. -/
  | starLoopEntry (operators : Bool)
  | starLoopBack
  | plusLoopBack
  | loopEnd
deriving DecidableEq

namespace StateRole

def offersAlternatives : StateRole → Bool
  | .blockStart => true
  | .starBlockStart => true
  | .plusBlockStart => true
  | .starLoopEntry _ => true
  | .plusLoopBack => true
  | _ => false

end StateRole

/-- A state with the transitions that leave it, in the order of preference.  A
label names the token that its transition reads. -/
structure State where
  role : StateRole
  rule : RuleIndex
  transitions : List Transition := []
  label : Option String := none

namespace State

/-- Whether every transition of the state reads nothing. -/
def readsNothing (s : State) : Bool :=
  s.transitions.all Transition.isEpsilon

def isStop (s : State) : Bool :=
  s.role == .ruleStop

def isDecision (s : State) : Bool :=
  1 < s.transitions.length

end State

/-- The states of a rule between which it runs, and whether it takes a
precedence. -/
structure RuleSpan where
  name : String
  start : StateId
  stop : StateId
  leftRecursive : Bool

/-- States and rules by number, and the texts of predicates and actions. -/
structure Graph where
  states : Array State := #[]
  rules : Array RuleSpan := #[]
  predicates : Array String := #[]
  actions : Array String := #[]
  /-- The highest token type. -/
  maxType : TokenType := 0

namespace Graph

def state? (g : Graph) (id : StateId) : Option State :=
  g.states[id]?

def rule? (g : Graph) (rule : RuleIndex) : Option RuleSpan :=
  g.rules[rule]?

/-- The first rule of a name. -/
def ruleIndex? (g : Graph) (name : String) : Option RuleIndex :=
  g.rules.findIdx? fun r => r.name == name

/-- The name of a rule, or a mark for a number that no rule has. -/
def ruleName (g : Graph) (rule : RuleIndex) : String :=
  ((g.rule? rule).map RuleSpan.name).getD "<invalid>"

/-- The text of a predicate, empty for a number that none has. -/
def predicateText (g : Graph) (index : Nat) : String :=
  g.predicates[index]?.getD ""

/-- The text of an action, empty for a number that none has. -/
def actionText (g : Graph) (index : Nat) : String :=
  g.actions[index]?.getD ""

/-- Whether a state exists and ends its rule. -/
def isStop (g : Graph) (id : StateId) : Bool :=
  (g.state? id).any State.isStop

def calls (g : Graph) : List (StateId × RuleIndex × StateId × Int) :=
  g.states.toList.flatMap fun s => s.transitions.filterMap Transition.call?

def transitionCount (g : Graph) : Nat :=
  (g.states.toList.flatMap State.transitions).length

def addState (g : Graph) (role : StateRole) (rule : RuleIndex) : StateId × Graph :=
  (g.states.size, { g with states := g.states.push { role, rule } })

def addRule (g : Graph) (name : String) (leftRecursive : Bool) : Graph :=
  let rule := g.rules.size
  let (start, g) := g.addState .ruleStart rule
  let (stop, g) := g.addState .ruleStop rule
  { g with rules := g.rules.push { name, start, stop, leftRecursive } }

/-- Change a state; nothing if there is none of this number. -/
def modifyState (g : Graph) (id : StateId) (f : State → State) : Graph :=
  { g with states := g.states.modify id f }

def addTransition (g : Graph) (source : StateId) (t : Transition) : Graph :=
  g.modifyState source fun s => { s with transitions := s.transitions ++ [t] }

/-- Name the token that a state reads. -/
def setLabel (g : Graph) (id : StateId) (label : String) : Graph :=
  g.modifyState id fun s => { s with label := some label }

def setRole (g : Graph) (id : StateId) (role : StateRole) : Graph :=
  g.modifyState id fun s => { s with role }

def addPredicate (g : Graph) (text : String) : Nat × Graph :=
  (g.predicates.size, { g with predicates := g.predicates.push text })

def addAction (g : Graph) (text : String) : Nat × Graph :=
  (g.actions.size, { g with actions := g.actions.push text })

end Graph

end AdaptiveLL
