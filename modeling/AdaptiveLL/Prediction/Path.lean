/-
The paths that a prediction follows at the same time.

A path stands at a place that some alternative can be at without reading a token.
The closure of some paths is everything they can come to by transitions that read
nothing, entering and leaving rules on the way.  A path that would enter the same
rule with the same precedence once more, before it has left it or read a token,
ends there.
-/
import AdaptiveLL.CallStack.Order
import AdaptiveLL.Exploration
import AdaptiveLL.Hooks
import AdaptiveLL.Network

namespace AdaptiveLL

/-- A rule that a path entered, with the depth of the stack inside it. -/
structure EnteredRule where
  rule : RuleIndex
  precedence : Int
  depth : Nat

/-- A path of one alternative. -/
structure Path where
  state : StateId
  /-- The alternative the path started with, counting from one. -/
  alt : Nat
  stack : CallStack
  precedence : Int
  /-- Whether the path has left the rule of the decision. -/
  leftRule : Bool := false
  /-- Whether predicates count: no action and no token precedes them. -/
  guarded : Bool := true
  entered : List EnteredRule := []

/-- What tells paths apart: the alternative, and the place with its precedence. -/
structure PathKey where
  alt : Nat
  precedence : Int
  place : StackedState

namespace PathKey

instance : Ord PathKey where
  compare := compareLex (compareOn alt) (compareLex (compareOn precedence) (compareOn place))

instance : Std.TransOrd PathKey :=
  inferInstanceAs (Std.TransCmp
    (compareLex (compareOn alt) (compareLex (compareOn precedence) (compareOn place))))

instance : Std.LawfulEqOrd PathKey where
  compare_self := Std.ReflCmp.compare_self
  eq_of_compare {x y} h := by
    change compareLex (compareOn alt)
      (compareLex (compareOn precedence) (compareOn place)) x y = .eq at h
    have same : x.alt = y.alt ∧ x.precedence = y.precedence ∧ x.place = y.place := by
      simpa [compareLex_eq_eq, compareOn] using h
    cases x
    cases y
    simpa using same

end PathKey

/-- Work that may ask the host program and may find the network defective. -/
abbrev Asking := ExceptT NetworkDefect (StateM (Array HookCall))

namespace Path

def key (c : Path) : PathKey :=
  ⟨c.alt, c.precedence, .of c.state c.stack⟩

/-- Whether two paths are at the same place for the same alternative. -/
def same (c d : Path) : Bool :=
  c.alt == d.alt && c.state == d.state && c.precedence == d.precedence && c.stack == d.stack

theorem key_inj {c d : Path} : c.key = d.key ↔ c.same d = true := by
  grind [key, same, StackedState.of_inj]

def isInside (c : Path) (rule : RuleIndex) (precedence : Int) : Bool :=
  c.entered.any fun e => e.rule == rule && e.precedence == precedence

def enter (c : Path) (target : StateId) (rule : RuleIndex) (follow : StateId)
    (precedence : Int) : Path :=
  let stack := ⟨follow, c.precedence⟩ :: c.stack
  { c with state := target, stack, precedence
           entered := ⟨rule, precedence, stack.length⟩ :: c.entered }

/-- Go back to a caller, whose own callers are on `stack`.  A path that gets below
the `outer` frames of the decision has left the rule of the decision. -/
def leave (c : Path) (outer : Nat) (frame : Frame) (stack : CallStack) : Path :=
  let depth := stack.length
  { c with state := frame.returnState, stack, precedence := frame.precedence
           leftRule := c.leftRule || depth < outer
           entered := c.entered.filter fun e => e.depth ≤ depth }

/-- Follow a transition that reads nothing; `none` if it is blocked.  Without a
host program every predicate holds. -/
def follow (n : Network) (host : Option Hooks) (c : Path) : Transition → Asking (Option Path)
  | .epsilon target => return some { c with state := target }
  | .action target _ _ => return some { c with state := target, guarded := false }
  | .call target rule ret level =>
    return if c.isInside rule level then none else some (c.enter target rule ret level)
  | .predicate target rule index => do
    match host with
    | some h =>
      if !c.guarded then return some { c with state := target }
      let holds ← h.ask (n.ruleName rule) (n.predicateText index)
      return if holds then some { c with state := target } else none
    | none => return some { c with state := target }
  | .precedence target level =>
    return if c.precedence ≤ level then some { c with state := target } else none
  | .atom _ _ => return none
  | .set _ _ => return none
  | .wildcard _ => return none

/-- Follow the transitions of a state.  Predicates are asked from the last
transition to the first. -/
def followAll (n : Network) (host : Option Hooks) (c : Path) (ts : List Transition) :
    Asking (List Path) :=
  ts.reverse.foldlM (fun found t => do
    match ← c.follow n host t with
    | none => return found
    | some next => return next :: found) []

/-- Where a path goes at the end of a rule: back to its caller.  A path that ends the
outermost rule goes nowhere. -/
def leaveRule (outer : Nat) (c : Path) : List Path :=
  match c.stack with
  | [] => []
  | frame :: stack => [c.leave outer frame stack]

/-- Where a path can go without reading a token. -/
def successors (n : Network) (host : Option Hooks) (outer : Nat) (c : Path) :
    Asking (List Path) := do
  let s ← n.getState c.state
  if s.isStop then return c.leaveRule outer
  else c.followAll n host s.transitions

/-- Whether a path stands at the end of a rule. -/
def isAtStop (n : Network) (c : Path) : Bool :=
  n.isStop c.state

/-- Whether a path can read a token next or has ended the outermost rule. -/
def isLive (n : Network) (c : Path) : Bool :=
  match n.state? c.state with
  | none => false
  | some s => if s.isStop then c.stack.isEmpty else !s.readsNothing

/-- More steps than a closure needs that takes up each place once for each
alternative: its stacks lie over tails of the stacks it starts with, and carry no
more frames on top than there are calls. -/
def closureBound (n : Network) (paths : List Path) : Nat :=
  let depth := paths.foldl (fun depth c => depth + (c.stack.length + 1)) 0
  let calls := n.calls.length
  let precedences := calls + depth
  let places := (n.states.size + depth) * n.stackBound depth (calls * precedences) * precedences
  paths.length + paths.length * places * (n.transitionCount + 1)

/-- The live paths among all that the given ones can come to. -/
def closure (n : Network) (host : Option Hooks) (outer : Nat) (paths : List Path) :
    Asking (List Path) := do
  let visited ← explore Path.key (successors n host outer) (closureBound n paths) paths {}
  return visited.filter (isLive n)

/-- Move a path over a token by each transition that accepts it. -/
def advance (n : Network) (t : TokenType) (c : Path) : List Path :=
  match n.state? c.state with
  | none => []
  | some s =>
    (s.transitions.filter (Transition.accepts n.maxType t)).map fun tr =>
      { c with state := tr.target, guarded := false, entered := [] }

/-- Add a path unless one is at its place for its alternative. -/
def addTo (paths : List Path) (c : Path) : List Path :=
  if paths.any c.same then paths else paths ++ [c]

/-- Everything some paths can come to by reading one token.  Paths that have ended
the outermost rule stay, unless another path ends a rule only now; at the end of
the input they always stay. -/
def reach (n : Network) (outer : Nat) (t : TokenType) (paths : List Path) :
    Except NetworkDefect (List Path) := do
  let (finished, running) := paths.partition (isAtStop n)
  let moved := running.flatMap (advance n t)
  let reached ← ((closure n none outer moved).run #[]).1
  if t = .eof || !reached.any (isAtStop n) then return finished.foldl addTo reached
  else return reached

/-- Put a number into an ascending list that does not have it yet. -/
def insertAlt (alt : Nat) : List Nat → List Nat
  | [] => [alt]
  | a :: rest =>
    if alt < a then alt :: a :: rest
    else if alt = a then a :: rest
    else a :: insertAlt alt rest

/-- The alternatives that some paths belong to, ascending. -/
def alts (paths : List Path) : List Nat :=
  paths.foldl (fun acc c => insertAlt c.alt acc) []

/-- Whether at every place with a path there is one for the alternative. -/
def coversAll (alt : Nat) (paths : List Path) : Bool :=
  let keys := Std.TreeSet.ofList ((paths.filter fun c => c.alt == alt).map key)
  paths.all fun c => c.alt == alt || keys.contains { c.key with alt }

/-- The lowest alternative of the paths that have left the rule of the decision or
ended the outermost rule. -/
def exitAlt? (n : Network) (paths : List Path) : Option Nat :=
  let gone := paths.filter fun c => c.leftRule || c.stack.isEmpty && c.isAtStop n
  (gone.map Path.alt).min?

end Path

end AdaptiveLL
