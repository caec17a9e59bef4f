/-
From rule bodies to transition graphs.

Every expression becomes a segment with one entry and one exit state.  Sequences
are chained by empty transitions, choices and loops have entry and exit states of
their own.  A choice that is a part of a loop or an option lends its alternatives
to it instead of becoming a choice inside.
-/
import AdaptiveLL.Grammar.Defect
import AdaptiveLL.Vocabulary

namespace AdaptiveLL

/-- A part of a graph that is entered and left at one state each. -/
structure Segment where
  entry : StateId
  exit : StateId

/-- Work on a graph under construction. -/
abbrev Wiring := StateT Graph (Except GrammarDefect)

/-- What the parts of a rule body refer to. -/
structure WiringScope where
  vocabulary : Vocabulary
  rule : RuleIndex
  ruleName : String

/-- How an expression is wired: by itself, and as the alternatives it lends to
a loop or an option around it. -/
structure WiredExpr where
  whole : Wiring Segment
  alternatives : List (Wiring Segment)

namespace WiredExpr

/-- An expression that is its own only alternative. -/
def single (whole : Wiring Segment) : WiredExpr :=
  ⟨whole, [whole]⟩

end WiredExpr

namespace WiringScope

variable (scope : WiringScope)

def newState (role : StateRole) : Wiring StateId :=
  modifyGet fun g => g.addState role scope.rule

def connect (source target : StateId) : Wiring Unit :=
  modify fun g => g.addTransition source (.epsilon target)

def edge (make : StateId → Transition) : Wiring Segment := do
  let entry ← scope.newState .basic
  let exit ← scope.newState .basic
  modify fun g => g.addTransition entry (make exit)
  return ⟨entry, exit⟩

def tokenType (e : Expr) : Except GrammarDefect TokenType :=
  match e with
  | .literal text =>
    match scope.vocabulary.typeOfLiteral? text with
    | some t => .ok t
    | none => .error (.undefinedToken ("'" ++ text ++ "'") scope.ruleName)
  | .token name =>
    match scope.vocabulary.typeOfName? name with
    | some t => .ok t
    | none => .error (.undefinedToken name scope.ruleName)
  | .eof => .ok .eof
  | _ => .error (.undefinedToken "?" scope.ruleName)

def tokenEdge (e : Expr) : Wiring Segment := do
  let t ← scope.tokenType e
  scope.edge fun target => .atom target t

def callEdge (name : String) (precedence : Int) : Wiring Segment := do
  let g ← get
  match (g.ruleIndex? name).bind fun i => (g.rule? i).map fun r => (i, r.start) with
  | none => throw (.undefinedRule name scope.ruleName)
  | some (rule, start) =>
    let entry ← scope.newState .basic
    let follow ← scope.newState .basic
    modify fun g => g.addTransition entry (.call start rule follow precedence)
    return ⟨entry, follow⟩

/-- Alternatives between a start and an end state. -/
def block (role : StateRole) (alternatives : List (Wiring Segment)) : Wiring Segment := do
  let entry ← scope.newState role
  let exit ← scope.newState .blockEnd
  for alternative in alternatives do
    let segment ← alternative
    connect entry segment.entry
    connect segment.exit exit
  return ⟨entry, exit⟩

/-- A loop that is entered at a decision between one more round and its end. -/
def starLoop (operators : Bool) (alternatives : List (Wiring Segment)) : Wiring Segment := do
  let entry ← scope.newState (.starLoopEntry operators)
  let body ← scope.block .starBlockStart alternatives
  let back ← scope.newState .starLoopBack
  let exit ← scope.newState .loopEnd
  connect entry body.entry
  connect entry exit
  connect body.exit back
  connect back entry
  return ⟨entry, exit⟩

/-- A loop that decides behind each round whether another one follows. -/
def plusLoop (alternatives : List (Wiring Segment)) : Wiring Segment := do
  let body ← scope.block .plusBlockStart alternatives
  let back ← scope.newState .plusLoopBack
  let exit ← scope.newState .loopEnd
  connect body.exit back
  connect back body.entry
  connect back exit
  return ⟨body.entry, exit⟩

/-- Join segments one behind the other; none make an empty transition. -/
def chain : List Segment → Wiring Segment
  | [] => scope.edge .epsilon
  | [s] => return s
  | s :: next :: rest => do
    connect s.exit next.entry
    let tail ← chain (next :: rest)
    return ⟨s.entry, tail.exit⟩

/-- A choice: one transition if it is between tokens, else a block. -/
def choice (alternatives : List Expr) (wired : List (Wiring Segment)) : Wiring Segment :=
  if Expr.formTokenChoice alternatives then do
    let types ← alternatives.mapM fun e => (scope.tokenType e : Wiring TokenType)
    scope.edge fun target => .set target (.ofList types)
  else
    match wired with
    | [] => throw (.emptyChoice scope.ruleName)
    | [only] => only
    | _ => scope.block .blockStart wired

/-- A choice, which lends its alternatives unless it is between tokens or has one
alternative only. -/
def choiceParts (alternatives : List Expr) (wired : List (Wiring Segment)) : WiredExpr :=
  let whole := scope.choice alternatives wired
  if Expr.formTokenChoice alternatives || alternatives.length ≤ 1 then .single whole
  else ⟨whole, wired⟩

/-- A segment whose token has a name. -/
def labelled (name : String) (body : Expr) (wired : Wiring Segment) : Wiring Segment :=
  if !body.isOneToken then throw (.misplacedLabel name scope.ruleName)
  else do
    let segment ← wired
    modify fun g => g.setLabel segment.entry name
    return segment

mutual

def wire : Expr → WiredExpr
  | .literal text => .single (scope.tokenEdge (.literal text))
  | .token name => .single (scope.tokenEdge (.token name))
  | .eof => .single (scope.tokenEdge .eof)
  | .wildcard => .single (scope.edge .wildcard)
  | .empty => .single (scope.edge .epsilon)
  | .action text => .single do
    let index ← modifyGet fun g => g.addAction text
    scope.edge fun target => .action target scope.rule index
  | .predicate text => .single do
    let index ← modifyGet fun g => g.addPredicate text
    scope.edge fun target => .predicate target scope.rule index
  | .precedence level => .single (scope.edge fun target => .precedence target level)
  | .rule name precedence => .single (scope.callEdge name precedence)
  | .seq items =>
    let wired := wireAll items
    .single do scope.chain (← wired.mapM id)
  | .choice alternatives => scope.choiceParts alternatives (wireAll alternatives)
  | .optional body =>
    let wired := wire body
    .single (scope.block .blockStart (wired.alternatives ++ [scope.edge .epsilon]))
  | .star body => .single (scope.starLoop false (wire body).alternatives)
  | .operatorLoop body => .single (scope.starLoop true (wire body).alternatives)
  | .plus body => .single (scope.plusLoop (wire body).alternatives)
  | .label name body => .single (scope.labelled name body (wire body).whole)
  | .rightAssoc body => .single (wire body).whole

def wireAll : List Expr → List (Wiring Segment)
  | [] => []
  | e :: rest => (wire e).whole :: wireAll rest

end

end WiringScope

/-- Wire the body of a rule between its start and stop state. -/
def wireRule (v : Vocabulary) (index : RuleIndex) (r : Rule) : Wiring Unit := do
  let scope : WiringScope := ⟨v, index, r.name⟩
  let segment ← (scope.wire r.body).whole
  match (← get).rule? index with
  | none => return
  | some info =>
    WiringScope.connect info.start segment.entry
    WiringScope.connect segment.exit info.stop

/-- The graph of some rules; the rule at place `i` gets number `i`. -/
def wireRules (rules : List Rule) (v : Vocabulary) : Except GrammarDefect Graph := do
  let g := rules.foldl (fun (g : Graph) r => g.addRule r.name r.leftRecursive) {}
  let work := rules.zipIdx.forM fun (r, index) => wireRule v index r
  let ((), g) ← work.run g
  return g

end AdaptiveLL
