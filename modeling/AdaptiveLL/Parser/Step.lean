/-
One step of a run: passing a state, or leaving a rule.

A state with several transitions is a decision.  Before it, and where a loop goes
round, the strategy makes the current token fit.  A mismatch that no one repairs
ends the rule: the run goes to its stop state and the strategy skips tokens until
a caller can go on.
-/
import AdaptiveLL.Parser.Run

namespace AdaptiveLL

/-- Work of a run that may fail to pass a state. -/
abbrev Running := ExceptT Obstacle (StateM Run)

namespace Interpreter

variable (interp : Interpreter)

def onStream (f : TokenStream → α × TokenStream) : Running α := do
  modifyGet fun r =>
    let (a, stream) := f r.stream
    (a, { r with stream })

/-- Let the strategy work where the run stands, and carry out what it does. -/
def consult (work : Site → Repairing α) : StateM Run α := fun r =>
  let site : Site := ⟨interp.network, interp.vocabulary, r.state, r.stack⟩
  let (a, repair) := (work site).run { strategy := r.strategy, stream := r.stream }
  let r := { r with strategy := repair.strategy, stream := repair.stream }
  (a, repair.steps.foldl Run.carryOut r)

/-- Let the strategy work; a mismatch it returns stops the step. -/
def tryRepair (work : Site → Repairing (Except Mismatch α)) : Running α := do
  match ← ExceptT.lift (interp.consult work) with
  | .ok a => return a
  | .error m => throw (.mismatch m)

/-- The mismatch of a predicate that does not hold. -/
def failedPredicate (rule : RuleIndex) (predicate : String) : Running α := do
  let t ← onStream fun s => s.peek 1
  let r ← get
  throw (.mismatch (.failedPredicate t (interp.network.ruleName rule) predicate r.state r.stack))

/-- Whether a state is the block that holds the alternatives of its rule. -/
def isRuleBody (id : StateId) : Bool :=
  let first? := do
    let s ← interp.network.state? id
    let info ← interp.network.rule? s.rule
    let start ← interp.network.state? info.start
    start.transitions.head?
  first?.any fun t => t.target == id

/-- Whether a transition leads to the end of a loop. -/
def endsLoop (t : Transition) : Bool :=
  (interp.network.state? t.target).any fun s => s.role == .loopEnd

/-- The alternative that leaves a loop, for a state that decides about one more
round. -/
def wayOut? (s : State) : Option Nat :=
  match s.role with
  | .starLoopEntry _ | .plusLoopBack =>
    (s.transitions.findIdx? (interp.endsLoop)).map (· + 1)
  | _ => none

def notePrediction (id : StateId) (p : Prediction) (r : Run) : Run :=
  let decision := (interp.network.decisionOf? id).getD 0
  let r := { r with metrics.lookahead := max r.metrics.lookahead p.lookahead }
  let r := if p.isAmbiguous then
      { r with metrics.ambiguities := r.metrics.ambiguities + 1 }.emit
        (.ambiguity decision p.conflicting p.alt)
    else r
  let r := r.emit (.predict decision p.alt p.lookahead)
  if interp.isRuleBody id then r.modifyFrame fun i => { i with node := i.node.setAlt p.alt } else r

def failsAtStart (m : Mismatch) : Bool :=
  m.start?.any fun start => start.index == m.offending.index

/-- Choose an alternative.  A loop that cannot start another round with the current
token is left, so that what follows the loop meets the mismatch. -/
def choose (id : StateId) (s : State) : Running Nat := do
  let r ← get
  let decision : Decision := ⟨id, r.stack, r.precedence⟩
  let ((outcome, stream), calls) := decision.decide interp.network interp.hooks r.stream r.calls
  set { r with stream, calls, metrics.decisions := r.metrics.decisions + 1 }
  match outcome with
  | .ok p =>
    modify (interp.notePrediction id p)
    return p.alt
  | .error (.defect d) => throw (.defect d)
  | .error (.mismatch m) =>
    match interp.wayOut? s, failsAtStart m with
    | some exit, true => return exit
    | _, _ => throw (.mismatch m)

/-- Find a token for one that did not match.  The placeholder of a missing token
becomes an error leaf. -/
def repairInline : Running Token := do
  let t ← interp.tryRepair Repairing.repairInline
  if t.isPlaceholder then modify fun r => r.modifyFrame fun i => i.addToken t true
  return t

/-- Bind the label of a state, if it has one, to the token that was matched there. -/
def bindLabel (s : State) (matched : Token) : Running Unit :=
  match s.label with
  | none => return
  | some name => modify fun r => r.modifyFrame fun i => i.bindLabel name matched

/-- Consume the current token if the transition accepts it, and else repair; then
bind the label of the state. -/
def matchToken (s : State) (t : Transition) : Running Unit := do
  let current ← onStream fun stream => stream.peek 1
  let matched ← if t.accepts interp.network.maxType current.type then do
      ExceptT.lift (interp.consult fun _ => do
        Repairing.matched
        Repairing.consume false)
      pure current
    else interp.repairInline
  bindLabel s matched

/-- Call a rule.  A rule that was entered here before with the same precedence would
be entered forever. -/
def callRule (rule : RuleIndex) (follow : StateId) (precedence : Int) : Running Unit := do
  let index ← onStream TokenStream.index
  let r ← get
  if r.frames.any fun i =>
      i.rule == rule && i.startIndex == index && i.precedence == precedence then
    throw (.defect (.recursionCycle (interp.network.ruleName rule) index))
  let r := { r with stack := ⟨follow, r.precedence⟩ :: r.stack }
  set (r.enterRule interp.network rule follow precedence)

def invocationText : Running String := do
  let start := ((← get).frames.head?.map Invocation.startIndex).getD 0
  match ← onStream fun s => s.previous 1 with
  | none => return ""
  | some t =>
    if 0 ≤ t.index && (start : Int) ≤ t.index then onStream fun s => s.text start t.index.toNat
    else return ""

/-- Call the host program for an action of the current invocation. -/
def callAction (text read : String) (r : Run) : Run :=
  match r.frames with
  | [] => r
  | i :: _ =>
    let context : ActionView := {
      rule := interp.network.ruleName i.rule
      lastToken := i.lastToken
      labels := i.labels
      expected := interp.vocabulary.displaySet (interp.network.expected r.state r.stack)
      text := read }
    { r with calls := r.calls.push (.action context text) }

def performAction (text : String) : Running Unit := do
  let read ← invocationText
  modify (interp.callAction text read)

def askPredicate (rule : RuleIndex) (text : String) : Running Bool := do
  modifyGet fun r =>
    let (value, calls) := (interp.hooks.ask (interp.network.ruleName rule) text).run r.calls
    (value, { r with calls })

def take (s : State) (t : Transition) : Running Unit := do
  match t with
  | .epsilon target =>
    if s.role == .starLoopEntry true && !interp.endsLoop t then
      modify fun r => r.modifyFrame Invocation.wrap
    goto target
  | .atom target _ | .set target _ | .wildcard target =>
    interp.matchToken s t
    goto target
  | .call _ rule follow precedence => interp.callRule rule follow precedence
  | .predicate target rule index =>
    let text := interp.network.predicateText index
    unless ← interp.askPredicate rule text do interp.failedPredicate rule text
    goto target
  | .precedence target level =>
    if level < (← get).precedence then
      interp.failedPredicate s.rule ("precpred(_ctx, " ++ toString level ++ ")")
    goto target
  | .action target _ index =>
    interp.performAction (interp.network.actionText index)
    goto target
where
  /-- Go on at a state. -/
  goto (target : StateId) : Running Unit :=
    modify fun r => { r with state := target }

/-- Whether the strategy is asked at a state that has no choice. -/
def alignsAlone (s : State) : Bool :=
  s.role == .starLoopBack || s.role == .plusBlockStart

/-- The alternative to take at a state. -/
def alternative (id : StateId) (s : State) : Running Nat := do
  if s.isDecision then
    interp.tryRepair Repairing.align
    interp.choose id s
  else
    if alignsAlone s then interp.tryRepair Repairing.align
    return 1

def visit (id : StateId) (s : State) : Running Unit := do
  let alt ← interp.alternative id s
  match s.transitions[alt - 1]? with
  | none => throw (.defect (.emptyDecision id))
  | some t => interp.take s t

/-- Mark the current rule and its node, and go to the end of the rule. -/
def abandon (r : Run) : Run :=
  let r := r.modifyFrame Invocation.fail
  match r.frames.head?.bind fun i => interp.network.rule? i.rule with
  | none => r
  | some info => { r with state := info.stop }

/-- End the current rule because of a mismatch. -/
def giveUp (m : Mismatch) : StateM Run Unit := do
  modify interp.abandon
  interp.consult fun site => do
    Repairing.reportMismatch site m
    Repairing.resynchronize site

/-- How a step ends. -/
inductive StepEnd where
  | running
  | finished
  | defect (d : NetworkDefect)

def step : StateM Run StepEnd := do
  let r ← get
  match interp.network.getState r.state with
  | .error d => return .defect d
  | .ok s =>
    if s.isStop then
      set (r.exitRule interp.network)
      return if r.frames.length ≤ 1 then .finished else .running
    else
      match ← (interp.visit r.state s).run with
      | .ok () => return .running
      | .error (.defect d) => return .defect d
      | .error (.mismatch m) =>
        interp.giveUp m
        return .running

end Interpreter

end AdaptiveLL
