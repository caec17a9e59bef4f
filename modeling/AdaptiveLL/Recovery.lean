/-
Getting back in step with the input.

The strategy is asked before decisions and when a token does not match, and it is
told of mismatches that no one could repair.  It drops one token if the next one
fits, puts a token in if the current one fits behind it, and else skips tokens
until one fits that some caller can go on with.  From its first report until the
next match it is recovering, and reports nothing more.

What the strategy does is a list of repair steps for the parser to carry out; it
moves the stream itself, and sees nothing of the parser but the site.
-/
import AdaptiveLL.Event
import AdaptiveLL.Mismatch
import AdaptiveLL.Network
import AdaptiveLL.Recovery.Placeholder
import AdaptiveLL.TokenStream

namespace AdaptiveLL

/-- Where the parser stands. -/
structure Site where
  network : Network
  vocabulary : Vocabulary
  state : StateId
  stack : CallStack

def Site.expected (site : Site) : TypeSet :=
  site.network.expected site.state site.stack

/-- What the strategy remembers from one call to the next. -/
structure Strategy where
  recovering : Bool := false
  /-- Where the last mismatch that ended a rule was. -/
  lastIndex : Option Nat := none
  /-- The states in which rules ended because of mismatches since the last match. -/
  lastStates : List StateId := []

/-- A step for the parser to carry out. -/
inductive RepairStep where
  /-- A token was consumed, and whether it was skipped. -/
  | consume (token : Token) (skipped : Bool)
  /-- A mismatch was found; the text that the lexer could not match before that
  comes first. -/
  | report (lexical : List LexError) (diagnostic : Diagnostic)
  | event (e : Event)

/-- A repair under way: what the strategy knows, where the stream is, and the
steps so far in order. -/
structure Repair where
  strategy : Strategy
  stream : TokenStream
  steps : List RepairStep := []

/-- Work of the strategy. -/
abbrev Repairing := StateM Repair

namespace Repairing

def onStream (f : TokenStream → α × TokenStream) : Repairing α := fun r =>
  let (a, stream) := f r.stream
  (a, { r with stream })

def peek (k : Nat) : Repairing Token :=
  onStream fun s => s.peek k

/-- Whether a mismatch was reported since the last match. -/
def isRecovering : Repairing Bool := do
  return (← get).strategy.recovering

def push (step : RepairStep) : Repairing Unit :=
  modify fun r => { r with steps := r.steps ++ [step] }

def consume (skipped : Bool) : Repairing Unit := do
  push (.consume (← peek 1) skipped)
  onStream fun s => ((), s.consume)

def report (kind : DiagnosticKind) (t : Token) (message : String) : Repairing Unit := do
  let lexical ← onStream TokenStream.takeErrors
  push (.report lexical (.atToken kind t message))

def begin : Repairing Unit := do
  modify fun r => { r with strategy := { r.strategy with recovering := true } }
  push (.event (.beginRecovery (← peek 1)))

/-- A token was matched: nothing is left to recover from. -/
def matched : Repairing Unit := do
  if ← isRecovering then push (.event .endRecovery)
  modify fun r => { r with strategy := {} }

def unexpected (site : Site) : Repairing Mismatch := do
  return .unexpected (← peek 1) site.state site.stack

/-- Consume tokens, at most `count`, until one is in the set or the input ends;
the number of tokens consumed. -/
def skipIn (set : TypeSet) : (count : Nat) → Repairing Nat
  | 0 => return 0
  | count + 1 => do
    let t ← peek 1
    if t.isEof || set.contains t.type then return 0
    consume (← isRecovering)
    return (← skipIn set count) + 1

/-- Consume tokens until one is in the set or the input ends. -/
def skipTo (set : TypeSet) : Repairing Unit := do
  let skipped ← skipIn set ((← get).stream.horizon + 1)
  if 0 < skipped then push (.event (.resync skipped))

/-- Report that the current token does not belong where it is. -/
def reportUnwanted (site : Site) : Repairing Unit := do
  unless ← isRecovering do
    begin
    let t ← peek 1
    report .extraneousInput t ("extraneous input " ++ quoted t.text ++ " expecting "
      ++ site.vocabulary.displaySet site.expected)

/-- Report that a token is missing in front of the current one. -/
def reportMissing (site : Site) : Repairing Unit := do
  unless ← isRecovering do
    begin
    let t ← peek 1
    report .missingToken t ("missing " ++ site.vocabulary.displaySet site.expected ++ " at "
      ++ quoted t.text)

/-- The text from the first token of a decision to the one that does not fit. -/
def viableText (start offending : Token) : Repairing String :=
  if start.isEof then return "<EOF>"
  else onStream fun s => s.text start.index.toNat offending.index.toNat

/-- Report a mismatch that ended a rule, unless one was reported already. -/
def reportMismatch (site : Site) (m : Mismatch) : Repairing Unit := do
  unless ← isRecovering do
    begin
    match m with
    | .noViable start offending _ _ =>
      let input ← viableText start offending
      report .noViableAlternative offending ("no viable alternative at input " ++ quoted input)
    | .unexpected offending state stack =>
      report .mismatchedInput offending ("mismatched input " ++ quoted offending.text
        ++ " expecting " ++ site.vocabulary.displaySet (site.network.expected state stack))
    | .failedPredicate offending _ _ _ _ =>
      report .failedPredicate offending m.message

/-- Drop the current token if the one behind it is expected. -/
def dropOne (site : Site) : Repairing (Option Token) := do
  let next ← peek 2
  if site.expected.contains next.type then
    reportUnwanted site
    consume true
    let t ← peek 1
    matched
    return some t
  else return none

/-- Whether a token in front of the current one would let the parse go on; if so
it is reported as missing. -/
def canInsert (site : Site) : Repairing Bool := do
  let current ← peek 1
  match (site.network.state? site.state).bind fun s => s.transitions.head? with
  | none => return false
  | some t =>
    if (site.network.lookInContext t.target site.stack).contains current.type then
      reportMissing site
      return true
    else return false

/-- Find a token for one that did not match: the token behind an unwanted one, or a
placeholder for a missing one. -/
def repairInline (site : Site) : Repairing (Except Mismatch Token) := do
  match ← dropOne site with
  | some t =>
    consume false
    return .ok t
  | none =>
    if ← canInsert site then
      let current ← peek 1
      let previous ← onStream fun s => s.previous 1
      let t := site.vocabulary.placeholder site.expected current previous
      push (.event (.insert t))
      return .ok t
    else return .error (← unexpected site)

/-- Drop the current token where a block or a loop begins, if that helps. -/
def dropBefore (site : Site) : Repairing (Except Mismatch Unit) := do
  match ← dropOne site with
  | some _ => return .ok ()
  | none => return .error (← unexpected site)

/-- Make the current token fit before a decision.  Where a block or a loop begins, an
unwanted token is dropped; where a loop goes round, tokens are skipped until one
continues it or follows a pending call. -/
def align (site : Site) : Repairing (Except Mismatch Unit) := do
  if ← isRecovering then return .ok ()
  let current ← peek 1
  if current.isEof || site.network.expects site.state site.stack current.type then return .ok ()
  match (site.network.state? site.state).map State.role with
  | some .blockStart | some .starBlockStart | some .plusBlockStart | some (.starLoopEntry _) =>
    dropBefore site
  | some .starLoopBack | some .plusLoopBack =>
    reportUnwanted site
    skipTo (site.expected.union (site.network.recoverySet site.stack))
    return .ok ()
  | _ => return .ok ()

/-- Skip tokens behind a mismatch that ended a rule.  If the rule ended in the same
state at the same token before, that token is skipped first. -/
def resynchronize (site : Site) : Repairing Unit := do
  let last := (← get).strategy
  let index ← onStream TokenStream.index
  if last.lastIndex = some index && last.lastStates.contains site.state then consume true
  let index ← onStream TokenStream.index
  modify fun r => { r with strategy := { r.strategy with
    lastIndex := some index
    lastStates := if last.lastStates.contains site.state then last.lastStates
      else last.lastStates ++ [site.state] } }
  skipTo (site.network.recoverySet site.stack)

end Repairing

end AdaptiveLL
