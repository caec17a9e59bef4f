/-
A parse under way.

A run walks the network from state to state.  Each pending invocation keeps the
node that is being built for it, so the tree is complete when the outermost
invocation ends.  Everything a run does is noted in order: its events together
with the diagnostics, and its calls of the host program.
-/
import AdaptiveLL.Grammar
import AdaptiveLL.ParseTree.Draft
import AdaptiveLL.Prediction
import AdaptiveLL.Recovery

namespace AdaptiveLL

/-- A rule that is being parsed. -/
structure Invocation where
  rule : RuleIndex
  /-- Where the caller goes on. -/
  follow : StateId
  precedence : Int
  /-- The place in the stream where the rule was entered. -/
  startIndex : Nat
  /-- The tokens that labels name, the name bound first at the front. -/
  labels : List (String × Token) := []
  /-- The token matched last, placeholders included. -/
  lastToken : Option Token := none
  /-- Whether a mismatch ended the rule early; the node keeps a mark of its own. -/
  failed : Bool := false
  /-- The node that is being built. -/
  node : NodeDraft

namespace Invocation

/-- Bind a name to a token, in the place of its former token if it had one. -/
def bindLabel (i : Invocation) (name : String) (t : Token) : Invocation :=
  if i.labels.any fun l => l.1 == name then
    { i with labels := i.labels.map fun l => if l.1 == name then (name, t) else l }
  else { i with labels := i.labels ++ [(name, t)] }

/-- Add a token that was consumed or put in. -/
def addToken (i : Invocation) (t : Token) (isError : Bool) : Invocation :=
  { i with node := i.node.add (if isError then .error t else .leaf t), lastToken := some t }

/-- Start one more level of a left-recursive rule: what was built becomes the first
part of a new node, and names have to be bound again. -/
def wrap (i : Invocation) : Invocation :=
  { i with node := i.node.wrap, labels := [] }

/-- A mismatch ends the rule early: mark the invocation, and its node. -/
def fail (i : Invocation) : Invocation :=
  { i with failed := true, node := i.node.fail }

end Invocation

/-- An entry in the record of a run. -/
inductive Note where
  | event (e : Event)
  | diagnostic (d : Diagnostic)
deriving DecidableEq

/-- The state of a run. -/
structure Run where
  stream : TokenStream
  state : StateId := 0
  /-- The callers of the current rule. -/
  stack : CallStack := []
  /-- The pending invocations, the current one first. -/
  frames : List Invocation := []
  strategy : Strategy := {}
  metrics : Metrics := {}
  notes : Array Note := #[]
  calls : Array HookCall := #[]
  /-- The tree of the outermost invocation, once it has ended. -/
  tree : Option ParseTree := none

/-- Why a state was not passed. -/
inductive Obstacle where
  | mismatch (m : Mismatch)
  | defect (d : NetworkDefect)

/-- What a run works with. -/
structure Interpreter where
  network : Network
  vocabulary : Vocabulary
  hooks : Hooks

namespace Run

def precedence (r : Run) : Int :=
  (r.frames.head?.map Invocation.precedence).getD 0

def modifyFrame (r : Run) (f : Invocation → Invocation) : Run :=
  match r.frames with
  | [] => r
  | i :: rest => { r with frames := f i :: rest }

def emit (r : Run) (e : Event) : Run :=
  { r with notes := r.notes.push (.event e) }

/-- Note reports of text that the lexer could not match. -/
def noteLexErrors (r : Run) (errors : List LexError) : Run :=
  { r with notes := errors.foldl (fun ns e => ns.push (.diagnostic (.ofLexError e))) r.notes }

/-- Note the text that the lexer could not match since it was last asked. -/
def flushLexErrors (r : Run) : Run :=
  let (errors, stream) := r.stream.takeErrors
  { r with stream }.noteLexErrors errors

def carryOut (r : Run) : RepairStep → Run
  | .event e => r.emit e
  | .consume t skipped =>
    let r := r.modifyFrame fun i => i.addToken t skipped
    let r := if t.isEof then r
      else { r with metrics := { r.metrics with tokens := r.metrics.tokens + 1 } }
    r.emit (.consume t skipped)
  | .report lexical d =>
    let r := r.noteLexErrors lexical
    { r with notes := r.notes.push (.diagnostic d)
             metrics := { r.metrics with errors := r.metrics.errors + 1 } }

def enterRule (n : Network) (rule : RuleIndex) (follow : StateId) (precedence : Int) (r : Run) :
    Run :=
  let (startIndex, stream) := r.stream.index
  let name := n.ruleName rule
  let frame : Invocation := { rule, follow, precedence, startIndex, node := { rule := name } }
  let r := { r with stream, frames := frame :: r.frames }.emit (.enterRule name startIndex)
  match n.rule? rule with
  | none => r
  | some info => { r with state := info.start }

/-- Leave the current rule for its caller, if there is one. -/
def exitRule (n : Network) (r : Run) : Run :=
  match r.frames with
  | [] => r
  | i :: rest =>
    let node := i.node.close
    let r := r.emit (.exitRule (n.ruleName i.rule) i.failed)
    match rest with
    | [] => { r with frames := [], tree := some node }
    | caller :: others =>
      { r with
        frames := { caller with node := caller.node.add node } :: others
        stack := r.stack.tail
        state := i.follow }

def events (r : Run) : List Event :=
  r.notes.toList.filterMap fun
    | .event e => some e
    | .diagnostic _ => none

def diagnostics (r : Run) : List Diagnostic :=
  r.notes.toList.filterMap fun
    | .event _ => none
    | .diagnostic d => some d

end Run

end AdaptiveLL
