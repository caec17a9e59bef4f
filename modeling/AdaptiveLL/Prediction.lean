/-
Choosing an alternative.

A prediction moves the paths of all alternatives over the tokens ahead, under the
stack that the parser is at.  It is settled when one alternative is left, when the
lowest one is at every place that any of them is at, or at the end of the input,
where the lowest one wins.  If no path can go on, the lowest alternative that has
left the rule of the decision is taken, and the parser will meet the token that
does not fit.
-/
import AdaptiveLL.Mismatch
import AdaptiveLL.Prediction.Path
import AdaptiveLL.TokenStream

namespace AdaptiveLL

structure Prediction where
  /-- The alternative, counting from one. -/
  alt : Nat
  /-- The number of tokens that were looked at. -/
  lookahead : Nat
  /-- The alternatives that were left when the lowest was taken, if several. -/
  conflicting : List Nat
deriving DecidableEq

def Prediction.isAmbiguous (p : Prediction) : Bool :=
  1 < p.conflicting.length

/-- Why a decision has no outcome. -/
inductive PredictionFailure where
  | mismatch (m : Mismatch)
  | defect (d : NetworkDefect)
deriving DecidableEq

/-- A decision to be taken: where, under which stack, with which precedence. -/
structure Decision where
  state : StateId
  stack : CallStack
  precedence : Int

namespace Decision

/-- The path that an alternative starts on. -/
def startPath (d : Decision) (alt : Nat) : Path :=
  { state := d.state, alt, stack := d.stack, precedence := d.precedence }

/-- The first step of every alternative that is not blocked. -/
def firstSteps (n : Network) (hooks : Hooks) (d : Decision) (ts : List Transition) :
    Asking (List Path) := do
  let steps ← ts.zipIdx.mapM fun (t, i) => (d.startPath (i + 1)).follow n (some hooks) t
  return steps.filterMap id

/-- The paths of all alternatives before a token is read. -/
def start (n : Network) (hooks : Hooks) (d : Decision) (ts : List Transition) :
    Asking (List Path) := do
  Path.closure n (some hooks) d.stack.length (← d.firstSteps n hooks ts)

/-- What paths that cannot go on, after `depth` tokens, decide. -/
def stuck (n : Network) (d : Decision) (first offending : Token) (depth : Nat)
    (paths : List Path) : Except PredictionFailure Prediction :=
  match Path.exitAlt? n paths with
  | some alt => .ok ⟨alt, max depth 1, []⟩
  | none => .error (.mismatch (.noViable first offending d.state d.stack))

/-- Move paths over the tokens ahead until they decide.  `first` is the first token
of the decision and `depth` the number of tokens moved over. -/
def simulate (n : Network) (d : Decision) (first : Token) :
    (rounds depth : Nat) → List Path → TokenStream →
      Except PredictionFailure Prediction × TokenStream
  | 0, depth, paths, s => (d.stuck n first first depth paths, s)
  | rounds + 1, depth, paths, s =>
    let (offending, s) := s.peek 1
    match Path.reach n d.stack.length offending.type paths with
    | .error defect => (.error (.defect defect), s)
    | .ok reached =>
      match Path.alts reached with
      | [] => (d.stuck n first offending depth paths, s)
      | [alt] => (.ok ⟨alt, depth + 1, []⟩, s)
      | alt :: others =>
        if offending.isEof || Path.coversAll alt reached then
          (.ok ⟨alt, depth + 1, alt :: others⟩, s)
        else simulate n d first rounds (depth + 1) reached s.consume

/-- Take a decision and leave the stream where it was.  Every round but the last
moves over a token, so the tokens still to come bound the rounds. -/
def decide (n : Network) (hooks : Hooks) (d : Decision) (s : TokenStream)
    (calls : Array HookCall) :
    (Except PredictionFailure Prediction × TokenStream) × Array HookCall :=
  match n.getState d.state with
  | .error defect => ((.error (.defect defect), s), calls)
  | .ok state =>
    if state.transitions.isEmpty then ((.error (.defect (.emptyDecision d.state)), s), calls)
    else
      let (mark, s) := s.index
      let (first, s) := s.peek 1
      match (d.start n hooks state.transitions).run calls with
      | (.error defect, calls) => ((.error (.defect defect), s.seek mark), calls)
      | (.ok paths, calls) =>
        let (outcome, s) := d.simulate n first (s.horizon + 1) 0 paths s
        ((outcome, s.seek mark), calls)

end Decision

end AdaptiveLL
