/-
Mismatches between the input and the grammar, and their reports.

A mismatch is what a parser runs into; a diagnostic is the line that tells of it.
-/
import AdaptiveLL.CallStack
import AdaptiveLL.Lexer

namespace AdaptiveLL

/-- A token that does not fit, with the state and the stack it was met under. -/
inductive Mismatch where
  /-- A token was met that is not acceptable. -/
  | unexpected (offending : Token) (state : StateId) (stack : CallStack)
  /-- No alternative can read the tokens from `start` to the offending one. -/
  | noViable (start offending : Token) (state : StateId) (stack : CallStack)
  /-- A predicate does not hold. -/
  | failedPredicate (offending : Token) (rule predicate : String) (state : StateId)
      (stack : CallStack)
deriving DecidableEq

namespace Mismatch

/-- The token that does not fit. -/
def offending : Mismatch → Token
  | .unexpected offending _ _ => offending
  | .noViable _ offending _ _ => offending
  | .failedPredicate offending _ _ _ _ => offending

def state : Mismatch → StateId
  | .unexpected _ state _ => state
  | .noViable _ _ state _ => state
  | .failedPredicate _ _ _ state _ => state

def stack : Mismatch → CallStack
  | .unexpected _ _ stack => stack
  | .noViable _ _ _ stack => stack
  | .failedPredicate _ _ _ _ stack => stack

/-- The first token of the decision that failed, if a decision failed. -/
def start? : Mismatch → Option Token
  | .noViable start _ _ _ => some start
  | _ => none

def message : Mismatch → String
  | .unexpected offending _ _ => "mismatched input " ++ quoted offending.text
  | .noViable _ offending _ _ => "no viable alternative at input " ++ quoted offending.text
  | .failedPredicate _ rule predicate _ _ =>
    "rule " ++ rule ++ " failed predicate: \x7b" ++ predicate ++ "\x7d?"

end Mismatch

inductive DiagnosticKind where
  | tokenRecognition
  | mismatchedInput
  | extraneousInput
  | missingToken
  | noViableAlternative
  | failedPredicate
deriving DecidableEq

def DiagnosticKind.code : DiagnosticKind → String
  | .tokenRecognition => "lexer::token_recognition"
  | .mismatchedInput => "parser::mismatched_input"
  | .extraneousInput => "parser::extraneous_input"
  | .missingToken => "parser::missing_token"
  | .noViableAlternative => "parser::no_viable_alternative"
  | .failedPredicate => "parser::failed_predicate"

/-- A reported problem.  Reports of unmatched text have no token. -/
structure Diagnostic where
  kind : DiagnosticKind
  line : Nat
  column : Nat
  message : String
  tokenIndex : Option Int := none
deriving DecidableEq

namespace Diagnostic

def atToken (kind : DiagnosticKind) (t : Token) (message : String) : Diagnostic :=
  ⟨kind, t.line, t.column, message, some t.index⟩

/-- The report of a stretch of unmatched text. -/
def ofLexError (e : LexError) : Diagnostic :=
  ⟨.tokenRecognition, e.line, e.column, e.message, none⟩

def render (d : Diagnostic) : String :=
  "line " ++ toString d.line ++ ":" ++ toString d.column ++ " " ++ d.message

/-- Reports as lines that each end in a line feed. -/
def renderAll (ds : List Diagnostic) : String :=
  String.join (ds.map fun d => d.render ++ "\n")

end Diagnostic

end AdaptiveLL
