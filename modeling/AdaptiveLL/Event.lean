/-
What a parser does, step by step.
-/
import AdaptiveLL.Token

namespace AdaptiveLL

/-- A step of a parse, for those who want to watch it. -/
inductive Event where
  /-- A rule was entered at a place of the stream. -/
  | enterRule (rule : String) (index : Nat)
  /-- A rule was left, and whether a mismatch was met in it. -/
  | exitRule (rule : String) (failed : Bool)
  /-- A decision was taken after looking at some tokens. -/
  | predict (decision alt lookahead : Nat)
  /-- Several alternatives were left and the lowest was taken. -/
  | ambiguity (decision : Nat) (alts : List Nat) (chosen : Nat)
  /-- A token was consumed, and whether it was skipped by a repair. -/
  | consume (token : Token) (skipped : Bool)
  /-- A token was put in for a missing one. -/
  | insert (token : Token)
  /-- Recovery began at a token. -/
  | beginRecovery (token : Token)
  /-- A token was matched again. -/
  | endRecovery
  /-- Some tokens were skipped to find one that fits. -/
  | resync (skipped : Nat)
deriving DecidableEq

namespace Event

/-- Whether several alternatives were left. -/
def isAmbiguity : Event → Bool
  | .ambiguity _ _ _ => true
  | _ => false

end Event

structure Metrics where
  /-- Tokens consumed, skipped ones included. -/
  tokens : Nat := 0
  /-- Decisions taken. -/
  decisions : Nat := 0
  /-- The most tokens a decision looked at. -/
  lookahead : Nat := 0
  /-- Decisions with several alternatives left. -/
  ambiguities : Nat := 0
  /-- Mismatches reported. -/
  errors : Nat := 0
deriving DecidableEq

def Metrics.merge (a b : Metrics) : Metrics :=
  ⟨a.tokens + b.tokens, a.decisions + b.decisions, max a.lookahead b.lookahead,
    a.ambiguities + b.ambiguities, a.errors + b.errors⟩

end AdaptiveLL
