/-
The host program behind a grammar.

Predicates and actions are known by their texts.  The host program is a function
of the calls made so far: it may answer a predicate differently the second time,
or after an action, but it cannot see more than what it was called with.
-/
import AdaptiveLL.Token

namespace AdaptiveLL

/-- What an action sees of the rule invocation it runs in. -/
structure ActionView where
  rule : String
  /-- The token matched last in this invocation, placeholders included. -/
  lastToken : Option Token
  /-- The tokens named by labels, the name bound first at the front. -/
  labels : List (String × Token)
  /-- The acceptable tokens, as a message names them. -/
  expected : String
  /-- The text that this invocation has read. -/
  text : String
deriving DecidableEq

/-- The token a label names. -/
def ActionView.label? (c : ActionView) (name : String) : Option Token :=
  c.labels.reverse.lookup name

/-- A call of the host program, with its answer. -/
inductive HookCall where
  | predicate (rule text : String) (value : Bool)
  | action (context : ActionView) (text : String)
deriving DecidableEq

/-- A host program, as far as it can influence a parse. -/
structure Hooks where
  /-- Whether a predicate of a rule holds after the calls made so far. -/
  holds : Array HookCall → (rule text : String) → Bool

namespace Hooks

/-- The host program whose predicates have a fixed value. -/
def fixed (value : String → Bool) : Hooks :=
  ⟨fun _ _ text => value text⟩

/-- The host program whose predicates all hold. -/
def permissive : Hooks :=
  fixed fun _ => true

/-- Ask for a predicate and note the answer. -/
def ask (h : Hooks) (rule text : String) : StateM (Array HookCall) Bool := fun calls =>
  let value := h.holds calls rule text
  (value, calls.push (.predicate rule text value))

end Hooks

end AdaptiveLL
