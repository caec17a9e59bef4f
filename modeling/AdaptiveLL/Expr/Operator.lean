/-
Left recursion as operators.

A rule that starts some of its alternatives with a call of itself is turned
into its other alternatives, the primaries, followed by a loop over operators.
Of `n` alternatives the `i`-th has precedence `n - i + 1`, so an earlier one binds
tighter.  An operator is taken only where its precedence is at least that of the
invocation, and its right operand is called with the next higher precedence, or
with its own if it groups to the right.
-/
import AdaptiveLL.Expr

namespace AdaptiveLL

/-- Why a left-recursive rule has no meaning. -/
inductive OperatorDefect where
  /-- An alternative, by its number, that is a call of its own rule only. -/
  | selfAlternative (alternative : Nat)
  /-- Every alternative starts with a call of its own rule. -/
  | noPrimary
deriving DecidableEq

/-- What becomes of an alternative. -/
inductive Operand where
  | operator (body : Expr)
  | primary (body : Expr)

namespace Expr

def startsWithCall (rule : String) (alternative : Expr) : Bool :=
  alternative.elements.head?.any (isCallOf rule)

/-- Whether some alternative of a body starts with a call of the rule. -/
def isLeftRecursive (rule : String) (body : Expr) : Bool :=
  body.alternatives.any (startsWithCall rule)

def isRightAssoc : Expr → Bool
  | .rightAssoc _ => true
  | _ => false

/-- The actions and predicates at the end of an alternative. -/
def trailingSemantics (elements : List Expr) : List Expr :=
  (elements.reverse.takeWhile isSemantic).reverse

def withoutTrailing (elements : List Expr) : List Expr :=
  (elements.reverse.dropWhile isSemantic).reverse

/-- What the alternative of a precedence becomes.  A call of the rule at the left end
is the left operand and disappears; one at the right end, if it is not the whole,
is the right operand and gets its precedence. -/
def toOperand (rule : String) (precedence : Int) (alternative : Expr) : Operand :=
  let elements := alternative.elements
  let core := withoutTrailing elements
  let trailing := trailingSemantics elements
  let starts := startsWithCall rule alternative
  let ends := 1 < core.length && core.getLast?.any (isCallOf rule)
  let next := if isRightAssoc alternative then precedence else precedence + 1
  match starts, ends with
  | true, true =>
    .operator (.seq (.precedence precedence :: core.tail.dropLast ++ .rule rule next :: trailing))
  | true, false => .operator (.seq (.precedence precedence :: elements.tail))
  | false, true => .primary (.seq (core.dropLast ++ .rule rule precedence :: trailing))
  | false, false => .primary (.seq elements)

/-- A sequence of one item is that item. -/
def unwrapOnly : Expr → Expr
  | .seq [e] => e
  | e => e

/-- The number, from one, of the first alternative that is only a call of its rule. -/
def selfAlternative? (rule : String) (body : Expr) : Option Nat :=
  (body.alternatives.findIdx? fun a =>
    startsWithCall rule a && a.elements.length == 1).map (· + 1)

/-- The alternatives of a body with their precedences, as operators and primaries. -/
def operands (rule : String) (body : Expr) : List Operand :=
  let alternatives := body.alternatives
  alternatives.mapIdx fun i a => toOperand rule ((alternatives.length : Int) - (i : Int)) a

def operators (operands : List Operand) : List Expr :=
  operands.filterMap fun
    | .operator body => some body
    | .primary _ => none

def primaries (operands : List Operand) : List Expr :=
  operands.filterMap fun
    | .primary body => some body
    | .operator _ => none

def loopOver : List Expr → Expr
  | [e] => .operatorLoop e
  | es => .operatorLoop (.choice es)

/-- The operator form of the body of a rule, if it is left-recursive. -/
def toOperatorForm (rule : String) (body : Expr) : Except OperatorDefect (Option Expr) :=
  if !body.isLeftRecursive rule then .ok none
  else
    match body.selfAlternative? rule with
    | some number => .error (.selfAlternative number)
    | none =>
      let operands := body.operands rule
      let loop := loopOver (operators operands)
      match primaries operands with
      | [] => .error .noPrimary
      | [e] => .ok (some (.seq [e, loop]))
      | es => .ok (some (.seq [.choice (es.map unwrapOnly), loop]))

end Expr

end AdaptiveLL
