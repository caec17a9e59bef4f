/-
Which rules can match nothing.

The nullable rules are the least set of rules that contains each rule whose body
is nullable under it.  Loops over a nullable body would never have to end, so a
grammar must not contain one.
-/
import AdaptiveLL.Expr

namespace AdaptiveLL

namespace Expr

mutual

/-- Whether an expression can match nothing, given the rules that can. -/
def isNullable (nullable : List String) : Expr → Bool
  | .literal _ => false
  | .token _ => false
  | .eof => false
  | .wildcard => false
  | .rule name _ => nullable.contains name
  | .seq items => allNullable nullable items
  | .choice alternatives => anyNullable nullable alternatives
  | .plus body => body.isNullable nullable
  | .label _ body => body.isNullable nullable
  | .rightAssoc body => body.isNullable nullable
  | .optional _ => true
  | .star _ => true
  | .operatorLoop _ => true
  | .empty => true
  | .action _ => true
  | .predicate _ => true
  | .precedence _ => true

def allNullable (nullable : List String) : List Expr → Bool
  | [] => true
  | e :: rest => e.isNullable nullable && allNullable nullable rest

def anyNullable (nullable : List String) : List Expr → Bool
  | [] => false
  | e :: rest => e.isNullable nullable || anyNullable nullable rest

end

/-- The body of a loop that has to consume something in each round. -/
def loopBody? : Expr → Option Expr
  | .star body => some body
  | .plus body => some body
  | .operatorLoop body => some body
  | _ => none

end Expr

/-- Add the rules that are nullable because of those found so far. -/
def growNullable (rules : List Rule) (nullable : List String) : List String :=
  rules.foldl (fun acc r =>
    if !acc.contains r.name && r.body.isNullable acc then r.name :: acc else acc) nullable

/-- The names of the rules that can match nothing.  Every round but the last
finds a new one, so as many rounds as there are rules find them all. -/
def nullableRules (rules : List Rule) : List String :=
  rules.length.fold (fun _ _ acc => growNullable rules acc) []

/-- The first rule that loops over a body which can match nothing. -/
def emptyClosure? (rules : List Rule) : Option String :=
  let nullable := nullableRules rules
  let isEmptyLoop (e : Expr) := e.loopBody?.any fun body => body.isNullable nullable
  (rules.find? fun r => r.body.subterms.any isEmptyLoop).map Rule.name

end AdaptiveLL
