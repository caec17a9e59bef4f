/-
Left calls: which rules a rule can call before any token is read.

A cycle of left calls would let a parse call rules forever at one place of the
input.  A depth-first search finds such a cycle, in the order of the rules.
-/
import AdaptiveLL.Expr.Nullable

namespace AdaptiveLL

namespace Expr

mutual

/-- The rules an expression can call first, in order of appearance. -/
def leftCalls (nullable : List String) : Expr → List String
  | .rule name _ => [name]
  | .seq items => leftCallsOfSeq nullable items
  | .choice alternatives => leftCallsOfAny nullable alternatives
  | .optional body => body.leftCalls nullable
  | .star body => body.leftCalls nullable
  | .plus body => body.leftCalls nullable
  | .label _ body => body.leftCalls nullable
  | .rightAssoc body => body.leftCalls nullable
  | .operatorLoop body => body.leftCalls nullable
  | _ => []

/-- The rules a sequence can call first: those of each item that only nullable
items precede. -/
def leftCallsOfSeq (nullable : List String) : List Expr → List String
  | [] => []
  | e :: rest =>
    e.leftCalls nullable ++ if e.isNullable nullable then leftCallsOfSeq nullable rest else []

def leftCallsOfAny (nullable : List String) : List Expr → List String
  | [] => []
  | e :: rest => e.leftCalls nullable ++ leftCallsOfAny nullable rest

end

end Expr

/-- The defined rules that a rule can call first. -/
def leftCallees (rules : List Rule) (nullable : List String) (name : String) : List String :=
  match rules.find? fun r => r.name == name with
  | none => []
  | some r => (r.body.leftCalls nullable).filter fun callee => rules.any fun r => r.name == callee

/-- Search for a cycle below `name`.  `path` leads to it, the innermost first;
nothing in `done` has a cycle below it.  The search fails with the cycle it
finds, and else extends `done`. -/
def searchCycle (callees : String → List String) :
    (depth : Nat) → (path done : List String) → (name : String) → Except (List String) (List String)
  | 0, _, done, _ => .ok done
  | depth + 1, path, done, name =>
    if path.contains name then .error (name :: (path.takeWhile (· != name)).reverse)
    else if done.contains name then .ok done
    else do
      let done ← (callees name).foldlM (searchCycle callees depth (name :: path)) done
      return name :: done

/-- A cycle of left calls, if there is one.  A path without a cycle has no more
rules than the grammar, which bounds the depth of the search. -/
def leftCycle? (rules : List Rule) : Option (List String) :=
  let callees := leftCallees rules (nullableRules rules)
  let search :=
    rules.foldlM (fun done r => searchCycle callees (rules.length + 1) [] done r.name) []
  match search with
  | .ok _ => none
  | .error cycle => some cycle

end AdaptiveLL
