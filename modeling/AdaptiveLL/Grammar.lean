/-
Grammars: definitions that passed all checks, ready to parse with.
-/
import AdaptiveLL.Grammar.Lexicon
import AdaptiveLL.Grammar.Wiring
import AdaptiveLL.Expr.LeftCall

namespace AdaptiveLL

/-- A grammar: its lexer rules, its token types and the network of its rules. -/
structure Grammar where
  name : String
  network : Network
  vocabulary : Vocabulary
  lexRules : List LexRule

/-- The rule with its left recursion turned into operators. -/
def Rule.withOperators (r : Rule) : Except GrammarDefect Rule := do
  match ← (Expr.toOperatorForm r.name r.body).mapError (.operators r.name) with
  | none => return { r with leftRecursive := false }
  | some body => return { r with body, leftRecursive := true }

/-- No rule may come back to itself before a token is read, and no loop may go
round without one. -/
def checkProgress (rules : List Rule) : Except GrammarDefect Unit :=
  match leftCycle? rules, emptyClosure? rules with
  | some cycle, _ => .error (.leftCycle cycle)
  | none, some rule => .error (.emptyClosure rule)
  | none, none => .ok ()

/-- The network of rules without left recursion. -/
def networkOfRules (rules : List Rule) (v : Vocabulary) : Except GrammarDefect Network := do
  let g ← wireRules rules v
  (g.toNetwork v.maxType).mapError .network

namespace Definition

def build (d : Definition) : Except GrammarDefect Grammar := do
  d.checkNames
  let merged := d.merge
  if merged.rules.isEmpty then .error (.noRules d.name)
  let vocabulary := merged.vocabulary
  let lexRules ← merged.lexRules vocabulary
  let rules ← merged.rules.mapM Rule.withOperators
  checkProgress rules
  let network ← networkOfRules rules vocabulary
  return { name := d.name, network, vocabulary, lexRules }

end Definition

namespace Grammar

def lexer (g : Grammar) (text : String) : Lexer :=
  Lexer.ofText g.lexRules text

/-- The tokens of a text, numbered, and the errors in it. -/
def tokenize (g : Grammar) (text : String) : List Token × List LexError :=
  let (tokens, errors) := (g.lexer text).tokenize
  (tokens.mapIdx fun i t => t.atIndex i, errors)

end Grammar

end AdaptiveLL
