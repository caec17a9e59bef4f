/-
Grammar definitions and their merging.

A definition lists parser rules, lexer rules and token names, and may import other
definitions.  Merging puts a definition's own rules first and then those of its
imports, depth first; of several rules of one name the first one stays.  Parser
rules and lexer rules are merged separately.
-/
import AdaptiveLL.Grammar.Defect
import AdaptiveLL.Lexer

namespace AdaptiveLL

/-- What a lexer definition is for: making tokens, or use by other patterns. -/
inductive LexRole where
  | rule (disposition : Disposition)
  | fragment
deriving DecidableEq

/-- A lexer rule or a fragment, as it was written. -/
structure LexDefinition where
  name : String
  pattern : Pattern
  role : LexRole

namespace LexDefinition

def isFragment (d : LexDefinition) : Bool :=
  d.role == .fragment

end LexDefinition

/-- A grammar, as it was written. -/
structure Definition where
  name : String
  rules : List Rule := []
  lexer : List LexDefinition := []
  tokens : List String := []
  imports : List Definition := []

/-- The rules of a definition and its imports. -/
structure Merged where
  rules : List Rule := []
  lexer : List LexDefinition := []
  tokens : List String := []

namespace Merged

/-- Add a parser rule unless one of its name is there. -/
def addRule (m : Merged) (r : Rule) : Merged :=
  if m.rules.any fun other => other.name == r.name then m
  else { m with rules := m.rules ++ [r] }

/-- Add a lexer definition unless one of its name is there. -/
def addLexer (m : Merged) (d : LexDefinition) : Merged :=
  if m.lexer.any fun other => other.name == d.name then m
  else { m with lexer := m.lexer ++ [d] }

end Merged

namespace Definition

/-- The first name in a list that stands there for the second time. -/
def firstRepeated? (seen : List String) : List String → Option String
  | [] => none
  | name :: rest => if seen.contains name then some name else firstRepeated? (name :: seen) rest

/-- The names that a definition itself gives to parser and lexer rules. -/
def ownNames (d : Definition) : List String :=
  d.rules.map Rule.name ++ d.lexer.map LexDefinition.name

mutual

/-- No definition may give a name twice; imports are checked after the importer. -/
def checkNames : Definition → Except GrammarDefect Unit
  | ⟨name, rules, lexer, tokens, imports⟩ => do
    match firstRepeated? [] (ownNames ⟨name, rules, lexer, tokens, []⟩) with
    | some rule => .error (.duplicateRule rule name)
    | none => checkNamesOfAll imports

def checkNamesOfAll : List Definition → Except GrammarDefect Unit
  | [] => .ok ()
  | d :: rest => do
    d.checkNames
    checkNamesOfAll rest

end

mutual

/-- Add the rules of a definition and then those of its imports. -/
def mergeInto (m : Merged) : Definition → Merged
  | ⟨_, rules, lexer, tokens, imports⟩ =>
    let m := lexer.foldl Merged.addLexer (rules.foldl Merged.addRule m)
    mergeAllInto { m with tokens := m.tokens ++ tokens } imports

def mergeAllInto (m : Merged) : List Definition → Merged
  | [] => m
  | d :: rest => mergeAllInto (d.mergeInto m) rest

end

/-- The rules of a definition and its imports. -/
def merge (d : Definition) : Merged :=
  d.mergeInto {}

end Definition

end AdaptiveLL
