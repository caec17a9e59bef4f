/-
The token types and lexer rules of a merged grammar.

A literal in a parser rule that no lexer rule spells defines a token of its own.
Types go first to these literals, in order of appearance, then to the lexer rules,
to the declared token names, and to names that are only used.  The rules of the
literals come first, so a literal wins over a lexer rule that matches as much.
-/
import AdaptiveLL.Grammar.Definition
import AdaptiveLL.Vocabulary

namespace AdaptiveLL

namespace Merged

def tokenRules (m : Merged) : List LexDefinition :=
  m.lexer.filter fun d => !d.isFragment

def fragments (m : Merged) : FragmentTable :=
  (m.lexer.filter LexDefinition.isFragment).map fun d => (d.name, d.pattern)

def subterms (m : Merged) : List Expr :=
  m.rules.flatMap fun r => r.body.subterms

/-- The literals of the parser rules that no lexer rule spells. -/
def implicitLiterals (m : Merged) : List String :=
  let spelled := m.tokenRules.filterMap fun d => d.pattern.literalText?
  m.subterms.filterMap fun
    | .literal text => if spelled.contains text then none else some text
    | _ => none

def usedNames (m : Merged) : List String :=
  m.subterms.filterMap fun
    | .token name => if name = "EOF" then none else some name
    | _ => none

/-- Give a type to a lexer rule, and let it stand for its literal if it is one. -/
def defineTokenRule (v : Vocabulary) (d : LexDefinition) : Vocabulary :=
  let (t, v) := v.internName d.name
  match d.pattern.literalText? with
  | none => v
  | some text => v.addSpelling t text

def vocabulary (m : Merged) : Vocabulary :=
  let v := m.implicitLiterals.foldl (fun v text => (v.internLiteral text).2) .empty
  let v := m.tokenRules.foldl defineTokenRule v
  let v := m.tokens.foldl (fun v name => (v.internName name).2) v
  m.usedNames.foldl (fun v name => (v.internName name).2) v

/-- The literals of types without a symbolic name, with these types. -/
def unnamedLiterals (v : Vocabulary) : List (TokenType × String) :=
  v.types.filterMap fun t =>
    match v.symbolicName? t, v.literal? t with
    | none, some text => some (t, text)
    | _, _ => none

/-- One lexer rule for each literal whose type has no symbolic name. -/
def literalRules (v : Vocabulary) : List LexRule :=
  (unnamedLiterals v).mapIdx fun i (t, text) =>
    ⟨"T__" ++ toString i, t, .literal text, .emit⟩

/-- The lexer rule of a definition; none for a fragment. -/
def lexRule? (fragments : FragmentTable) (v : Vocabulary) (d : LexDefinition) :
    Except GrammarDefect (Option LexRule) :=
  match d.role with
  | .fragment => .ok none
  | .rule disposition => do
    let pattern ← (d.pattern.expandFragments fragments).mapError .fragments
    if pattern.isNullable then .error (.emptyToken d.name)
    match v.typeOfName? d.name with
    | none => .error (.undefinedToken d.name d.name)
    | some type => return some ⟨d.name, type, pattern, disposition⟩

/-- The lexer rules of the grammar, those of the literals first. -/
def lexRules (m : Merged) (v : Vocabulary) : Except GrammarDefect (List LexRule) := do
  let rules ← m.lexer.mapM (lexRule? m.fragments v)
  return literalRules v ++ rules.filterMap id

end Merged

end AdaptiveLL
