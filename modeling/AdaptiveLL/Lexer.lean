/-
Cutting text into tokens.

At each place every rule is tried; the longest match wins, and of two equally
long ones the match of the earlier rule.  Where no rule matches, the lexer notes
the text up to and including the character that stopped the furthest attempt,
and goes on behind it.
-/
import AdaptiveLL.Token
import AdaptiveLL.Pattern.Reach

namespace AdaptiveLL

/-- What becomes of the matches of a lexer rule. -/
inductive Disposition where
  | emit
  | skip
  | hide
deriving DecidableEq

/-- A lexer rule without fragment references. -/
structure LexRule where
  name : String
  type : TokenType
  pattern : Pattern
  disposition : Disposition

/-- A stretch of input that no lexer rule matches. -/
structure LexError where
  text : String
  offset : Nat
  line : Nat
  column : Nat
deriving DecidableEq

def LexError.message (e : LexError) : String :=
  "token recognition error at: " ++ quoted e.text

/-- A place in the input: characters read, lines begun, characters read since
the last line feed. -/
structure Place where
  offset : Nat := 0
  line : Nat := 1
  column : Nat := 0
deriving DecidableEq

namespace Place

/-- The place behind one more character. -/
def after (p : Place) (c : Char) : Place :=
  if c = '\n' then ⟨p.offset + 1, p.line + 1, 0⟩ else ⟨p.offset + 1, p.line, p.column + 1⟩

def afterAll (p : Place) (text : List Char) : Place :=
  text.foldl after p

theorem offset_after (p : Place) (c : Char) : (p.after c).offset = p.offset + 1 := by
  unfold after
  split <;> rfl

theorem offset_afterAll (p : Place) (text : List Char) :
    (p.afterAll text).offset = p.offset + text.length := by
  induction text generalizing p with
  | nil => rfl
  | cons c rest ih =>
    have step : p.afterAll (c :: rest) = (p.after c).afterAll rest := rfl
    rw [step, ih, offset_after, List.length_cons]
    omega

end Place

/-- The longer of the best match so far and that of one more rule, which has to be
longer to win. -/
def longerMatch (pos : Nat) (best : Option (LexRule × Nat)) (next : LexRule × Reach) :
    Option (LexRule × Nat) :=
  match Pattern.longestMatch? next.2.ends pos, best with
  | none, best => best
  | some n, none => some (next.1, n)
  | some n, some (winner, m) => if m < n then some (next.1, n) else some (winner, m)

/-- The longest match of a list of rules with their reaches: the rule and the
number of characters.  A later rule has to be longer to win. -/
def longestRule (pos : Nat) (reaches : List (LexRule × Reach)) : Option (LexRule × Nat) :=
  reaches.foldl (longerMatch pos) none

/-- A lexer at work on an input.  `errors` are those not yet asked for. -/
structure Lexer where
  rules : List LexRule
  input : Array Char
  place : Place := {}
  errors : List LexError := []

namespace Lexer

def ofText (rules : List LexRule) (text : String) : Lexer :=
  { rules, input := text.toList.toArray }

def remaining (l : Lexer) : Nat :=
  l.input.size - l.place.offset

/-- The next characters, fewer if the input ends before. -/
def ahead (l : Lexer) (length : Nat) : List Char :=
  (l.input.extract l.place.offset (l.place.offset + length)).toList

def advance (l : Lexer) (length : Nat) : Lexer :=
  { l with place := l.place.afterAll (l.ahead length) }

/-- How far each rule can read from here. -/
def reaches (l : Lexer) : List (LexRule × Reach) :=
  l.rules.map fun r => (r, r.pattern.reach l.input [l.place.offset])

/-- The token of a rule for the next characters. -/
def tokenOf (l : Lexer) (rule : LexRule) (length : Nat) : Token :=
  let text := l.ahead length
  let token := Token.make rule.type (String.ofList text) l.place.offset
    (l.place.offset + text.length - 1) l.place.line l.place.column
  if rule.disposition = .hide then { token with channel := .hidden } else token

/-- Note the text that no rule matches, up to one character beyond `furthest`,
and go on behind it. -/
def fail (l : Lexer) (furthest : Nat) : Lexer :=
  let length := furthest - l.place.offset + 1
  let error := ⟨String.ofList (l.ahead length), l.place.offset, l.place.line, l.place.column⟩
  { l.advance length with errors := l.errors ++ [error] }

/-- Read one match or one error: the token, if it gives one, and the lexer behind it. -/
def munch (l : Lexer) : Option Token × Lexer :=
  let reaches := l.reaches
  match longestRule l.place.offset reaches with
  | none => (none, l.fail (reaches.foldl (fun m r => max m r.2.furthest) l.place.offset))
  | some (rule, length) =>
    (if rule.disposition = .skip then none else some (l.tokenOf rule length), l.advance length)

def endToken (l : Lexer) : Token :=
  Token.endOfInput l.place.offset l.place.line l.place.column

/-- The next token, found in at most `steps` steps. -/
def nextIn : (steps : Nat) → Lexer → Token × Lexer
  | 0, l => (l.endToken, l)
  | steps + 1, l =>
    if l.input.size ≤ l.place.offset then (l.endToken, l)
    else
      match l.munch with
      | (some t, l) => (t, l)
      | (none, l) => nextIn steps l

/-- The next token.  Every step reads a character, so those left bound the steps. -/
def next (l : Lexer) : Token × Lexer :=
  l.nextIn (l.remaining + 1)

/-- The errors since they were last asked for, oldest first. -/
def takeErrors (l : Lexer) : List LexError × Lexer :=
  (l.errors, { l with errors := [] })

/-- The tokens up to the end of the input, at most `count`. -/
def tokensIn : (count : Nat) → Lexer → List Token × Lexer
  | 0, l => ([], l)
  | count + 1, l =>
    let (t, l) := l.next
    if t.isEof then ([t], l)
    else
      let (rest, l) := tokensIn count l
      (t :: rest, l)

/-- All tokens, the last one being the end of the input, and all errors. -/
def tokenize (l : Lexer) : List Token × List LexError :=
  let (tokens, l) := l.tokensIn (l.remaining + 1)
  (tokens, l.errors)

end Lexer

end AdaptiveLL
