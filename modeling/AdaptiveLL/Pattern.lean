/-
What a lexer rule matches: literals, character classes, sequences, alternatives,
bounded repetition, and references to named fragments.
-/

namespace AdaptiveLL

/-- A class of characters: those in one of the closed ranges, or those in none
of them when the class is complemented. -/
structure CharClass where
  ranges : List (Char × Char)
  complemented : Bool := false
deriving DecidableEq

namespace CharClass

/-- The class of the characters of a text. -/
def ofText (text : String) : CharClass :=
  ⟨text.toList.map fun c => (c, c), false⟩

def digits : CharClass :=
  ⟨[('0', '9')], false⟩

/-- Blank, tab, carriage return and line feed. -/
def space : CharClass :=
  ofText " \t\r\n"

def complement (k : CharClass) : CharClass :=
  { k with complemented := !k.complemented }

/-- Whether a character lies in one of the ranges. -/
def covers (k : CharClass) (c : Char) : Bool :=
  k.ranges.any fun r => r.1 ≤ c && c ≤ r.2

def contains (k : CharClass) (c : Char) : Bool :=
  k.covers c != k.complemented

end CharClass

inductive Pattern where
  /-- The characters of a text, in order. -/
  | literal (text : String)
  /-- One character of a class. -/
  | oneOf (chars : CharClass)
  /-- At least `min` and, if there is a bound, at most `max` copies. -/
  | repetition (body : Pattern) (min : Nat) (max : Option Nat)
  /-- One pattern after the other. -/
  | seq (items : List Pattern)
  /-- One of several patterns. -/
  | alt (items : List Pattern)
  /-- The pattern of the fragment with this name. -/
  | fragment (name : String)
  /-- One character, whichever it is. -/
  | any

namespace Pattern

/-- A character between two others, both included. -/
def between (lo hi : Char) : Pattern :=
  .oneOf ⟨[(lo, hi)], false⟩

def star (p : Pattern) : Pattern :=
  .repetition p 0 none

def plus (p : Pattern) : Pattern :=
  .repetition p 1 none

def opt (p : Pattern) : Pattern :=
  .repetition p 0 (some 1)

/-- The text of a pattern that is one literal and nothing else. -/
def literalText? : Pattern → Option String
  | .literal text => some text
  | _ => none

mutual

/-- Whether a pattern can match without reading a character.  An alternative of
nothing counts as nullable; a fragment, not yet looked up, does not. -/
def isNullable : Pattern → Bool
  | .literal text => text.isEmpty
  | .oneOf _ => false
  | .repetition body min _ => min == 0 || body.isNullable
  | .seq items => allNullable items
  | .alt items => items.isEmpty || anyNullable items
  | .fragment _ => false
  | .any => false

def allNullable : List Pattern → Bool
  | [] => true
  | p :: rest => p.isNullable && allNullable rest

def anyNullable : List Pattern → Bool
  | [] => false
  | p :: rest => p.isNullable || anyNullable rest

end

end Pattern

end AdaptiveLL
