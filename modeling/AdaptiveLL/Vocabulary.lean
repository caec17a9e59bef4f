/-
The names and spellings of the token types of a grammar.

Types are handed out one after the other, starting at one.  A type has at most
one symbolic name and at most one literal that stands for it in messages.  Two
tables lead back from names and from literals to types; a type may be given a
second literal.
-/
import AdaptiveLL.TypeSet

namespace AdaptiveLL

/-- What a vocabulary says of one type. -/
structure VocabularyEntry where
  name : Option String := none
  literal : Option String := none
deriving DecidableEq

/-- The types of a grammar; the entry of type `t` has place `t - 1`. -/
structure Vocabulary where
  entries : Array VocabularyEntry := #[]
  names : List (String × TokenType) := []
  spellings : List (String × TokenType) := []

namespace Vocabulary

def empty : Vocabulary := {}

/-- The highest type handed out; zero if there is none. -/
def maxType (v : Vocabulary) : TokenType :=
  v.entries.size

/-- The types handed out, ascending. -/
def types (v : Vocabulary) : List TokenType :=
  (List.range v.entries.size).map fun (i : Nat) => (i : Int) + 1

def lookup? (v : Vocabulary) (t : TokenType) : Option VocabularyEntry :=
  if t < TokenType.first then none else v.entries[(t - 1).toNat]?

/-- The type that was defined under a name. -/
def definedType? (v : Vocabulary) (name : String) : Option TokenType :=
  v.names.lookup name

/-- The type a name stands for.  The name of the end of the input is reserved. -/
def typeOfName? (v : Vocabulary) (name : String) : Option TokenType :=
  if name = "EOF" then some .eof else v.definedType? name

def typeOfLiteral? (v : Vocabulary) (text : String) : Option TokenType :=
  v.spellings.lookup text

/-- The type of a name, a new one if the name is new. -/
def internName (v : Vocabulary) (name : String) : TokenType × Vocabulary :=
  match v.definedType? name with
  | some t => (t, v)
  | none =>
    let t := v.maxType + 1
    (t, { v with entries := v.entries.push { name := some name }, names := (name, t) :: v.names })

def internLiteral (v : Vocabulary) (text : String) : TokenType × Vocabulary :=
  match v.typeOfLiteral? text with
  | some t => (t, v)
  | none =>
    let t := v.maxType + 1
    (t, { v with
      entries := v.entries.push { literal := some text }
      spellings := (text, t) :: v.spellings })

/-- Let a literal stand for an existing type, unless it stands for one already. -/
def addSpelling (v : Vocabulary) (t : TokenType) (text : String) : Vocabulary :=
  if (v.lookup? t).isNone || (v.typeOfLiteral? text).isSome then v
  else
    { v with
      entries := v.entries.modify (t - 1).toNat fun e => { e with literal := some text }
      spellings := (text, t) :: v.spellings }

def symbolicName? (v : Vocabulary) (t : TokenType) : Option String :=
  if t = .eof then some "EOF" else (v.lookup? t).bind VocabularyEntry.name

/-- The literal that stands for a type in messages. -/
def literal? (v : Vocabulary) (t : TokenType) : Option String :=
  (v.lookup? t).bind VocabularyEntry.literal

/-- The literal of a type between single quotes. -/
def literalName? (v : Vocabulary) (t : TokenType) : Option String :=
  (v.literal? t).map fun text => "'" ++ text ++ "'"

/-- How messages name a type: by its literal, its symbolic name or its number. -/
def displayName (v : Vocabulary) (t : TokenType) : String :=
  if t = .eof then "<EOF>"
  else if t = .epsilon then "<EPSILON>"
  else ((v.literalName? t).or (v.symbolicName? t)).getD (toString t)

/-- Names in braces, separated by commas. -/
def braced (names : List String) : String :=
  "\x7b" ++ ", ".intercalate names ++ "\x7d"

/-- How messages name a set of types: a single one by itself, others in braces. -/
def displaySet (v : Vocabulary) (s : TypeSet) : String :=
  match s.toList.map v.displayName with
  | [name] => name
  | names => braced names

/-- All symbolic names with their types, in the order of the types. -/
def renderNames (v : Vocabulary) : String :=
  braced (("EOF=-1" :: v.types.filterMap fun t =>
    ((v.lookup? t).bind VocabularyEntry.name).map fun name => name ++ "=" ++ toString t))

end Vocabulary

end AdaptiveLL
