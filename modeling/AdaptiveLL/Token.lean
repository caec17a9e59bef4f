/-
Tokens: what the lexer produces and the parser consumes.

A token carries its type, its text and where it came from.  Types are integers;
a grammar's own types start at one, and two negative types are reserved: the end
of the input, and the mark that look-ahead sets use for the end of a rule.
-/

namespace AdaptiveLL

/-- The kind of a token, as numbered by a vocabulary. -/
abbrev TokenType := Int

namespace TokenType

/-- The type of the token that ends every input. -/
def eof : TokenType := -1

/-- Stands in a look-ahead set for reaching the end of the rule.  No token has it. -/
def epsilon : TokenType := -2

/-- The lowest type a vocabulary hands out. -/
def first : TokenType := 1

end TokenType

/-- Whether the parser sees a token or only its text remains. -/
inductive Channel where
  | main
  | hidden
deriving DecidableEq

/-- A piece of input, or a placeholder for input that was missing.

Offsets are inclusive and count characters, lines count from one and columns
from zero.  A negative offset or index says that nothing in the input, or no
place in the stream, belongs to the token. -/
structure Token where
  type : TokenType
  text : String
  channel : Channel
  start : Int
  stop : Int
  line : Nat
  column : Nat
  index : Int
deriving DecidableEq

/-- Line feeds, carriage returns and tabs are written as two characters; every
other character stands for itself. -/
def escapeChar : Char → List Char
  | '\n' => ['\\', 'n']
  | '\r' => ['\\', 'r']
  | '\t' => ['\\', 't']
  | c => [c]

/-- Make the white space of a text visible on one line. -/
def escapeSpace (text : String) : String :=
  String.ofList (text.toList.flatMap escapeChar)

/-- A text between single quotes, its white space made visible. -/
def quoted (text : String) : String :=
  "'" ++ escapeSpace text ++ "'"

namespace Token

/-- A token on the main channel that has no place in a stream yet. -/
def make (type : TokenType) (text : String) (start stop : Int) (line column : Nat) : Token :=
  ⟨type, text, .main, start, stop, line, column, -1⟩

def endOfInput (offset : Int) (line column : Nat) : Token :=
  make .eof "<EOF>" offset (offset - 1) line column

def atIndex (t : Token) (index : Int) : Token :=
  { t with index }

def isEof (t : Token) : Bool :=
  t.type == .eof

/-- Whether the token stands for input that was not there. -/
def isPlaceholder (t : Token) : Bool :=
  t.index < 0 && t.start < 0

/-- Whether look-ahead stops at the token: hidden tokens are passed over, except
that nothing lies behind the end of the input. -/
def isVisible (t : Token) : Bool :=
  t.channel == .main || t.isEof

@[simp] theorem isEof_atIndex (t : Token) (index : Int) :
    (t.atIndex index).isEof = t.isEof := rfl

/-- The token as one bracketed line: place, span, text, type, channel, position. -/
def render (t : Token) : String :=
  "[@" ++ toString t.index ++ "," ++ toString t.start ++ ":" ++ toString t.stop ++ "='"
    ++ escapeSpace t.text ++ "',<" ++ toString t.type ++ ">"
    ++ (if t.channel = .hidden then ",channel=1" else "")
    ++ "," ++ toString t.line ++ ":" ++ toString t.column ++ "]"

end Token

end AdaptiveLL
