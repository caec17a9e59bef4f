/-
Tokens that stand for missing input.

A placeholder has no offsets and no place in the stream.  Its line and column are
those of the token that was found instead or, at the end of the input, of the
token before.
-/
import AdaptiveLL.Vocabulary

namespace AdaptiveLL

namespace Vocabulary

def placeholderText (v : Vocabulary) (t : TokenType) : String :=
  if t = .eof then "<missing EOF>" else "<missing " ++ v.displayName t ++ ">"

/-- The token whose position a placeholder takes. -/
def anchor (current : Token) (previous : Option Token) : Token :=
  if current.isEof then previous.getD current else current

/-- A placeholder for the lowest of the expected types. -/
def placeholder (v : Vocabulary) (expected : TypeSet) (current : Token)
    (previous : Option Token) : Token :=
  let type := expected.min?.getD .eof
  let place := anchor current previous
  Token.make type (v.placeholderText type) (-1) (-1) place.line place.column

end Vocabulary

end AdaptiveLL
