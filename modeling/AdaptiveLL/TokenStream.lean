/-
A cursor over tokens that are fetched when they are first looked at.

The stream keeps every token it has fetched, so it can look ahead, look back and
return to an earlier place.  Hidden tokens stay in the buffer, where they count
for the text between two places, but look-ahead passes over them.
-/
import AdaptiveLL.Lexer

namespace AdaptiveLL

/-- Where tokens come from: a list made elsewhere, of which `last` was handed
out last, or a lexer. -/
inductive TokenSource where
  | listed (rest : List Token) (last : Option Token)
  | lexed (lexer : Lexer)

namespace TokenSource

def ofList (tokens : List Token) : TokenSource :=
  .listed tokens none

/-- The end of the input for a list that has none: behind its last token. -/
def endBehind : Option Token → Token
  | none => Token.endOfInput 0 1 0
  | some t => Token.endOfInput (t.stop + 1) t.line (t.column + t.text.length)

/-- The next token.  Behind the end of the input there is only that end again. -/
def next : TokenSource → Token × TokenSource
  | .lexed lexer => let (t, lexer) := lexer.next; (t, .lexed lexer)
  | .listed rest last =>
    match last.filter Token.isEof, rest with
    | some t, _ => (t, .listed rest last)
    | none, t :: rest => (t, .listed rest (some t))
    | none, [] => let t := endBehind last; (t, .listed [] (some t))

/-- The stretches of unmatched input since they were last asked for. -/
def takeErrors : TokenSource → List LexError × TokenSource
  | .lexed lexer => let (errors, lexer) := lexer.takeErrors; (errors, .lexed lexer)
  | .listed rest last => ([], .listed rest last)

/-- No more than this many tokens are still to come, the end included. -/
def remaining : TokenSource → Nat
  | .lexed lexer => lexer.remaining + 1
  | .listed rest _ => rest.length + 1

end TokenSource

/-- A stream of tokens with a cursor.  The cursor has no meaning until the
stream is `started`, and nothing is fetched once it has `ended`. -/
structure TokenStream where
  source : TokenSource
  buffer : Array Token := #[]
  cursor : Nat := 0
  started : Bool := false
  ended : Bool := false

namespace TokenStream

/-- A stream that has fetched nothing yet. -/
def ofSource (source : TokenSource) : TokenStream :=
  { source }

/-- Fetch one token and number it by its place. -/
def fetch (s : TokenStream) : TokenStream :=
  let (t, source) := s.source.next
  { s with source, buffer := s.buffer.push (t.atIndex s.buffer.size), ended := t.isEof }

def fetchMany : Nat → TokenStream → TokenStream
  | 0, s => s
  | n + 1, s => if s.ended then s else fetchMany n s.fetch

/-- Fetch until place `i` is in the buffer or the input has ended. -/
def fill (s : TokenStream) (i : Nat) : TokenStream :=
  s.fetchMany (i + 1 - s.buffer.size)

/-- The stream never gets more tokens than this. -/
def horizon (s : TokenStream) : Nat :=
  s.buffer.size + s.source.remaining

/-- The first visible place at or behind `i`, of the next `places` ones. -/
def visibleIn : (places i : Nat) → TokenStream → Nat × TokenStream
  | 0, i, s => (i, s)
  | places + 1, i, s =>
    let s := s.fill i
    match s.buffer[i]? with
    | none => (s.buffer.size - 1, s)
    | some t => if t.isVisible then (i, s) else visibleIn places (i + 1) s

/-- The first visible place at or behind `i`; the last place if `i` is beyond it. -/
def visibleFrom (s : TokenStream) (i : Nat) : Nat × TokenStream :=
  s.visibleIn (s.horizon - i + 1) i

/-- Put the cursor on the first visible token, unless it has been placed before. -/
def start (s : TokenStream) : TokenStream :=
  if s.started then s
  else
    let (cursor, s) := s.visibleFrom 0
    { s with cursor, started := true }

/-- Whether the token at place `i` is in the buffer and ends the input. -/
def endsAt (s : TokenStream) (i : Nat) : Bool :=
  s.buffer[i]?.any Token.isEof

/-- The place `k` visible tokens further, or that of the end of the input. -/
def skipAhead : (k i : Nat) → TokenStream → Nat × TokenStream
  | 0, i, s => (i, s)
  | k + 1, i, s =>
    if s.endsAt i then (i, s)
    else
      let (i, s) := s.visibleFrom (i + 1)
      skipAhead k i s

/-- The `k`-th token ahead, counting from one; the end of the input if there are
fewer. -/
def peek (s : TokenStream) (k : Nat) : Token × TokenStream :=
  let s := s.start
  let (i, s) := s.skipAhead (k - 1) s.cursor
  (s.buffer[i]?.getD (Token.endOfInput 0 1 0), s)

def peekType (s : TokenStream) (k : Nat) : TokenType × TokenStream :=
  let (t, s) := s.peek k
  (t.type, s)

/-- The `k`-th main-channel token before place `i`. -/
def mainBefore (buffer : Array Token) : (k i : Nat) → Option Token
  | _, 0 => none
  | k, i + 1 =>
    match buffer[i]?.filter (fun t => t.channel = .main) with
    | none => mainBefore buffer k i
    | some t => if k = 1 then some t else mainBefore buffer (k - 1) i

/-- The `k`-th main-channel token behind the cursor, counting from one. -/
def previous (s : TokenStream) (k : Nat) : Option Token × TokenStream :=
  let s := s.start
  (mainBefore s.buffer k s.cursor, s)

/-- Move to the next visible token.  At the end of the input the cursor stays. -/
def consume (s : TokenStream) : TokenStream :=
  let s := s.start
  if s.endsAt s.cursor then s
  else
    let (cursor, s) := s.visibleFrom (s.cursor + 1)
    { s with cursor }

def index (s : TokenStream) : Nat × TokenStream :=
  let s := s.start
  (s.cursor, s)

/-- Move to the first visible token at or behind place `i`. -/
def seek (s : TokenStream) (i : Nat) : TokenStream :=
  let (cursor, s) := s.visibleFrom i
  { s with cursor, started := true }

/-- The text from one place to another, on all channels, up to the end of the
input.  The first place is read even if the last one lies before it. -/
def text (s : TokenStream) (first last : Nat) : String × TokenStream :=
  let s := s.fill last
  let tokens := (s.buffer.extract first (first + Word.add (last - first) 1)).toList
  ((String.join ((tokens.takeWhile fun t => !t.isEof).map Token.text)), s)

def takeErrors (s : TokenStream) : List LexError × TokenStream :=
  let (errors, source) := s.source.takeErrors
  (errors, { s with source })

end TokenStream

end AdaptiveLL
