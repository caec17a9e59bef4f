/-
Sets of token types, kept as ascending closed intervals.

Insertion joins intervals that overlap or touch, so a set that was built by the
operations below has one representation only.
-/
import AdaptiveLL.Token
import AdaptiveLL.Word

namespace AdaptiveLL

/-- All types from `lo` to `hi`, both included. -/
structure Interval where
  lo : TokenType
  hi : TokenType
deriving DecidableEq

namespace Interval

def contains (i : Interval) (t : TokenType) : Bool :=
  i.lo ≤ t && t ≤ i.hi

/-- How many types lie between the ends. -/
def count (i : Interval) : Nat :=
  (i.hi - i.lo + 1).toNat

/-- The same number, computed in half words and then taken for a word. -/
def size (i : Interval) : Nat :=
  Word.ofHalf (Word.wrapHalf (i.hi - i.lo + 1))

/-- The lowest `n` types of the interval, or all if there are fewer. -/
def lowest (i : Interval) (n : Nat) : List TokenType :=
  (List.range (min n i.count)).map fun (k : Nat) => i.lo + (k : Int)

def members (i : Interval) : List TokenType :=
  i.lowest i.count

/-- The interval without one type: none, one or two pieces remain. -/
def without (i : Interval) (t : TokenType) : List Interval :=
  if i.contains t then
    (if i.lo < t then [⟨i.lo, t - 1⟩] else []) ++ (if t < i.hi then [⟨t + 1, i.hi⟩] else [])
  else [i]

theorem contains_iff {i : Interval} {t : TokenType} :
    i.contains t = true ↔ i.lo ≤ t ∧ t ≤ i.hi := by
  simp [contains]

end Interval

/-- A set of token types. -/
structure TypeSet where
  intervals : List Interval := []
deriving DecidableEq

namespace TypeSet

def empty : TypeSet := ⟨[]⟩

/-- Put `new` in its place, joining what it overlaps or touches.  `new` grows on
its way through the list until everything to its right is out of reach. -/
def insertInterval (new : Interval) : List Interval → List Interval
  | [] => [new]
  | i :: rest =>
    if i.hi + 1 < new.lo then i :: insertInterval new rest
    else if new.hi + 1 < i.lo then new :: i :: rest
    else insertInterval ⟨min new.lo i.lo, max new.hi i.hi⟩ rest

/-- Add all types from `lo` to `hi`; nothing if `hi` is below `lo`. -/
def addRange (s : TypeSet) (lo hi : TokenType) : TypeSet :=
  if hi < lo then s else ⟨insertInterval ⟨lo, hi⟩ s.intervals⟩

def add (s : TypeSet) (t : TokenType) : TypeSet :=
  s.addRange t t

def single (t : TokenType) : TypeSet :=
  empty.add t

def range (lo hi : TokenType) : TypeSet :=
  empty.addRange lo hi

def ofList (ts : List TokenType) : TypeSet :=
  ts.foldl add empty

def union (s other : TypeSet) : TypeSet :=
  other.intervals.foldl (fun acc i => acc.addRange i.lo i.hi) s

def erase (s : TypeSet) (t : TokenType) : TypeSet :=
  ⟨s.intervals.flatMap fun i => i.without t⟩

def contains (s : TypeSet) (t : TokenType) : Bool :=
  s.intervals.any fun i => i.contains t

instance : Membership TokenType TypeSet where
  mem s t := s.contains t = true

instance (t : TokenType) (s : TypeSet) : Decidable (t ∈ s) :=
  inferInstanceAs (Decidable (s.contains t = true))

def isEmpty (s : TypeSet) : Bool :=
  s.intervals.isEmpty

/-- The number of members, as far as words hold it. -/
def size (s : TypeSet) : Nat :=
  s.intervals.foldl (fun total i => Word.add total i.size) 0

def min? (s : TypeSet) : Option TokenType :=
  s.intervals.head?.map Interval.lo

def toList (s : TypeSet) : List TokenType :=
  s.intervals.flatMap Interval.members

/-- The lowest `n` members, found without listing the rest. -/
def lowest (s : TypeSet) (n : Nat) : List TokenType :=
  go n s.intervals
where
  /-- Take what is still wanted from one interval after the other. -/
  go (n : Nat) : List Interval → List TokenType
    | [] => []
    | i :: rest => if n = 0 then [] else i.lowest n ++ go (n - i.count) rest

/-- One interval as a number, or as its two ends. -/
def renderInterval (i : Interval) : String :=
  if i.lo = i.hi then toString i.lo else toString i.lo ++ ".." ++ toString i.hi

/-- The set in numbers: a single type by itself, all else in braces. -/
def render (s : TypeSet) : String :=
  let items := ", ".intercalate (s.intervals.map renderInterval)
  if s.size = 1 then items else "\x7b" ++ items ++ "\x7d"

@[simp] theorem contains_empty (t : TokenType) : empty.contains t = false := rfl

end TypeSet

end AdaptiveLL
