/-
Where a pattern can end.

A pattern maps a set of start positions to the set of positions it can stop at,
following all of its paths at once.  The same run tells how far any path read
before it failed, which is what a recognition error skips.
-/
import AdaptiveLL.Pattern
import AdaptiveLL.Word

namespace AdaptiveLL

/-- The positions a pattern can stop at, without duplicates, and the furthest
position that one of its paths got to. -/
structure Reach where
  ends : List Nat := []
  furthest : Nat := 0
deriving DecidableEq

namespace Reach

/-- The elements of a list that another list does not have, put in front of it. -/
def join (found ends : List Nat) : List Nat :=
  found.foldl (fun acc e => if acc.contains e then acc else e :: acc) ends

/-- The positions reached by either of two runs. -/
def union (a b : Reach) : Reach :=
  ⟨join b.ends a.ends, max a.furthest b.furthest⟩

end Reach

namespace Pattern

/-- How far a text agrees with the input at a position, and whether to its end. -/
def agree (input : Array Char) : List Char → Nat → Nat × Bool
  | [], pos => (pos, true)
  | c :: rest, pos => if input[pos]? = some c then agree input rest (pos + 1) else (pos, false)

/-- Read a text at each of the start positions. -/
def literalReach (input : Array Char) (text : List Char) (starts : List Nat) : Reach :=
  starts.foldl (fun acc start =>
    let (pos, complete) := agree input text start
    acc.union ⟨if complete then [pos] else [], pos⟩) {}

/-- Read one accepted character at each of the start positions. -/
def charReach (input : Array Char) (accepts : Char → Bool) (starts : List Nat) : Reach :=
  starts.foldl (fun acc start =>
    if input[start]?.any accepts then acc.union ⟨[start + 1], start + 1⟩ else acc) {}

/-- Repeat a step, at most `rounds` times, from the positions in `frontier`.

`count` copies have been read so far and `found` holds the positions where
enough of them had been.  Beyond the least count a position that was found
before is not taken up again: what follows it has been followed already. -/
def repeatReach (step : List Nat → Reach) (min : Nat) :
    (rounds count : Nat) → (frontier found : List Nat) → (furthest : Nat) → Reach
  | 0, _, _, found, furthest => ⟨found, furthest⟩
  | rounds + 1, count, frontier, found, furthest =>
    if frontier.isEmpty then ⟨found, furthest⟩
    else
      let next := step frontier
      let fresh :=
        if min < count + 1 then next.ends.filter fun e => !found.contains e else next.ends
      let found' := if min ≤ count + 1 then Reach.join fresh found else found
      repeatReach step min rounds (count + 1) fresh found' (max furthest next.furthest)

/-- The most rounds a repetition makes: as many as its bound allows, and one
more than a cap.  The cap is meant to be what it must read and one for each
position of the input; where a word does not hold that, it wraps around. -/
def roundLimit (size min : Nat) : Option Nat → Nat
  | none => Word.add size min + 1
  | some max => Nat.min max (Word.add size min + 1)

mutual

/-- The positions a pattern can stop at from the given start positions. -/
def reach (input : Array Char) : Pattern → List Nat → Reach
  | .literal text, starts => literalReach input text.toList starts
  | .oneOf chars, starts => charReach input chars.contains starts
  | .repetition body min max, starts =>
    let more := repeatReach (body.reach input) min (roundLimit input.size min max) 0 starts [] 0
    if min = 0 then { more with ends := Reach.join more.ends starts } else more
  | .seq items, starts => reachSeq input items starts
  | .alt items, starts => reachAlt input items starts
  | .fragment _, _ => {}
  | .any, starts => charReach input (fun _ => true) starts

def reachSeq (input : Array Char) : List Pattern → List Nat → Reach
  | [], starts => ⟨starts, 0⟩
  | p :: rest, starts =>
    let here := p.reach input starts
    if here.ends.isEmpty then here
    else
      let there := reachSeq input rest here.ends
      { there with furthest := max here.furthest there.furthest }

def reachAlt (input : Array Char) : List Pattern → List Nat → Reach
  | [], _ => {}
  | p :: rest, starts => (p.reach input starts).union (reachAlt input rest starts)

end

/-- The length of the longest non-empty match at a position. -/
def longestMatch? (ends : List Nat) (pos : Nat) : Option Nat :=
  (ends.filter (pos < ·)).max?.map (· - pos)

end Pattern

end AdaptiveLL
