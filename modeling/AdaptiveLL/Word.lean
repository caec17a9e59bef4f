/-
Numbers of a fixed width.

Positions and counts are unsigned words, token types are signed half words.  A sum
that does not fit wraps around, as it does where nothing checks it.
-/

namespace AdaptiveLL

namespace Word

/-- A word holds the numbers below this one, the 64th power of two. -/
def bound : Nat := 18446744073709551616

/-- A half word holds the numbers from minus this one up to it, this one left out:
the 31st power of two. -/
def halfBound : Int := 2147483648

def add (a b : Nat) : Nat := (a + b) % bound

/-- The number that a half word holds in the place of `x`. -/
def wrapHalf (x : Int) : Int := x.bmod 4294967296

/-- A half word taken for a word: a negative number counts from the bound downwards. -/
def ofHalf (x : Int) : Nat := (x % bound).toNat

theorem add_of_lt {a b : Nat} (h : a + b < bound) : add a b = a + b :=
  Nat.mod_eq_of_lt h

theorem add_le (a b : Nat) : add a b ≤ a + b :=
  Nat.mod_le _ _

theorem wrapHalf_of_lt {x : Int} (hlow : -halfBound ≤ x) (hhigh : x < halfBound) :
    wrapHalf x = x := by
  unfold halfBound at hlow hhigh
  exact Int.bmod_eq_of_le (by omega) (by omega)

theorem ofHalf_of_nonneg {x : Int} (hlow : 0 ≤ x) (hhigh : x < bound) : ofHalf x = x.toNat := by
  rw [ofHalf, Int.emod_eq_of_lt hlow hhigh]

end Word

end AdaptiveLL
