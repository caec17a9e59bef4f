/-
Putting the bodies of fragments in the place of their names.

A fragment may use other fragments.  A name that is met again below itself, or
that no fragment has, is a defect of the table.
-/
import AdaptiveLL.Pattern

namespace AdaptiveLL

abbrev FragmentTable := List (String × Pattern)

/-- Why a reference to a fragment has no meaning. -/
inductive FragmentDefect where
  | undefined (name : String)
  | recursive (name : String)
deriving DecidableEq

namespace Pattern

mutual

/-- Replace each reference by what `lookup` gives for its name, from left to
right; the first name it refuses ends the work. -/
def resolve (lookup : String → Except FragmentDefect Pattern) :
    Pattern → Except FragmentDefect Pattern
  | .fragment name => lookup name
  | .repetition body min max => do
    let body ← body.resolve lookup
    return .repetition body min max
  | .seq items => do return .seq (← resolveAll lookup items)
  | .alt items => do return .alt (← resolveAll lookup items)
  | .literal text => return .literal text
  | .oneOf chars => return .oneOf chars
  | .any => return .any

def resolveAll (lookup : String → Except FragmentDefect Pattern) :
    List Pattern → Except FragmentDefect (List Pattern)
  | [] => return []
  | p :: rest => do
    let p ← p.resolve lookup
    return p :: (← resolveAll lookup rest)

end

/-- Inline fragments to a depth.  `active` holds the names being inlined. -/
def expandTo (table : FragmentTable) :
    Nat → List String → Pattern → Except FragmentDefect Pattern
  | 0, _, p => p.resolve fun name => .error (.recursive name)
  | depth + 1, active, p =>
    p.resolve fun name =>
      if active.contains name then .error (.recursive name)
      else
        match table.lookup name with
        | none => .error (.undefined name)
        | some body => expandTo table depth (name :: active) body

/-- The pattern with every reference replaced by its fragment.  The active names
are distinct names of the table, so the table's length bounds the depth. -/
def expandFragments (table : FragmentTable) (p : Pattern) : Except FragmentDefect Pattern :=
  expandTo table (table.length + 1) [] p

end Pattern

end AdaptiveLL
