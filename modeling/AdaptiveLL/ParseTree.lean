/-
Parse trees.

Inner nodes are rule invocations, leaves are tokens.  A token that was skipped to
repair an error, or put in for one that was missing, is an error leaf, so a tree
holds everything the parser consumed.
-/
import AdaptiveLL.Token

namespace AdaptiveLL

/-- A parse tree. -/
inductive ParseTree where
  /-- An invocation of a rule, with the alternative it took and whether a mismatch
  was met in it. -/
  | node (rule : String) (alt : Nat) (failed : Bool) (children : List ParseTree)
  /-- A token that was matched. -/
  | leaf (token : Token)
  /-- A token that was skipped or put in. -/
  | error (token : Token)

namespace ParseTree

mutual

def decEq : (t u : ParseTree) → Decidable (t = u)
  | .node rule alt failed ts, .node rule' alt' failed' us =>
    have := decEqAll ts us
    decidable_of_iff (rule = rule' ∧ alt = alt' ∧ failed = failed' ∧ ts = us) (by simp)
  | .leaf t, .leaf u => decidable_of_iff (t = u) (by simp)
  | .error t, .error u => decidable_of_iff (t = u) (by simp)
  | .node .., .leaf _ | .node .., .error _ | .leaf _, .node .. | .leaf _, .error _
  | .error _, .node .. | .error _, .leaf _ => isFalse nofun

def decEqAll : (ts us : List ParseTree) → Decidable (ts = us)
  | [], [] => isTrue rfl
  | t :: ts, u :: us =>
    have := decEq t u
    have := decEqAll ts us
    decidable_of_iff (t = u ∧ ts = us) (by simp)
  | [], _ :: _ | _ :: _, [] => isFalse nofun

end

instance : DecidableEq ParseTree :=
  decEq

def ruleName? : ParseTree → Option String
  | .node rule _ _ _ => some rule
  | .leaf _ => none
  | .error _ => none

def children : ParseTree → List ParseTree
  | .node _ _ _ children => children
  | .leaf _ => []
  | .error _ => []

def token? : ParseTree → Option Token
  | .node _ _ _ _ => none
  | .leaf token => some token
  | .error token => some token

mutual

/-- The tokens of the leaves, from left to right. -/
def leaves : ParseTree → List Token
  | .node _ _ _ children => leavesOfAll children
  | .leaf token => [token]
  | .error token => [token]

def leavesOfAll : List ParseTree → List Token
  | [] => []
  | t :: rest => t.leaves ++ leavesOfAll rest

end

mutual

/-- The number of error leaves. -/
def errorCount : ParseTree → Nat
  | .node _ _ _ children => errorCountOfAll children
  | .leaf _ => 0
  | .error _ => 1

def errorCountOfAll : List ParseTree → Nat
  | [] => 0
  | t :: rest => t.errorCount + errorCountOfAll rest

end

/-- The texts of the leaves one behind the other, without the end of the input. -/
def text (t : ParseTree) : String :=
  String.join ((t.leaves.filter fun token => !token.isEof).map Token.text)

mutual

/-- The tree in brackets, each rule before its parts; a rule without parts by its
name alone. -/
def render : ParseTree → String
  | .node rule _ _ [] => rule
  | .node rule _ _ (t :: rest) => "(" ++ rule ++ " " ++ t.render ++ renderRest rest ++ ")"
  | .leaf token => escapeSpace token.text
  | .error token => escapeSpace token.text

/-- Trees in brackets, a blank in front of each. -/
def renderRest : List ParseTree → String
  | [] => ""
  | t :: rest => " " ++ t.render ++ renderRest rest

end

/-- The tree as the root of a parse: a root without a recorded alternative took
its first one. -/
def asRoot : ParseTree → ParseTree
  | .node rule alt failed children => .node rule (max alt 1) failed children
  | .leaf token => .leaf token
  | .error token => .error token

theorem leavesOfAll_append (ts us : List ParseTree) :
    leavesOfAll (ts ++ us) = leavesOfAll ts ++ leavesOfAll us := by
  induction ts with
  | nil => simp [leavesOfAll]
  | cons t rest ih => simp [leavesOfAll, ih]

@[simp] theorem leaves_asRoot (t : ParseTree) : t.asRoot.leaves = t.leaves := by
  cases t <;> simp [asRoot, leaves]

end ParseTree

end AdaptiveLL
