/-
Building parse trees from the top down and from left to right.
-/
import AdaptiveLL.ParseTree

namespace AdaptiveLL

/-- A node whose parts are still being added; alternative zero is none yet. -/
structure NodeDraft where
  rule : String
  alt : Nat := 0
  failed : Bool := false
  children : List ParseTree := []

namespace NodeDraft

def add (n : NodeDraft) (t : ParseTree) : NodeDraft :=
  { n with children := n.children ++ [t] }

def close (n : NodeDraft) : ParseTree :=
  .node n.rule n.alt n.failed n.children

/-- A new node of the same rule and alternative, with the old one as its first
part: one more level of a left-recursive rule. -/
def wrap (n : NodeDraft) : NodeDraft :=
  { rule := n.rule, alt := n.alt, children := [n.close] }

/-- Record the alternative, unless one is recorded. -/
def setAlt (n : NodeDraft) (alt : Nat) : NodeDraft :=
  if n.alt = 0 then { n with alt } else n

def fail (n : NodeDraft) : NodeDraft :=
  { n with failed := true }

/-- The tokens of the leaves so far, from left to right. -/
def leaves (n : NodeDraft) : List Token :=
  ParseTree.leavesOfAll n.children

@[simp] theorem leaves_close (n : NodeDraft) : n.close.leaves = n.leaves := by
  simp [close, ParseTree.leaves, leaves]

@[simp] theorem leaves_add (n : NodeDraft) (t : ParseTree) :
    (n.add t).leaves = n.leaves ++ t.leaves := by
  simp [add, leaves, ParseTree.leavesOfAll_append, ParseTree.leavesOfAll]

@[simp] theorem leaves_wrap (n : NodeDraft) : n.wrap.leaves = n.leaves := by
  simp [wrap, leaves, ParseTree.leavesOfAll, close, ParseTree.leaves]

@[simp] theorem leaves_setAlt (n : NodeDraft) (alt : Nat) : (n.setAlt alt).leaves = n.leaves := by
  unfold setAlt
  split <;> rfl

@[simp] theorem leaves_fail (n : NodeDraft) : n.fail.leaves = n.leaves := rfl

end NodeDraft

/-- What is wrong with a step of building a tree. -/
inductive TreeDefect where
  /-- The tree was asked for while nodes were open. -/
  | unfinished (nodes : Nat)
  /-- A node was to be closed when none was open. -/
  | unmatchedClose
  /-- A part was to be added when no node was open. -/
  | noParent
  /-- No tree was built. -/
  | empty
deriving DecidableEq

def TreeDefect.message : TreeDefect → String
  | .unfinished nodes =>
    "builder must end with exactly one finished root, but " ++ toString nodes
      ++ " nodes are still open"
  | .unmatchedClose => "finish_rule() called without a matching start_rule()"
  | .noParent => "token added outside of any rule node"
  | .empty => "no rule was ever started"

/-- The open nodes, the innermost first, and the tree that was finished last. -/
structure TreeDraft where
  stack : List NodeDraft := []
  root : Option ParseTree := none

namespace TreeDraft

def depth (b : TreeDraft) : Nat :=
  b.stack.length

/-- Open a node inside the innermost one. -/
def start (b : TreeDraft) (rule : String) : TreeDraft :=
  { b with stack := { rule } :: b.stack }

/-- Close the innermost node and add it to the one around it. -/
def finishNode (b : TreeDraft) : Except TreeDefect TreeDraft :=
  match b.stack with
  | [] => .error .unmatchedClose
  | [n] => .ok ⟨[], some n.close⟩
  | n :: parent :: rest => .ok { b with stack := parent.add n.close :: rest }

def modifyNode (b : TreeDraft) (f : NodeDraft → NodeDraft) : Except TreeDefect TreeDraft :=
  match b.stack with
  | [] => .error .noParent
  | n :: rest => .ok { b with stack := f n :: rest }

/-- Add a matched token to the innermost node. -/
def addToken (b : TreeDraft) (t : Token) : Except TreeDefect TreeDraft :=
  b.modifyNode fun n => n.add (.leaf t)

/-- Add a skipped or inserted token to the innermost node. -/
def addError (b : TreeDraft) (t : Token) : Except TreeDefect TreeDraft :=
  b.modifyNode fun n => n.add (.error t)

/-- Put the innermost node into a new one of its rule. -/
def wrap (b : TreeDraft) : Except TreeDefect TreeDraft :=
  b.modifyNode NodeDraft.wrap

/-- Record the alternative of the innermost node, if there is a node and it has
none. -/
def setAlt (b : TreeDraft) (alt : Nat) : TreeDraft :=
  match b.stack with
  | [] => b
  | n :: rest => { b with stack := n.setAlt alt :: rest }

def fail (b : TreeDraft) : TreeDraft :=
  match b.stack with
  | [] => b
  | n :: rest => { b with stack := n.fail :: rest }

def finish (b : TreeDraft) : Except TreeDefect ParseTree :=
  if b.stack.isEmpty then
    match b.root with
    | none => .error .empty
    | some t => .ok t.asRoot
  else .error (.unfinished b.depth)

end TreeDraft

end AdaptiveLL
