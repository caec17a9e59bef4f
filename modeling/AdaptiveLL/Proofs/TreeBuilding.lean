/-
What a tree builder keeps of the tokens it accepted.

Any calls may be made one after the other, and those that fail change nothing.  The
builder keeps every token in its place until an outermost node is opened: the tree
that was finished before is then given up, with all its leaves.  So a finished tree
has the tokens that were accepted since its own outermost node was opened, and it
has all of them where that was the only one.
-/
import AdaptiveLL.Proofs.Parser.TreeCalls

namespace AdaptiveLL

def TreeCall.token? : TreeCall → Option Token
  | .token t | .skipped t | .inserted t => some t
  | _ => none

namespace TreeDraft

/-- What a call leaves behind: a call that fails changes nothing. -/
def attempt (b : TreeDraft) (c : TreeCall) : TreeDraft :=
  match b.call c with
  | .ok b' => b'
  | .error _ => b

def attemptAll (b : TreeDraft) (calls : List TreeCall) : TreeDraft :=
  calls.foldl attempt b

/-- The token that a call hands over, unless the call fails. -/
def accepted (b : TreeDraft) (c : TreeCall) : List Token :=
  match b.call c with
  | .ok _ => c.token?.toList
  | .error _ => []

def acceptedAll (b : TreeDraft) : List TreeCall → List Token
  | [] => []
  | c :: rest => b.accepted c ++ (b.attempt c).acceptedAll rest

/-- Whether a call opens a node that lies in no other one. -/
def opensOutermost (b : TreeDraft) : TreeCall → Bool
  | .start _ => b.stack.isEmpty
  | _ => false

/-- How many outermost nodes are opened. -/
def openings (b : TreeDraft) : List TreeCall → Nat
  | [] => 0
  | c :: rest => (b.opensOutermost c).toNat + (b.attempt c).openings rest

/-- The leaves of the open nodes from left to right, or those of the tree if no node
is open. -/
def held (b : TreeDraft) : List Token :=
  match b.stack with
  | [] => b.root.elim [] ParseTree.leaves
  | n :: outer => (n :: outer).reverse.flatMap NodeDraft.leaves

variable {b : TreeDraft} {calls : List TreeCall}

theorem acceptedAll_append (b : TreeDraft) (before rest : List TreeCall) :
    b.acceptedAll (before ++ rest) =
      b.acceptedAll before ++ (b.attemptAll before).acceptedAll rest := by
  induction before generalizing b with
  | nil => rfl
  | cons c before ih =>
    rw [List.cons_append, acceptedAll, ih, acceptedAll, List.append_assoc]
    rfl

section Step

/-- What is added to the innermost node comes behind all leaves so far. -/
theorem held_innermost {n n' : NodeDraft} {outer : List NodeDraft} {root : Option ParseTree}
    {more : List Token} (h : n'.leaves = n.leaves ++ more) :
    held ⟨n' :: outer, root⟩ = held ⟨n :: outer, root⟩ ++ more := by
  simp [held, h]

/-- A change of the innermost node is accepted if there is one. -/
theorem held_modifyNode {c : TreeCall} {f : NodeDraft → NodeDraft}
    (hcall : b.call c = b.modifyNode f)
    (hleaves : ∀ n, (f n).leaves = n.leaves ++ c.token?.toList) :
    (b.attempt c).held = b.held ++ b.accepted c := by
  obtain ⟨stack, root⟩ := b
  rw [attempt, accepted, hcall]
  cases stack with
  | nil => exact (List.append_nil _).symm
  | cons n outer => exact held_innermost (hleaves n)

/-- The leaves of a node that is closed stay where they are. -/
theorem held_finishNode {b' : TreeDraft} (h : b.finishNode = .ok b') : b'.held = b.held := by
  obtain ⟨stack, root⟩ := b
  match stack, h with
  | [n], h =>
    obtain rfl := Except.ok.inj h
    simp [held]
  | n :: parent :: outer, h =>
    obtain rfl := Except.ok.inj h
    simp [held]

/-- A call adds the token that it hands over to the leaves.  To open an outermost
node gives up the leaves so far. -/
theorem held_attempt (b : TreeDraft) (c : TreeCall) :
    (b.attempt c).held = (if b.opensOutermost c then [] else b.held) ++ b.accepted c := by
  cases c with
  | start rule =>
    obtain ⟨stack, root⟩ := b
    cases stack with
    | nil => rfl
    | cons n outer => simp [attempt, accepted, call, start, held, opensOutermost, TreeCall.token?,
        NodeDraft.leaves, ParseTree.leavesOfAll]
  | finish =>
    rw [attempt, accepted, call]
    cases hfinish : b.finishNode with
    | error defect => exact (List.append_nil _).symm
    | ok b' => exact (held_finishNode hfinish).trans (List.append_nil _).symm
  | token t => exact held_modifyNode rfl fun n => n.leaves_add _
  | skipped t => exact held_modifyNode rfl fun n => n.leaves_add _
  | inserted t => exact held_modifyNode rfl fun n => n.leaves_add _
  | wrap => exact held_modifyNode rfl fun n => n.leaves_wrap.trans (List.append_nil _).symm
  | setAlt alt =>
    obtain ⟨stack, root⟩ := b
    cases stack with
    | nil => exact (List.append_nil _).symm
    | cons n outer => exact held_innermost ((n.leaves_setAlt alt).trans (List.append_nil _).symm)
  | fail =>
    obtain ⟨stack, root⟩ := b
    cases stack with
    | nil => exact (List.append_nil _).symm
    | cons n outer => exact held_innermost (n.leaves_fail.trans (List.append_nil _).symm)

end Step

section Run

theorem stack_of_opensOutermost {c : TreeCall} (h : b.opensOutermost c = true) : b.stack = [] := by
  cases c with
  | start rule => exact List.isEmpty_iff.mp h
  | _ => cases h

/-- Where no node is open, only opening one does anything. -/
theorem attempt_of_shut {c : TreeCall} (hshut : b.stack = []) (h : b.opensOutermost c = false) :
    b.attempt c = b ∧ b.accepted c = [] := by
  obtain ⟨stack, root⟩ := b
  obtain rfl : stack = [] := hshut
  cases c with
  | start rule => cases h
  | _ => exact ⟨rfl, rfl⟩

theorem acceptedAll_of_shut (hshut : b.stack = []) (h : b.openings calls = 0) :
    b.acceptedAll calls = [] := by
  induction calls with
  | nil => rfl
  | cons c rest ih =>
    obtain ⟨hopens, hrest⟩ := Nat.add_eq_zero_iff.mp h
    obtain ⟨hsame, hnothing⟩ := attempt_of_shut hshut (Bool.toNat_eq_zero.mp hopens)
    rw [hsame] at hrest
    rw [acceptedAll, hnothing, hsame, ih hrest]
    rfl

theorem openings_append (b : TreeDraft) (before rest : List TreeCall) :
    b.openings (before ++ rest) = b.openings before + (b.attemptAll before).openings rest := by
  induction before generalizing b with
  | nil => exact (Nat.zero_add _).symm
  | cons c before ih =>
    rw [List.cons_append, openings, ih, openings, Nat.add_assoc]
    rfl

/-- The leaves are those at the beginning and all that were accepted since, or they
are all that were accepted since the last outermost node was opened. -/
theorem held_attemptAll (b : TreeDraft) (calls : List TreeCall) :
    (b.openings calls = 0 ∧ (b.attemptAll calls).held = b.held ++ b.acceptedAll calls) ∨
      ∃ before rest, calls = before ++ rest ∧ (b.attemptAll before).stack = [] ∧
        (b.attemptAll before).openings rest = 1 ∧
        (b.attemptAll calls).held = (b.attemptAll before).acceptedAll rest := by
  induction calls generalizing b with
  | nil => exact .inl ⟨rfl, (List.append_nil _).symm⟩
  | cons c rest ih =>
    rcases ih (b.attempt c) with ⟨hnone, hheld⟩ | ⟨before, rest, rfl, hlast⟩
    · rw [held_attempt, List.append_assoc] at hheld
      have hcount : b.openings (c :: rest) = (b.opensOutermost c).toNat := by
        rw [openings, hnone, Nat.add_zero]
      cases hopens : b.opensOutermost c with
      | false =>
        rw [hopens] at hheld hcount
        exact .inl ⟨hcount, hheld⟩
      | true =>
        rw [hopens] at hheld hcount
        exact .inr ⟨[], c :: rest, rfl, stack_of_opensOutermost hopens, hcount, hheld⟩
    · exact .inr ⟨c :: before, rest, rfl, hlast⟩

theorem held_of_finish {t : ParseTree} (h : b.finish = .ok t) : t.leaves = b.held := by
  obtain ⟨stack, root⟩ := b
  match stack, root, h with
  | [], some u, h =>
    obtain rfl := Except.ok.inj h
    exact u.leaves_asRoot

/-- Nothing that was accepted is missing if one outermost node was opened. -/
theorem held_of_openings_le_one (hone : openings {} calls ≤ 1) :
    (attemptAll {} calls).held = acceptedAll {} calls := by
  rcases held_attemptAll {} calls with ⟨_, hheld⟩ | ⟨before, rest, rfl, _, hlast, hheld⟩
  · exact hheld
  · rw [openings_append, hlast] at hone
    have hnone : openings {} before = 0 := Nat.le_zero.mp (Nat.le_of_add_le_add_right hone)
    rw [hheld, acceptedAll_append, acceptedAll_of_shut rfl hnone, List.nil_append]

/-- The leaves of a finished tree are the tokens that were accepted since its
outermost node was opened.  Those that were accepted before are in no tree any more,
and there are none of them if that was the only outermost node. -/
theorem leaves_finish {t : ParseTree} (h : (attemptAll {} calls).finish = .ok t) :
    (∃ before rest, calls = before ++ rest ∧ (attemptAll {} before).stack = [] ∧
      (attemptAll {} before).openings rest ≤ 1 ∧
      t.leaves = (attemptAll {} before).acceptedAll rest) ∧
    (openings {} calls ≤ 1 → t.leaves = acceptedAll {} calls) := by
  have hleaves := held_of_finish h
  refine ⟨?_, fun hone => hleaves.trans (held_of_openings_le_one hone)⟩
  rcases held_attemptAll {} calls with ⟨hnone, hheld⟩ | ⟨before, rest, hcalls, hshut, hone, hheld⟩
  · exact ⟨[], calls, rfl, rfl, hnone.trans_le (Nat.zero_le 1), hleaves.trans hheld⟩
  · exact ⟨before, rest, hcalls, hshut, Nat.le_of_eq hone, hleaves.trans hheld⟩

/-- A token that comes before a node is opened is not accepted, and the others are
the leaves, also behind a node that is put into a new one. -/
theorem leaves_finish_wrapped :
    let t (text : String) (i : Int) : Token := .make 1 text i i 1 i.toNat
    let calls : List TreeCall := [.token (t "w" 0), .start "a", .token (t "x" 1), .wrap,
      .inserted (t "y" 2), .start "b", .fail, .skipped (t "z" 3), .finish, .finish, .finish]
    ∃ tree, (attemptAll {} calls).finish = .ok tree ∧
      tree.leaves = [t "x" 1, t "y" 2, t "z" 3] := by
  intro t calls
  obtain ⟨tree, hfinish⟩ : ∃ tree, (attemptAll {} calls).finish = .ok tree := ⟨_, rfl⟩
  exact ⟨tree, hfinish, (leaves_finish hfinish).2 (by decide)⟩

/-- Two outermost nodes, one after the other. -/
def reopened (first second : Token) : List TreeCall :=
  [.start "a", .token first, .finish, .start "b", .token second, .finish]

/-- The second node takes the place of the first one, whose token was accepted. -/
theorem leaves_finish_reopened :
    let x : Token := .make 1 "x" 0 0 1 0
    let y : Token := .make 2 "y" 1 1 1 1
    acceptedAll {} (reopened x y) = [x, y] ∧
      ∃ tree, (attemptAll {} (reopened x y)).finish = .ok tree ∧ tree.leaves = [y] :=
  ⟨rfl, _, rfl, rfl⟩

end Run

end TreeDraft

end AdaptiveLL
