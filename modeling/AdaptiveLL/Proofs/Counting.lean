/-
How many stacks there are.

A stack that a walk comes to has some frames of known calls on top of a tail of a stack
that the walk started with.
-/
import AdaptiveLL.CallStack

namespace AdaptiveLL

theorem length_flatMap_of_const {α β : Type} {xs : List α} {f : α → List β} {length : Nat}
    (h : ∀ x, (f x).length = length) : (xs.flatMap f).length = xs.length * length := by
  simp [List.length_flatMap, h, List.map_const']

theorem foldl_add_eq_length {α β : Type} {xs : List α} {f : α → Nat} {g : α → List β}
    (h : ∀ x, (g x).length = f x) (k : Nat) :
    xs.foldl (fun n x => n + f x) k = k + (xs.flatMap g).length := by
  induction xs generalizing k with
  | nil => rfl
  | cons x xs ih =>
    rw [List.foldl_cons, ih, List.flatMap_cons, List.length_append, h, Nat.add_assoc]

/-- All lists of at most some length with members of a list. -/
def listsUpTo {α : Type} (members : List α) : Nat → List (List α)
  | 0 => [[]]
  | length + 1 => [] :: members.flatMap fun x => (listsUpTo members length).map (x :: ·)

theorem mem_listsUpTo {α : Type} {members xs : List α} {length : Nat} (hxs : xs ⊆ members)
    (hlength : xs.length ≤ length) : xs ∈ listsUpTo members length := by
  induction length generalizing xs with
  | zero =>
    rw [List.eq_nil_of_length_eq_zero (Nat.le_zero.mp hlength)]
    exact List.mem_cons_self
  | succ length ih =>
    cases xs with
    | nil => exact List.mem_cons_self
    | cons x xs =>
      obtain ⟨hx, hxs⟩ := List.cons_subset.mp hxs
      refine List.mem_cons_of_mem _ (List.mem_flatMap.mpr ⟨x, hx, List.mem_map.mpr ⟨xs, ?_, rfl⟩⟩)
      exact ih hxs (Nat.le_of_succ_le_succ hlength)

theorem length_listsUpTo_le {α : Type} (members : List α) (length : Nat) :
    (listsUpTo members length).length ≤ (members.length + 1).pow length := by
  change _ ≤ (members.length + 1) ^ length
  induction length with
  | zero => exact Nat.le_refl _
  | succ length ih =>
    have hcount : (members.flatMap fun x => (listsUpTo members length).map (x :: ·)).length =
        members.length * (listsUpTo members length).length :=
      length_flatMap_of_const fun _ => List.length_map _
    rw [listsUpTo, List.length_cons, hcount, Nat.pow_succ, Nat.mul_succ]
    have hpos : 1 ≤ (members.length + 1) ^ length := Nat.one_le_pow _ _ (Nat.succ_pos _)
    have hmul := Nat.mul_le_mul_left members.length ih
    rw [Nat.mul_comm ((members.length + 1) ^ length)]
    omega

/-- The stacks with at most some frames of a list on top of one of several stacks. -/
def stacksOver (frames : List Frame) (length : Nat) (bases : List CallStack) : List CallStack :=
  bases.flatMap fun base => (listsUpTo frames length).map (· ++ base)

theorem mem_stacksOver {frames : List Frame} {length : Nat} {bases : List CallStack}
    {top base : CallStack} (hframes : top ⊆ frames) (hlength : top.length ≤ length)
    (hbase : base ∈ bases) : top ++ base ∈ stacksOver frames length bases :=
  List.mem_flatMap.mpr ⟨base, hbase, List.mem_map.mpr ⟨top, mem_listsUpTo hframes hlength, rfl⟩⟩

theorem length_stacksOver_le (frames : List Frame) (length : Nat) (bases : List CallStack) :
    (stacksOver frames length bases).length ≤ bases.length * (frames.length + 1).pow length := by
  have hcount : (stacksOver frames length bases).length =
      bases.length * (listsUpTo frames length).length :=
    length_flatMap_of_const fun _ => List.length_map _
  rw [hcount]
  exact Nat.mul_le_mul_left _ (length_listsUpTo_le frames length)

end AdaptiveLL
