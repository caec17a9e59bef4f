/-
What an exploration takes up.

The exploration has an invariant of its items, and it takes up everything that must be
taken up behind an item, if it may take enough steps.  What it still has to take up is
counted by the keys that it has not seen.
-/
import AdaptiveLL.Exploration
import Mathlib.Data.List.Forall2
import Mathlib.Data.List.Nodup

namespace AdaptiveLL

/-- A way to say that work ends with a result of some kind. -/
structure Outcome (m : Type → Type) [Monad m] where
  Returns : {β : Type} → m β → (β → Prop) → Prop
  returns_pure : ∀ {β : Type} {b : β} {Q : β → Prop}, Q b → Returns (pure b) Q
  returns_bind : ∀ {β γ : Type} {w : m β} {f : β → m γ} {Q : β → Prop} {R : γ → Prop},
    Returns w Q → (∀ b, Q b → Returns (f b) R) → Returns (w >>= f) R
  returns_mono : ∀ {β : Type} {w : m β} {Q R : β → Prop}, (∀ b, Q b → R b) → Returns w Q →
    Returns w R

def Outcome.ofId : Outcome Id where
  Returns w Q := Q (Id.run w)
  returns_pure h := h
  returns_bind h hf := hf _ h
  returns_mono hQR h := hQR _ h

/-- Work on each item of a list ends with a result for each item. -/
theorem Outcome.returns_mapM {m : Type → Type} [Monad m] [LawfulMonad m] (outcome : Outcome m)
    {α β : Type} {f : α → m β} {Q : α → β → Prop} {xs : List α}
    (h : ∀ x ∈ xs, outcome.Returns (f x) (Q x)) :
    outcome.Returns (xs.mapM f) (List.Forall₂ Q xs) := by
  induction xs with
  | nil =>
    rw [List.mapM_nil]
    exact outcome.returns_pure .nil
  | cons x xs ih =>
    obtain ⟨hx, hxs⟩ := List.forall_mem_cons.mp h
    rw [List.mapM_cons]
    refine outcome.returns_bind hx fun y hy => outcome.returns_bind (ih hxs) fun ys hys => ?_
    exact outcome.returns_pure (.cons hy hys)

variable {α κ : Type} [Ord κ] [Std.TransOrd κ] [Std.LawfulEqOrd κ] {key : α → κ}

def Explored.nothing : Explored key := {}

/-- The keys of a list that were not seen yet. -/
def Explored.unseen (seen : Explored key) (keys : List κ) : List κ :=
  keys.filter fun k => !seen.keys.contains k

theorem Explored.contains_add {seen : Explored key} {x : α} {k : κ} :
    (seen.add x).keys.contains k = (compare (key x) k == .eq || seen.keys.contains k) := by
  rw [Explored.add, Std.TreeSet.contains_insert]

theorem Explored.unseen_add_lt {seen : Explored key} {x : α} {keys : List κ}
    (hnew : seen.has x = false) (hkey : key x ∈ keys) :
    ((seen.add x).unseen keys).length < (seen.unseen keys).length := by
  have hsplit : (seen.add x).unseen keys =
      (seen.unseen keys).filter fun k => !(compare (key x) k == .eq) := by
    rw [Explored.unseen, Explored.unseen, List.filter_filter]
    refine List.filter_congr fun k _ => ?_
    rw [Explored.contains_add, Bool.not_or]
  rw [hsplit, List.length_filter_lt_length_iff_exists]
  refine ⟨key x, List.mem_filter.mpr ⟨hkey, ?_⟩, by simp⟩
  simpa [Explored.has] using hnew

/-- What an exploration has taken up is closed: of everything that must follow an
item, an item of the same key was taken up. -/
structure Closed (key : α → κ) (Inv : α → Prop) (Must : α → α → Prop) (work items : List α) :
    Prop where
  inv : ∀ x ∈ items, Inv x
  covers : ∀ x ∈ work, ∃ y ∈ items, key y = key x
  closed : ∀ x ∈ items, ∀ y, Must x y → ∃ z ∈ items, key z = key y

variable {m : Type → Type} [Monad m] {next : α → m (List α)} {Inv : α → Prop}
  {Must : α → α → Prop} {keys : List κ} {most : Nat}

omit [Std.TransOrd κ] [Std.LawfulEqOrd κ] in
theorem Closed.of_done {seen : Explored key} (hseen : ∀ x ∈ seen.items, Inv x)
    (hclosed : ∀ x ∈ seen.items, ∀ y, Must x y →
      ∃ z, (z ∈ seen.items ∨ z ∈ ([] : List α)) ∧ key z = key y) :
    Closed key Inv Must ([] ++ seen.items) seen.items.reverse := by
  refine ⟨fun x hx => hseen x (List.mem_reverse.mp hx),
    fun x hx => ⟨x, List.mem_reverse.mpr hx, rfl⟩, fun x hx y hy => ?_⟩
  obtain ⟨z, hz | hz, hkey⟩ := hclosed x (List.mem_reverse.mp hx) y hy
  · exact ⟨z, List.mem_reverse.mpr hz, hkey⟩
  · cases hz

/-- An exploration that may take up every key, and whatever follows it, is closed. -/
theorem explore_from (outcome : Outcome m)
    (hkeys : ∀ x, Inv x → key x ∈ keys)
    (hnext : ∀ x, Inv x → outcome.Returns (next x) fun found => found.length ≤ most ∧
      (∀ y ∈ found, Inv y) ∧ ∀ y, Must x y → ∃ z ∈ found, key z = key y)
    {steps : Nat} {work : List α} {seen : Explored key} (hwork : ∀ x ∈ work, Inv x)
    (hseen : ∀ x ∈ seen.items, Inv x)
    (hclosed : ∀ x ∈ seen.items, ∀ y, Must x y → ∃ z, (z ∈ seen.items ∨ z ∈ work) ∧ key z = key y)
    (hsteps : work.length + (seen.unseen keys).length * most ≤ steps) :
    outcome.Returns (explore key next steps work seen)
      (Closed key Inv Must (work ++ seen.items)) := by
  induction steps generalizing work seen with
  | zero =>
    obtain rfl : work = [] := List.eq_nil_of_length_eq_zero (by omega)
    rw [explore]
    exact outcome.returns_pure (.of_done hseen hclosed)
  | succ steps ih =>
    cases work with
    | nil =>
      rw [explore]
      exact outcome.returns_pure (.of_done hseen hclosed)
    | cons x work =>
      rw [explore]
      rw [List.length_cons] at hsteps
      split
      · rename_i hold
        obtain ⟨y, hy, hkey⟩ := Explored.has_iff.mp hold
        refine outcome.returns_mono (fun items hitems => ?_)
          (ih (fun z hz => hwork z (List.mem_cons_of_mem _ hz)) hseen ?_ (by omega))
        · refine ⟨hitems.inv, fun z hz => ?_, hitems.closed⟩
          rcases List.mem_cons.mp hz with rfl | hz
          · obtain ⟨u, hu, hsame⟩ := hitems.covers y (List.mem_append_right _ hy)
            exact ⟨u, hu, hsame.trans hkey⟩
          · exact hitems.covers z hz
        · intro z hz u hu
          obtain ⟨w, hw | hw, hsame⟩ := hclosed z hz u hu
          · exact ⟨w, .inl hw, hsame⟩
          · rcases List.mem_cons.mp hw with rfl | hw
            · exact ⟨y, .inl hy, hkey.trans hsame⟩
            · exact ⟨w, .inr hw, hsame⟩
      · rename_i hnew
        have hx := hwork x List.mem_cons_self
        have hless := seen.unseen_add_lt (by simpa using hnew) (hkeys x hx)
        refine outcome.returns_bind (hnext x hx) fun found hfound => ?_
        obtain ⟨hlength, hfoundInv, hmust⟩ := hfound
        have hbudget : ((seen.add x).unseen keys).length * most + most ≤
            (seen.unseen keys).length * most := by
          rw [← Nat.succ_mul]
          exact Nat.mul_le_mul_right most hless
        refine outcome.returns_mono (fun items hitems => ?_) (ih
          ?_ ?_ ?_ ?_)
        · refine ⟨hitems.inv, fun z hz => hitems.covers z ?_, hitems.closed⟩
          simp only [Explored.add, List.mem_append, List.mem_cons] at hz ⊢
          rcases hz with (hz | hz) | hz <;> simp [hz]
        · intro z hz
          rcases List.mem_append.mp hz with hz | hz
          · exact hfoundInv z hz
          · exact hwork z (List.mem_cons_of_mem _ hz)
        · intro z hz
          rcases List.mem_cons.mp hz with rfl | hz
          · exact hx
          · exact hseen z hz
        · intro z hz u hu
          rcases List.mem_cons.mp hz with rfl | hz
          · obtain ⟨w, hw, hsame⟩ := hmust u hu
            exact ⟨w, .inr (List.mem_append_left _ hw), hsame⟩
          · obtain ⟨w, hw | hw, hsame⟩ := hclosed z hz u hu
            · exact ⟨w, .inl (List.mem_cons_of_mem _ hw), hsame⟩
            · rcases List.mem_cons.mp hw with rfl | hw
              · exact ⟨w, .inl List.mem_cons_self, hsame⟩
              · exact ⟨w, .inr (List.mem_append_right _ hw), hsame⟩
        · rw [List.length_append]
          omega

/-- An exploration from the beginning is closed if it may take enough steps. -/
theorem explore_closed (outcome : Outcome m) (hkeys : ∀ x, Inv x → key x ∈ keys)
    (hnext : ∀ x, Inv x → outcome.Returns (next x) fun found => found.length ≤ most ∧
      (∀ y ∈ found, Inv y) ∧ ∀ y, Must x y → ∃ z ∈ found, key z = key y)
    {steps : Nat} {work : List α} (hwork : ∀ x ∈ work, Inv x)
    (hsteps : work.length + keys.length * most ≤ steps) :
    outcome.Returns (explore key next steps work {}) (Closed key Inv Must work) := by
  have hunseen : (({} : Explored key).unseen keys).length * most ≤ keys.length * most :=
    Nat.mul_le_mul_right most (List.length_filter_le _ _)
  refine outcome.returns_mono (fun items hitems => ?_)
    (explore_from outcome hkeys hnext hwork (by simp) (by simp) (by omega))
  simpa using hitems

/-- What holds of the work, and of what follows whatever it holds of, holds of all
items that an exploration takes up. -/
theorem explore_forall {next : α → List α} (hnext : ∀ x, Inv x → ∀ y ∈ next x, Inv y)
    {steps : Nat} {work : List α} {seen : Explored key} (hwork : ∀ x ∈ work, Inv x)
    (hseen : ∀ x ∈ seen.items, Inv x) :
    ∀ x ∈ Id.run (explore key (fun x => pure (next x)) steps work seen), Inv x := by
  induction steps generalizing work seen with
  | zero => exact fun x hx => hseen x (List.mem_reverse.mp hx)
  | succ steps ih =>
    cases work with
    | nil => exact fun x hx => hseen x (List.mem_reverse.mp hx)
    | cons x work =>
      obtain ⟨hx, hwork⟩ := List.forall_mem_cons.mp hwork
      rw [explore]
      split
      · exact ih hwork hseen
      · exact ih (List.forall_mem_append.mpr ⟨hnext x hx, hwork⟩)
          (List.forall_mem_cons.mpr ⟨hx, hseen⟩)

/-- A run of an exploration without effects, with no bound on its steps: an item is
dropped if its key was seen; else it is taken up and what follows it goes in front
of the work that is left, until none is. -/
inductive Traverses (key : α → κ) (next : α → List α) : List α → Explored key → List α → Prop where
  | done {seen} : Traverses key next [] seen seen.items.reverse
  | drop {x work seen items} (hold : seen.has x = true)
    (hrest : Traverses key next work seen items) :
      Traverses key next (x :: work) seen items
  | take {x work seen items} (hnew : seen.has x = false)
      (hrest : Traverses key next (next x ++ work) (seen.add x) items) :
      Traverses key next (x :: work) seen items

namespace Traverses

variable {next : α → List α}

/-- An exploration that may take up every key, and whatever follows it, runs to its
end. -/
theorem of_explore (hkeys : ∀ x, Inv x → key x ∈ keys)
    (hnext : ∀ x, Inv x → (next x).length ≤ most ∧ ∀ y ∈ next x, Inv y)
    {steps : Nat} {work : List α} {seen : Explored key} (hwork : ∀ x ∈ work, Inv x)
    (hsteps : work.length + (seen.unseen keys).length * most ≤ steps) :
    Traverses key next work seen
      (Id.run (explore key (fun x => pure (next x)) steps work seen)) := by
  induction steps generalizing work seen with
  | zero =>
    obtain rfl : work = [] := List.eq_nil_of_length_eq_zero (by omega)
    exact .done
  | succ steps ih =>
    cases work with
    | nil => exact .done
    | cons x work =>
      obtain ⟨hx, hwork⟩ := List.forall_mem_cons.mp hwork
      rw [List.length_cons] at hsteps
      rw [explore]
      by_cases hold : seen.has x = true
      · rw [if_pos hold]
        exact .drop hold (ih hwork (by omega))
      · rw [if_neg hold]
        have hnew : seen.has x = false := by simpa using hold
        obtain ⟨hlength, hinv⟩ := hnext x hx
        -- one key less is unseen, which pays for what follows the item
        have hbudget : ((seen.add x).unseen keys).length * most + most ≤
            (seen.unseen keys).length * most := by
          rw [← Nat.succ_mul]
          exact Nat.mul_le_mul_right most (seen.unseen_add_lt hnew (hkeys x hx))
        apply Traverses.take hnew
        apply ih (List.forall_mem_append.mpr ⟨hinv, hwork⟩)
        rw [List.length_append]
        omega

/-- No two items that are taken up have the same key. -/
theorem nodup {work items : List α} {seen : Explored key} (h : Traverses key next work seen items)
    (hseen : (seen.items.map key).Nodup) : (items.map key).Nodup := by
  induction h with
  | done =>
    rw [List.map_reverse]
    exact List.nodup_reverse.mpr hseen
  | drop _ _ ih => exact ih hseen
  | take hnew _ ih =>
    apply ih
    apply List.nodup_cons.mpr
    refine ⟨fun hmem => ?_, hseen⟩
    obtain ⟨y, hy, hkey⟩ := List.mem_map.mp hmem
    have hhas := Explored.has_iff.mpr ⟨y, hy, hkey⟩
    rw [hnew] at hhas
    cases hhas

end Traverses

end AdaptiveLL
