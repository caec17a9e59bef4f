/-
A run some steps later.

A run that goes on for some steps is a part of every longer run.
-/
import AdaptiveLL.Parser

namespace AdaptiveLL

namespace Interpreter

/-- The run after so many steps, if it goes on for so long. -/
def after (interp : Interpreter) : (steps : Nat) → Run → Option Run
  | 0, r => some r
  | steps + 1, r =>
    match interp.step.run r with
    | (.running, r') => after interp steps r'
    | _ => none

variable {interp : Interpreter} {steps : Nat} {r r' r'' : Run}

/-- Behind a step that goes on the loop has one step less. -/
theorem loop_of_running (hstep : interp.step.run r = (.running, r')) (steps : Nat) :
    interp.loop (steps + 1) r = interp.loop steps r' := by
  rw [loop, hstep]

/-- With the last step the loop ends, and the errors of the lexer that are left are
told. -/
theorem loop_of_finished (hstep : interp.step.run r = (.finished, r')) (steps : Nat) :
    interp.loop (steps + 1) r = (.finished, r'.flushLexErrors) := by
  rw [loop, hstep]

/-- A run that goes on took a step that it goes on behind. -/
theorem after_succ (h : interp.after (steps + 1) r = some r') :
    ∃ r₁, interp.step.run r = (.running, r₁) ∧ interp.after steps r₁ = some r' := by
  unfold after at h
  split at h
  · exact ⟨_, ‹_›, h⟩
  · cases h

/-- What every step keeps holds of a run after any number of steps. -/
theorem after_keeps {P : Run → Prop}
    (hkept : ∀ r r', P r → interp.step.run r = (.running, r') → P r') (hr : P r)
    (h : interp.after steps r = some r') : P r' := by
  induction steps generalizing r with
  | zero =>
    obtain rfl := Option.some.inj h
    exact hr
  | succ steps ih =>
    obtain ⟨r₁, hstep, hafter⟩ := after_succ h
    exact ih (hkept r r₁ hr hstep) hafter

def Reaches (interp : Interpreter) (r r' : Run) : Prop :=
  ∃ steps, interp.after steps r = some r'

namespace Reaches

theorem refl (r : Run) : interp.Reaches r r :=
  ⟨0, rfl⟩

theorem step (hstep : interp.step.run r = (.running, r')) (h : interp.Reaches r' r'') :
    interp.Reaches r r'' := by
  obtain ⟨steps, hafter⟩ := h
  refine ⟨steps + 1, ?_⟩
  rw [after, hstep]
  exact hafter

/-- The loop goes on from where a run comes to. -/
theorem loop_eq (h : interp.Reaches r r') :
    ∃ steps, ∀ more, interp.loop (steps + more) r = interp.loop more r' := by
  obtain ⟨steps, hafter⟩ := h
  refine ⟨steps, fun more => ?_⟩
  induction steps generalizing r with
  | zero =>
    obtain rfl := Option.some.inj hafter
    rw [Nat.zero_add]
  | succ steps ih =>
    obtain ⟨r₁, hstep, hafter⟩ := after_succ hafter
    rw [Nat.add_right_comm, loop_of_running hstep]
    exact ih hafter

end Reaches

end Interpreter

end AdaptiveLL
