/-
What a run keeps while the strategy is not asked.

Elsewhere a run looks at its tokens, calls the host program, notes events, and goes
from state to state and from rule to rule.  A property that hangs on the leaves, the
tokens that were counted and the tokens that were put in is kept by all of this, so
only the repairs have to be looked at for it.
-/
import AdaptiveLL.Proofs.Parser.Lasting
import AdaptiveLL.Proofs.Parser.Leaves

namespace AdaptiveLL

def Event.inserted? : Event → Option Token
  | .insert t => some t
  | _ => none

namespace Running

variable {α β : Type} {P : Run → Prop}

/-- What holds of a run before the work holds of it behind the work, however that
ends. -/
def Keeps (P : Run → Prop) (w : Running α) : Prop :=
  ∀ r, P r → w.Ends r (fun _ => P) fun _ => P

theorem keeps_pure (a : α) : Keeps P (pure a) := fun _ h => ends_pure h

theorem keeps_throw (o : Obstacle) : Keeps P (throw o : Running α) := fun _ h => ends_throw h

theorem keeps_bind {w : Running α} {f : α → Running β} (hw : w.Keeps P) (hf : ∀ a, (f a).Keeps P) :
    Keeps P (w >>= f) :=
  fun r h => ends_bind ((hw r h).mono fun a r' h' => hf a r' h')

theorem keeps_modify {g : Run → Run} (hg : ∀ r, P r → P (g r)) : Keeps P (modify g) :=
  fun r h => ends_modify (hg r h)

end Running

/-- A property of runs on these tokens that only the work of the strategy can change. -/
structure Run.Steady (ts : List Token) (P : Run → Prop) : Prop where
  stream : ∀ {r}, P r → ∃ i, r.stream.At ts i
  of_same : ∀ {r r'}, P r → r'.frames = r.frames → r'.metrics.tokens = r.metrics.tokens →
    r'.notes = r.notes → (∀ i, r.stream.At ts i → r'.stream.At ts i) → P r'
  emit : ∀ {r e}, P r → e.inserted? = none → P (r.emit e)
  modifyFrame : ∀ {r} {f : Invocation → Invocation}, P r →
    (∀ i, (f i).node.leaves = i.node.leaves) → P (r.modifyFrame f)
  enterRule : ∀ {r}, P r → ∀ n rule follow level, P (r.enterRule n rule follow level)

namespace Run.Steady

open Running

variable {interp : Interpreter} {ts : List Token} {P : Run → Prop}

theorem lasting (hP : Steady ts P) : Lasting ts P where
  placed h := hP.stream h
  stream h _ hat := hP.of_same h rfl rfl rfl hat
  of_same h hstream hframes htokens hnotes _ :=
    hP.of_same h hframes htokens hnotes fun _ hat => hstream ▸ hat
  emit h he := hP.emit h (by
    rename_i e
    cases e with
    | insert => cases he
    | _ => rfl)
  hidden h hf _ := hP.modifyFrame h fun i => congrArg NodeDraft.leaves (hf i)
  setAlt h alt := hP.modifyFrame h fun i => NodeDraft.leaves_setAlt i.node alt
  fail h := hP.modifyFrame h fun i => NodeDraft.leaves_fail i.node
  enterRule h := hP.enterRule h

theorem peek (hP : Steady ts P) : (Interpreter.onStream fun s => s.peek 1).Keeps P :=
  hP.lasting.peek

theorem bindLabel (hP : Steady ts P) (s : State) (t : Token) :
    (Interpreter.bindLabel s t).Keeps P :=
  hP.lasting.bindLabel s t

theorem abandon {r : Run} (hP : Steady ts P) (h : P r) (interp : Interpreter) :
    P (interp.abandon r) :=
  hP.lasting.abandon h interp

/-- A visit keeps the property if the work before a decision does, and the reading
of a token. -/
theorem visit (hP : Steady ts P) {id : StateId} {s : State}
    (halign : (interp.tryRepair Repairing.align).Keeps P)
    (hmatch : ∀ t ∈ s.transitions, t.isEpsilon = false → (interp.matchToken s t).Keeps P) :
    (interp.visit id s).Keeps P :=
  hP.lasting.visit (fun h _ => h) halign hmatch fun _ _ h =>
    hP.modifyFrame h fun i => NodeDraft.leaves_wrap i.node

end Run.Steady

end AdaptiveLL
