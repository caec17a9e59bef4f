/-
How a network is walked without reading a token.

A spot is a state under a stack, with the precedence of the invocation that is
running.  A drift looks through predicates and precedences, a silent step heeds the
precedences.  A spot completes a word if the network can read the word from there
and end the outermost rule.
-/
import AdaptiveLL.Proofs.Layout
import Mathlib.Logic.Relation

namespace AdaptiveLL

/-- A state under a stack, with the precedence of the running invocation. -/
structure Spot where
  state : StateId
  precedence : Int
  stack : CallStack

namespace Spot

def along (p : Spot) : Transition → Option Spot
  | .epsilon target => some { p with state := target }
  | .predicate target _ _ => some { p with state := target }
  | .precedence target _ => some { p with state := target }
  | .action target _ _ => some { p with state := target }
  | .call target _ follow level => some ⟨target, level, ⟨follow, p.precedence⟩ :: p.stack⟩
  | .atom _ _ => none
  | .set _ _ => none
  | .wildcard _ => none

/-- Whether the precedence of the invocation lets a transition pass. -/
def admits (p : Spot) : Transition → Bool
  | .precedence _ level => p.precedence ≤ level
  | _ => true

def behind (frame : Frame) (stack : CallStack) : Spot :=
  ⟨frame.returnState, frame.precedence, stack⟩

end Spot

/-- A step that reads nothing, whatever the predicates and precedences on it. -/
inductive Drift (g : Graph) : Spot → Spot → Prop where
  | pass {p q s t} (hs : g.state? p.state = some s) (hrun : s.isStop = false)
      (ht : t ∈ s.transitions) (hq : p.along t = some q) : Drift g p q
  | back {p s frame stack} (hs : g.state? p.state = some s) (hstop : s.isStop = true)
      (hstack : p.stack = frame :: stack) : Drift g p (Spot.behind frame stack)

/-- A step that reads nothing and is not held up by a precedence. -/
inductive Silent (g : Graph) : Spot → Spot → Prop where
  | pass {p q s t} (hs : g.state? p.state = some s) (hrun : s.isStop = false)
      (ht : t ∈ s.transitions) (hpass : p.admits t = true) (hq : p.along t = some q) :
      Silent g p q
  | back {p s frame stack} (hs : g.state? p.state = some s) (hstop : s.isStop = true)
      (hstack : p.stack = frame :: stack) : Silent g p (Spot.behind frame stack)

theorem Silent.drift {g : Graph} {p q : Spot} (h : Silent g p q) : Drift g p q := by
  cases h with
  | pass hs hrun ht _ hq => exact .pass hs hrun ht hq
  | back hs hstop hstack => exact .back hs hstop hstack

section

variable {g : Graph} {rule : RuleIndex} {id : StateId} {ts : List Transition} {p q : Spot}

theorem Drift.of_leadsOn (hp : g.LeadsOn rule p.state ts) (h : Drift g p q) :
    ∃ t ∈ ts, p.along t = some q := by
  obtain ⟨s, hs, hrun, rfl⟩ := hp.state
  cases h with
  | pass hs' _ ht hq =>
    obtain rfl : s = _ := Option.some.inj (hs.symm.trans hs')
    exact ⟨_, ht, hq⟩
  | back hs' hstop _ =>
    obtain rfl : s = _ := Option.some.inj (hs.symm.trans hs')
    exact absurd hstop (by simp [hrun])

theorem Drift.of_stops (hp : g.Stops rule p.state) (h : Drift g p q) :
    ∃ frame stack, p.stack = frame :: stack ∧ q = .behind frame stack := by
  obtain ⟨s, hs, hstop⟩ := hp.state
  cases h with
  | pass hs' hrun _ _ =>
    obtain rfl : s = _ := Option.some.inj (hs.symm.trans hs')
    exact absurd hstop (by simp [hrun])
  | back _ _ hstack => exact ⟨_, _, hstack, rfl⟩

theorem Silent.of_leadsOn {t : Transition} (hp : g.LeadsOn rule p.state ts) (ht : t ∈ ts)
    (hpass : p.admits t = true) (hq : p.along t = some q) : Silent g p q := by
  obtain ⟨s, hs, hrun, rfl⟩ := hp.state
  exact .pass hs hrun ht hpass hq

theorem Silent.of_stops {frame : Frame} {stack : CallStack} (hp : g.Stops rule p.state)
    (hstack : p.stack = frame :: stack) : Silent g p (.behind frame stack) := by
  obtain ⟨s, hs, hstop⟩ := hp.state
  exact .back hs hstop hstack

end

abbrev Drifts (g : Graph) : Spot → Spot → Prop :=
  Relation.ReflTransGen (Drift g)

abbrev Silents (g : Graph) : Spot → Spot → Prop :=
  Relation.ReflTransGen (Silent g)

theorem Silents.drifts {g : Graph} {p q : Spot} (h : Silents g p q) : Drifts g p q :=
  Relation.ReflTransGen.mono (fun _ _ => Silent.drift) _ _ h

/-- Every way to go on from a spot without reading a token comes to an end. -/
def Settles (g : Graph) (p : Spot) : Prop :=
  Acc (fun q p => Drift g p q) p

/-- A spot completes a word in a number of steps if the network can read the word
from there and end the outermost rule. -/
inductive CompletesIn (g : Graph) : Nat → Spot → List TokenType → Prop where
  | done {p} (hstop : g.isStop p.state = true) (hstack : p.stack = []) : CompletesIn g 0 p []
  | silent {n p q w} (hstep : Silent g p q) (hrest : CompletesIn g n q w) :
      CompletesIn g (n + 1) p w
  | read {n p s t a w} (hs : g.state? p.state = some s) (hrun : s.isStop = false)
      (ht : t ∈ s.transitions) (ha : t.accepts g.maxType a = true)
      (hrest : CompletesIn g n { p with state := t.target } w) :
      CompletesIn g (n + 1) p (a :: w)

/-- A spot completes a word if the network can read the word from there and end the
outermost rule. -/
def Completes (g : Graph) (p : Spot) (w : List TokenType) : Prop :=
  ∃ n, CompletesIn g n p w

namespace Completes

variable {g : Graph}

theorem done {p : Spot} (hstop : g.isStop p.state = true) (hstack : p.stack = []) :
    Completes g p [] :=
  ⟨0, .done hstop hstack⟩

theorem silent {p q : Spot} {w : List TokenType} (hstep : Silent g p q)
    (hrest : Completes g q w) : Completes g p w := by
  obtain ⟨n, hn⟩ := hrest
  exact ⟨n + 1, .silent hstep hn⟩

theorem silents {p q : Spot} {w : List TokenType} (hsteps : Silents g p q)
    (hrest : Completes g q w) : Completes g p w := by
  induction hsteps using Relation.ReflTransGen.head_induction_on with
  | refl => exact hrest
  | head hstep _ ih => exact ih.silent hstep

theorem read {p : Spot} {s : State} {t : Transition} {a : TokenType} {w : List TokenType}
    (hs : g.state? p.state = some s) (hrun : s.isStop = false) (ht : t ∈ s.transitions)
    (ha : t.accepts g.maxType a = true) (hrest : Completes g { p with state := t.target } w) :
    Completes g p (a :: w) := by
  obtain ⟨n, hn⟩ := hrest
  exact ⟨n + 1, .read hs hrun ht ha hn⟩

end Completes

end AdaptiveLL
