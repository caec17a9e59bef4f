/-
The ways that the paths of a prediction go.

A walker goes through a network as a path is meant to go: it heeds precedences, it
heeds predicates until it takes an action or reads a token, and it notes when it
gets below the stack of the decision.  On every network and for every host program,
each path of a prediction goes the way of a walker, and each predicate that counts
on that way was answered with yes in this prediction.
-/
import AdaptiveLL.Proofs.Prediction.Choice

namespace AdaptiveLL

/-- Somebody at a spot, who may have to heed predicates still, and may have left the
rule of the decision. -/
structure Walker where
  spot : Spot
  guarded : Bool := true
  leftRule : Bool := false

/-- The predicate on a transition, if there is one, is among those that hold. -/
def Transition.Holds (n : Network) (holds : String → String → Prop) : Transition → Prop
  | .predicate _ rule index => holds (n.ruleName rule) (n.predicateText index)
  | _ => True

def Transition.isAction : Transition → Bool
  | .action _ _ _ => true
  | _ => false

namespace Walker

/-- A transition that reads nothing takes one walker to the place of the other. -/
structure Takes (n : Network) (holds : String → String → Prop) (p : Walker) (t : Transition)
    (q : Walker) : Prop where
  admits : p.spot.admits t = true
  holds : p.guarded = true → t.Holds n holds
  along : p.spot.along t = some q.spot
  guarded : q.guarded = (p.guarded && !t.isAction)
  leftRule : q.leftRule = p.leftRule

/-- A step that reads nothing, in a decision with `outer` frames on its stack. -/
inductive Step (n : Network) (holds : String → String → Prop) (outer : Nat) :
    Walker → Walker → Prop where
  | pass {p q s t} (hs : n.state? p.spot.state = some s) (hrun : s.isStop = false)
      (ht : t ∈ s.transitions) (htakes : p.Takes n holds t q) : Step n holds outer p q
  | back {p s frame stack} (hs : n.state? p.spot.state = some s) (hstop : s.isStop = true)
      (hstack : p.spot.stack = frame :: stack) :
      Step n holds outer p ⟨.behind frame stack, p.guarded, p.leftRule || stack.length < outer⟩

/-- The ways on which some tokens are read, one after the other.  Who has ended the
outermost rule may stay there, whatever the next token is. -/
inductive Walks (n : Network) (holds : String → String → Prop) (outer : Nat) (p : Walker) :
    List TokenType → Walker → Prop where
  | start : Walks n holds outer p [] p
  | step {w q r} (hway : Walks n holds outer p w q) (hstep : Step n holds outer q r) :
      Walks n holds outer p w r
  | read {w q s t a} (hway : Walks n holds outer p w q) (hs : n.state? q.spot.state = some s)
      (hrun : s.isStop = false) (ht : t ∈ s.transitions) (ha : t.accepts n.maxType a = true) :
      Walks n holds outer p (w ++ [a]) ⟨{ q.spot with state := t.target }, false, q.leftRule⟩
  | stay {w q a} (hway : Walks n holds outer p w q) (hstop : n.isStop q.spot.state = true)
      (hstack : q.spot.stack = []) : Walks n holds outer p (w ++ [a]) q

end Walker

namespace Decision

/-- Whoever stands at a decision. -/
def walker (d : Decision) : Walker where
  spot := d.spot

/-- An alternative of a decision, counted from one, can be begun and leads to this
walker. -/
def Begins (d : Decision) (n : Network) (holds : String → String → Prop) (alt : Nat) (p : Walker) :
    Prop :=
  0 < alt ∧ ∃ s t, n.state? d.state = some s ∧ s.transitions[alt - 1]? = some t ∧
    d.walker.Takes n holds t p

/-- A way that begins with an alternative leads over some tokens to this walker. -/
def Reaches (d : Decision) (n : Network) (holds : String → String → Prop) (alt : Nat)
    (w : List TokenType) (q : Walker) : Prop :=
  ∃ p, d.Begins n holds alt p ∧ Walker.Walks n holds d.stack.length p w q

end Decision

section Mono

variable {n : Network} {holds holds' : String → String → Prop} {outer : Nat} {p q : Walker}
  {t : Transition} {w : List TokenType}

theorem Transition.Holds.mono (hmono : ∀ rule text, holds rule text → holds' rule text)
    (h : t.Holds n holds) : t.Holds n holds' := by
  cases t with
  | predicate => exact hmono _ _ h
  | _ => trivial

theorem Walker.Takes.mono (hmono : ∀ rule text, holds rule text → holds' rule text)
    (h : p.Takes n holds t q) : p.Takes n holds' t q where
  admits := h.admits
  holds hguarded := (h.holds hguarded).mono hmono
  along := h.along
  guarded := h.guarded
  leftRule := h.leftRule

theorem Walker.Step.mono (hmono : ∀ rule text, holds rule text → holds' rule text)
    (h : Step n holds outer p q) : Step n holds' outer p q := by
  cases h with
  | pass hs hrun ht htakes => exact .pass hs hrun ht (htakes.mono hmono)
  | back hs hstop hstack => exact .back hs hstop hstack

theorem Walker.steps_mono (hmono : ∀ rule text, holds rule text → holds' rule text)
    (h : Relation.ReflTransGen (Step n holds outer) p q) :
    Relation.ReflTransGen (Step n holds' outer) p q :=
  Relation.ReflTransGen.mono (fun _ _ => Step.mono hmono) _ _ h

theorem Decision.Begins.mono {d : Decision} {alt : Nat}
    (hmono : ∀ rule text, holds rule text → holds' rule text) (h : d.Begins n holds alt p) :
    d.Begins n holds' alt p := by
  obtain ⟨hpos, s, t, hs, ht, htakes⟩ := h
  exact ⟨hpos, s, t, hs, ht, htakes.mono hmono⟩

theorem Walker.Walks.steps (h : Walks n holds outer p w q) {r : Walker}
    (hsteps : Relation.ReflTransGen (Step n holds outer) q r) : Walks n holds outer p w r := by
  induction hsteps with
  | refl => exact h
  | tail _ hstep ih => exact ih.step hstep

end Mono

/-- These calls of the host program answer the predicate with yes. -/
def Answered (asked : List HookCall) (rule text : String) : Prop :=
  .predicate rule text true ∈ asked

namespace Asking

variable {β γ : Type}

/-- If the work comes to a result, then to one of some kind for what was asked
meanwhile. -/
def Gives (w : Asking β) (Q : List HookCall → β → Prop) : Prop :=
  ∀ calls b calls', w.run calls = (.ok b, calls') →
    ∃ asked, calls'.toList = calls.toList ++ asked ∧ Q asked b

theorem gives_pure {b : β} {Q : List HookCall → β → Prop} (h : Q [] b) :
    Gives (pure b : Asking β) Q := by
  intro calls b' calls' hrun
  obtain ⟨hb, rfl⟩ := Prod.mk.inj hrun
  obtain rfl := Except.ok.inj hb
  exact ⟨[], by simp, h⟩

theorem gives_bind {w : Asking β} {f : β → Asking γ} {Q : List HookCall → β → Prop}
    {R : List HookCall → γ → Prop} (hw : Gives w Q)
    (hf : ∀ asked b, Q asked b → Gives (f b) fun more c => R (asked ++ more) c) :
    Gives (w >>= f) R := by
  intro calls c calls'' hrun
  simp only [bind, ExceptT.bind, ExceptT.run, StateT.bind, ExceptT.mk] at hrun
  generalize hfirst : w calls = first at hrun
  obtain ⟨b | b, calls'⟩ := first
  · cases hrun
  · obtain ⟨asked, hasked, hb⟩ := hw calls b calls' hfirst
    obtain ⟨more, hmore, hc⟩ := hf asked b hb calls' c calls'' hrun
    exact ⟨asked ++ more, by rw [hmore, hasked, List.append_assoc], hc⟩

theorem gives_mono {w : Asking β} {Q R : List HookCall → β → Prop}
    (hQR : ∀ asked b, Q asked b → R asked b) (h : Gives w Q) : Gives w R := by
  intro calls b calls' hrun
  obtain ⟨asked, hasked, hb⟩ := h calls b calls' hrun
  exact ⟨asked, hasked, hQR _ _ hb⟩

theorem gives_throw (defect : NetworkDefect) (Q : List HookCall → β → Prop) :
    Gives (throw defect : Asking β) Q := by
  intro calls b calls' hrun
  cases hrun

theorem gives_ask (h : Hooks) (rule text : String) :
    Gives (liftM (h.ask rule text) : Asking Bool) fun asked b =>
      asked = [.predicate rule text b] := by
  intro calls b calls' hrun
  obtain ⟨hb, rfl⟩ := Prod.mk.inj hrun
  obtain rfl := Except.ok.inj hb
  exact ⟨_, Array.toList_push, rfl⟩

end Asking

section Explore

variable {α κ : Type} [Ord κ] [Std.TransOrd κ] [Std.LawfulEqOrd κ] {key : α → κ}
  {next : α → Asking (List α)} {Inv : List HookCall → α → Prop}

/-- What holds of the work, and of what follows whatever it holds of, holds of all
that an exploration takes up, if asking more does not harm it. -/
theorem explore_gives (hmono : ∀ asked more x, Inv asked x → Inv (asked ++ more) x)
    (hnext : ∀ asked x, Inv asked x →
      Asking.Gives (next x) fun more found => ∀ y ∈ found, Inv (asked ++ more) y)
    {steps : Nat} {work : List α} {seen : Explored key} {asked : List HookCall}
    (hwork : ∀ x ∈ work, Inv asked x) (hseen : ∀ x ∈ seen.items, Inv asked x) :
    Asking.Gives (explore key next steps work seen) fun more items =>
      ∀ x ∈ items, Inv (asked ++ more) x := by
  have hdone : Asking.Gives (pure seen.items.reverse : Asking (List α)) fun more items =>
      ∀ x ∈ items, Inv (asked ++ more) x :=
    Asking.gives_pure fun x hx => hmono _ _ _ (hseen x (List.mem_reverse.mp hx))
  induction steps generalizing work seen asked with
  | zero => exact hdone
  | succ steps ih =>
    cases work with
    | nil => exact hdone
    | cons x work =>
      obtain ⟨hx, hwork⟩ := List.forall_mem_cons.mp hwork
      rw [explore]
      split
      · exact ih hwork hseen hdone
      · refine Asking.gives_bind (hnext asked x hx) fun more found hfound => ?_
        have hseen' : ∀ y ∈ (seen.add x).items, Inv (asked ++ more) y :=
          List.forall_mem_cons.mpr ⟨hmono _ _ _ hx, fun y hy => hmono _ _ _ (hseen y hy)⟩
        have hwork' : ∀ y ∈ found ++ work, Inv (asked ++ more) y :=
          List.forall_mem_append.mpr ⟨hfound, fun y hy => hmono _ _ _ (hwork y hy)⟩
        refine Asking.gives_mono (fun most items hitems y hy => ?_)
          (ih hwork' hseen' (Asking.gives_pure fun y hy =>
            hmono _ _ _ (hseen' y (List.mem_reverse.mp hy))))
        rw [← List.append_assoc]
        exact hitems y hy

end Explore

namespace Path

def walker (c : Path) : Walker :=
  ⟨c.spot, c.guarded, c.leftRule⟩

variable {n : Network} {host : Option Hooks} {outer : Nat} {c : Path} {t : Transition}

/-- What goes along a transition is taken along as a walker is. -/
theorem takes_of_along {holds : String → String → Prop} {y : Path} (hy : c.along t = some y)
    (hadmits : c.spot.admits t = true) (hholds : c.guarded = true → t.Holds n holds) :
    c.walker.Takes n holds t y.walker := by
  have hspot : c.spot.along t = some y.spot := by rw [spot_along, hy, Option.map_some]
  refine ⟨hadmits, hholds, hspot, ?_, (alt_along hy).2⟩
  cases t with
  | atom | set | wildcard => cases hy
  | _ =>
    obtain rfl := Option.some.inj hy
    simp [walker, Transition.isAction, enter]

/-- Where a transition leads, it takes a walker, and a predicate that counts was
answered with yes.  If nobody can be asked, no predicate may count any more. -/
theorem gives_follow (hhost : host = none → c.guarded = false) (t : Transition) :
    Asking.Gives (c.follow n host t) fun asked r => ∀ y ∈ r,
      y.alt = c.alt ∧ c.walker.Takes n (Answered asked) t y.walker := by
  have hpure {y : Path} (hy : c.along t = some y) (hadmits : c.spot.admits t = true)
      (hholds : c.guarded = true → t.Holds n (Answered [])) :
      Asking.Gives (pure (some y)) fun asked r => ∀ y ∈ r,
        y.alt = c.alt ∧ c.walker.Takes n (Answered asked) t y.walker := by
    refine Asking.gives_pure fun y' hy' => ?_
    obtain rfl := Option.some.inj hy'
    exact ⟨(alt_along hy).1, takes_of_along hy hadmits hholds⟩
  have hnone : Asking.Gives (pure (none : Option Path)) fun asked r => ∀ y ∈ r,
      y.alt = c.alt ∧ c.walker.Takes n (Answered asked) t y.walker := Asking.gives_pure nofun
  cases t with
  | epsilon | action => exact hpure rfl rfl fun _ => trivial
  | atom | set | wildcard => exact hnone
  | call target rule follow level =>
    rw [Path.follow]
    split
    · exact hnone
    · exact hpure rfl rfl fun _ => trivial
  | precedence target level =>
    rw [Path.follow]
    split
    · rename_i hlevel
      exact hpure rfl (decide_eq_true hlevel) fun _ => trivial
    · exact hnone
  | predicate target rule index =>
    cases host with
    | none => exact hpure rfl rfl fun hguarded => absurd hguarded (by simp [hhost rfl])
    | some h =>
      simp only [Path.follow]
      split
      · rename_i hfree
        exact hpure rfl rfl fun hguarded => absurd hguarded (by simpa using hfree)
      · refine Asking.gives_bind (Asking.gives_ask h _ _) fun asked holds hasked => ?_
        refine Asking.gives_pure fun y hy => ?_
        subst hasked
        split at hy
        · rename_i hyes
          obtain rfl := Option.some.inj hy
          refine ⟨rfl, takes_of_along rfl rfl fun _ => ?_⟩
          simp [Transition.Holds, Answered, hyes]
        · cases hy

theorem gives_followAll (hhost : host = none → c.guarded = false) (ts : List Transition) :
    Asking.Gives (c.followAll n host ts) fun asked found => ∀ y ∈ found, ∃ t ∈ ts,
      y.alt = c.alt ∧ c.walker.Takes n (Answered asked) t y.walker := by
  rw [followAll, List.foldlM_reverse]
  induction ts with
  | nil => exact Asking.gives_pure (List.forall_mem_nil _)
  | cons t ts ih =>
    rw [List.foldrM_cons]
    refine Asking.gives_bind ih fun asked found hfound => ?_
    refine Asking.gives_bind (gives_follow hhost t) fun more r hr => ?_
    have hold : ∀ y ∈ found, ∃ t' ∈ t :: ts, y.alt = c.alt ∧
        c.walker.Takes n (Answered (asked ++ more)) t' y.walker := by
      intro y hy
      obtain ⟨t', ht', halt, htakes⟩ := hfound y hy
      exact ⟨t', List.mem_cons_of_mem _ ht', halt,
        htakes.mono fun _ _ h => List.mem_append_left _ h⟩
    cases r with
    | none =>
      refine Asking.gives_pure ?_
      rwa [List.append_nil]
    | some z =>
      obtain ⟨halt, htakes⟩ := hr z rfl
      refine Asking.gives_pure ?_
      rw [List.append_nil]
      refine List.forall_mem_cons.mpr ⟨⟨t, List.mem_cons_self, halt, ?_⟩, hold⟩
      exact htakes.mono fun _ _ h => List.mem_append_right _ h

/-- What follows a path is one step of its walker further. -/
theorem gives_successors (hhost : host = none → c.guarded = false) :
    Asking.Gives (c.successors n host outer) fun asked found => ∀ y ∈ found,
      y.alt = c.alt ∧ Walker.Step n (Answered asked) outer c.walker y.walker := by
  cases hs : n.state? c.state with
  | none =>
    have herror : n.getState c.state = .error (.missingState c.state) := by
      rw [Graph.getState, hs]
    rw [successors, herror]
    exact Asking.gives_throw _ _
  | some s =>
    rw [successors_eq hs]
    split
    · rename_i hstop
      rw [leaveRule]
      split
      · exact Asking.gives_pure (List.forall_mem_nil _)
      · rename_i frame stack hstack
        refine Asking.gives_pure (List.forall_mem_singleton.mpr ⟨rfl, ?_⟩)
        exact .back (p := c.walker) hs hstop hstack
    · rename_i hrun
      refine Asking.gives_mono (fun asked found hfound y hy => ?_)
        (gives_followAll hhost s.transitions)
      obtain ⟨t, ht, halt, htakes⟩ := hfound y hy
      exact ⟨halt, .pass (p := c.walker) hs (by simpa using hrun) ht htakes⟩

/-- Once no predicate counts, none does later. -/
theorem unguarded_of_step {holds : String → String → Prop} {p q : Walker}
    (h : Walker.Step n holds outer p q) (hfree : p.guarded = false) : q.guarded = false := by
  cases h with
  | pass _ _ _ htakes => rw [htakes.guarded, hfree, Bool.false_and]
  | back => exact hfree

/-- A path is some steps further than one of these, on the same alternative. -/
def ComesFrom (n : Network) (holds : String → String → Prop) (outer : Nat) (starts : List Path)
    (c : Path) : Prop :=
  ∃ o ∈ starts, o.alt = c.alt ∧
    Relation.ReflTransGen (Walker.Step n holds outer) o.walker c.walker

/-- What an exploration of paths keeps of them. -/
structure Tracked (n : Network) (host : Option Hooks) (outer : Nat) (starts : List Path)
    (asked : List HookCall) (c : Path) : Prop where
  origin : c.ComesFrom n (Answered asked) outer starts
  free : host = none → c.guarded = false

theorem Tracked.more {starts : List Path} {asked : List HookCall} (more : List HookCall)
    (h : c.Tracked n host outer starts asked) : c.Tracked n host outer starts (asked ++ more) := by
  obtain ⟨⟨o, ho, halt, hsteps⟩, hfree⟩ := h
  refine ⟨⟨o, ho, halt, Walker.steps_mono ?_ hsteps⟩, hfree⟩
  exact fun _ _ h => List.mem_append_left _ h

theorem Tracked.gives_successors {starts : List Path} {asked : List HookCall}
    (h : c.Tracked n host outer starts asked) :
    Asking.Gives (c.successors n host outer) fun more found =>
      ∀ y ∈ found, y.Tracked n host outer starts (asked ++ more) := by
  refine Asking.gives_mono (fun more found hfound y hy => ?_) (Path.gives_successors h.free)
  obtain ⟨halt, hstep⟩ := hfound y hy
  obtain ⟨o, ho, halt', hsteps⟩ := (h.more more).origin
  refine ⟨⟨o, ho, halt'.trans halt.symm, hsteps.tail (hstep.mono ?_)⟩, fun hnone => ?_⟩
  · exact fun _ _ h => List.mem_append_right _ h
  · exact unguarded_of_step hstep (h.free hnone)

/-- Every path in the closure of some paths comes from one of them, and can read a
token next or has ended the outermost rule. -/
theorem gives_closure {starts : List Path}
    (hhost : host = none → ∀ o ∈ starts, o.guarded = false) :
    Asking.Gives (closure n host outer starts) fun asked found =>
      ∀ c ∈ found, c.ComesFrom n (Answered asked) outer starts ∧ Live n c.spot := by
  have hstarts : ∀ o ∈ starts, o.Tracked n host outer starts [] := fun o ho =>
    ⟨⟨o, ho, rfl, .refl⟩, fun hnone => hhost hnone o ho⟩
  refine Asking.gives_bind (explore_gives (fun _ more _ h => Tracked.more more h)
    (fun _ _ h => h.gives_successors) hstarts (by simp)) fun asked visited hvisited => ?_
  refine Asking.gives_pure fun c hc => ?_
  obtain ⟨hc, hlive⟩ := List.mem_filter.mp hc
  rw [List.append_nil]
  exact ⟨(hvisited c hc).origin, isLive_iff.mp hlive⟩

/-- Where no predicate counts any more, it does not matter which ones hold. -/
theorem steps_of_unguarded {holds holds' : String → String → Prop} {p q : Walker}
    (h : Relation.ReflTransGen (Walker.Step n holds outer) p q) (hfree : p.guarded = false) :
    Relation.ReflTransGen (Walker.Step n holds' outer) p q := by
  have hsteps : Relation.ReflTransGen (Walker.Step n holds' outer) p q ∧ q.guarded = false := by
    induction h with
    | refl => exact ⟨.refl, hfree⟩
    | tail _ hstep ih =>
      obtain ⟨hsteps, hfree⟩ := ih
      refine ⟨hsteps.tail ?_, unguarded_of_step hstep hfree⟩
      cases hstep with
      | pass hs hrun ht htakes =>
        exact .pass hs hrun ht ⟨htakes.admits, fun h => absurd h (by simp [hfree]), htakes.along,
          htakes.guarded, htakes.leftRule⟩
      | back hs hstop hstack => exact .back hs hstop hstack
  exact hsteps.1

/-- The second path is behind a token that the first has read, on the same
alternative. -/
def Behind (n : Network) (holds : String → String → Prop) (outer : Nat) (a : TokenType)
    (o c : Path) : Prop :=
  o.alt = c.alt ∧ ∃ s t, n.state? o.state = some s ∧ s.isStop = false ∧ t ∈ s.transitions ∧
    t.accepts n.maxType a = true ∧ Relation.ReflTransGen (Walker.Step n holds outer)
      ⟨{ o.spot with state := t.target }, false, o.leftRule⟩ c.walker

/-- What reading a token makes of some paths is one of them that has ended the
outermost rule, or is behind one of them and live. -/
theorem origin_of_reach {holds : String → String → Prop} {a : TokenType} {paths found : List Path}
    (h : reach n outer a paths = .ok found) : ∀ c ∈ found, c ∈ paths ∧ n.isStop c.state = true ∨
      Live n c.spot ∧ ∃ o ∈ paths, o.Behind n holds outer a c := by
  obtain ⟨reached, calls, hrun, rfl⟩ := closure_of_reach h
  have hmoved (m : Path) (hm : m ∈ moved n a paths) : m.guarded = false := by
    obtain ⟨o, _, hm⟩ := List.mem_flatMap.mp hm
    obtain ⟨_, _, _, _, _, rfl⟩ := mem_advance hm
    rfl
  obtain ⟨asked, _, hreached⟩ := gives_closure (fun _ => hmoved) _ _ _ hrun
  intro c hc
  refine (mem_keepEnded hc).symm.imp_right fun hc => ?_
  obtain ⟨⟨m, hm, halt, hsteps⟩, hlive⟩ := hreached c hc
  obtain ⟨o, ho, hm⟩ := List.mem_flatMap.mp hm
  obtain ⟨ho, hrunning⟩ := List.mem_filter.mp ho
  obtain ⟨s, t, hs, ht, ha, rfl⟩ := mem_advance hm
  have hrun : s.isStop = false := by simpa [isAtStop, Graph.isStop, hs] using hrunning
  exact ⟨hlive, o, ho, halt, s, t, hs, hrun, ht, ha, steps_of_unguarded hsteps rfl⟩

end Path

namespace Decision

variable {d : Decision} {n : Network} {s : State}

/-- The first steps of the alternatives are those with which a walker begins. -/
theorem gives_firstSteps (hooks : Hooks) (hs : n.state? d.state = some s) :
    Asking.Gives (d.firstSteps n hooks s.transitions) fun asked steps =>
      ∀ o ∈ steps, d.Begins n (Answered asked) o.alt o.walker := by
  have hstep (x : Transition × Nat) (hx : x ∈ s.transitions.zipIdx) :
      Asking.Gives ((d.startPath (x.2 + 1)).follow n (some hooks) x.1) fun asked r =>
        ∀ o ∈ r, d.Begins n (Answered asked) o.alt o.walker := by
    have hhost : some hooks = none → (d.startPath (x.2 + 1)).guarded = false := nofun
    refine Asking.gives_mono (fun asked r hr o ho => ?_) (Path.gives_follow hhost x.1)
    obtain ⟨halt, htakes⟩ := hr o ho
    have hget := List.mem_zipIdx_iff_getElem?.mp hx
    rw [halt]
    exact ⟨Nat.succ_pos _, s, x.1, hs, hget, htakes⟩
  have hsteps : Asking.Gives (s.transitions.zipIdx.mapM fun x =>
      (d.startPath (x.2 + 1)).follow n (some hooks) x.1) fun asked rs =>
        ∀ r ∈ rs, ∀ o ∈ r, d.Begins n (Answered asked) o.alt o.walker := by
    generalize s.transitions.zipIdx = xs at hstep
    induction xs with
    | nil =>
      rw [List.mapM_nil]
      exact Asking.gives_pure (List.forall_mem_nil _)
    | cons x xs ih =>
      obtain ⟨hx, hxs⟩ := List.forall_mem_cons.mp hstep
      rw [List.mapM_cons]
      refine Asking.gives_bind hx fun asked r hr => Asking.gives_bind (ih hxs) fun more rs hrs => ?_
      refine Asking.gives_pure (List.forall_mem_cons.mpr ⟨fun o ho => ?_, fun r hr o ho => ?_⟩)
      · exact (hr o ho).mono fun _ _ h => List.mem_append_left _ h
      · refine (hrs r hr o ho).mono fun _ _ h => ?_
        rw [List.append_nil]
        exact List.mem_append_right _ h
  refine Asking.gives_bind hsteps fun asked rs hrs => Asking.gives_pure fun o ho => ?_
  obtain ⟨r, hr, hro⟩ := List.mem_filterMap.mp ho
  rw [List.append_nil]
  exact hrs r hr o hro

/-- Every path can read a token next or has ended the outermost rule, and goes the
way of a walker over some tokens. -/
def Walked (d : Decision) (n : Network) (holds : String → String → Prop) (w : List TokenType)
    (paths : List Path) : Prop :=
  ∀ c ∈ paths, d.Reaches n holds c.alt w c.walker ∧ Path.Live n c.spot

/-- Before a token is read, the paths of a decision go the ways of walkers, and the
predicates that count on them were answered with yes. -/
theorem gives_start (hooks : Hooks) (hs : n.state? d.state = some s) :
    Asking.Gives (d.start n hooks s.transitions) fun asked paths =>
      d.Walked n (Answered asked) [] paths := by
  refine Asking.gives_bind (gives_firstSteps hooks hs) fun asked steps hsteps => ?_
  have hhost : some hooks = none → ∀ o ∈ steps, o.guarded = false := nofun
  refine Asking.gives_mono (fun more paths hpaths c hc => ?_) (Path.gives_closure hhost)
  obtain ⟨⟨o, ho, halt, hway⟩, hlive⟩ := hpaths c hc
  refine ⟨⟨o.walker, halt ▸ (hsteps o ho).mono ?_, Walker.Walks.start.steps
    (Walker.steps_mono ?_ hway)⟩, hlive⟩
  · exact fun _ _ h => List.mem_append_left _ h
  · exact fun _ _ h => List.mem_append_right _ h

/-- What reading a token makes of such paths are such paths over one token more. -/
theorem Walked.reach {holds : String → String → Prop} {w : List TokenType} {a : TokenType}
    {paths found : List Path} (h : d.Walked n holds w paths)
    (hreach : Path.reach n d.stack.length a paths = .ok found) :
    d.Walked n holds (w ++ [a]) found := by
  intro c hc
  rcases Path.origin_of_reach hreach c hc with
    ⟨hc, hstop⟩ | ⟨hlive, o, ho, halt, s, t, hs, hrun, ht, ha, hsteps⟩
  · obtain ⟨⟨p, hp, hway⟩, hlive⟩ := h c hc
    exact ⟨⟨p, hp, hway.stay hstop (hlive.stack_eq_nil hstop)⟩, hlive⟩
  · obtain ⟨⟨p, hp, hway⟩, _⟩ := h o ho
    exact ⟨⟨p, halt ▸ hp, (hway.read hs hrun ht ha).steps hsteps⟩, hlive⟩

end Decision

end AdaptiveLL
