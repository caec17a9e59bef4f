/-
A run from its first step to its last.

Every pending invocation was called from a state of the rule of the one before it.
While this holds, every step of a run is one of the steps it can take, and only a
rule that is called again from the same place with the same precedence is a defect.
-/
import AdaptiveLL.Proofs.Parser.Step

namespace AdaptiveLL

/-- Each invocation was called from a state of its caller, and the last one is
outermost. -/
inductive Chain (g : Graph) (start : RuleIndex) : Entry → List Pending → Prop where
  | outermost {i} (hrule : i.rule = start) : Chain g start i []
  | call {i caller outer id s target} (hs : g.state? id = some s)
      (hrule : s.rule = caller.rule)
      (ht : .call target i.rule i.follow i.precedence ∈ s.transitions)
      (hcaller : Chain g start caller.toEntry outer) : Chain g start i (caller :: outer)

/-- The state of a run belongs to the current rule, and the pending invocations fit. -/
structure View.Coherent (g : Graph) (start : RuleIndex) (x : View) : Prop where
  state : ∃ s, g.state? x.state = some s ∧ s.rule = x.current.rule
  chain : Chain g start x.current x.outer

section Coherence

variable {g : Graph} {start : RuleIndex} {i j : Entry} {outer : List Pending} {x : View}

/-- What a call left behind is all that a chain depends on. -/
theorem Chain.congr (h : Chain g start i outer) (hrule : j.rule = i.rule)
    (hfollow : j.follow = i.follow) (hprecedence : j.precedence = i.precedence) :
    Chain g start j outer := by
  cases h with
  | outermost h => exact .outermost (hrule.trans h)
  | call hs hr ht hcaller =>
    rw [← hrule, ← hfollow, ← hprecedence] at ht
    exact .call hs hr ht hcaller

theorem Chain.called (h : Chain g start i outer) : Called g start i.rule (callers i outer) := by
  induction h with
  | outermost hrule =>
    rw [hrule]
    exact .outermost
  | call hs hrule ht _ ih => exact .call ih hs hrule ht

theorem View.Coherent.placed (h : x.Coherent g start) : Placed g start x.spot := by
  obtain ⟨s, hs, hrule⟩ := h.state
  exact ⟨s, hs, hrule ▸ h.chain.called⟩

/-- The rule that a run is in is known. -/
theorem View.Coherent.span {n : Network} {v : Vocabulary} {rules : List Rule}
    (hruns : n.Runs v rules) (h : x.Coherent n.toGraph start) :
    ∃ r span part, rules[x.current.rule]? = some r ∧
      RuleLaid n.toGraph v x.current.rule r span part := by
  obtain ⟨s, hs, hrule⟩ := h.state
  obtain ⟨r, span, part, hr, hlaid, _⟩ := hruns.laid.state_cases hs
  rw [hrule] at hr hlaid
  exact ⟨r, span, part, hr, hlaid⟩

/-- A mismatch does not change who is pending. -/
theorem View.stack_fail_goto (x : View) (target : StateId) :
    (x.fail.goto target).stack = x.stack := by
  unfold View.stack View.goto View.fail
  cases x.outer <;> rfl

end Coherence

section Steps

variable {interp : Interpreter} {ts : List Token} {start : RuleIndex} {x y : View}

/-- Making the input fit moves the run in the input only. -/
theorem Ready.onto (h : Ready interp ts x y) : ∃ z, y = x.onto z := by
  cases h with
  | fits => exact ⟨x.toStanding, rfl⟩
  | drop => exact ⟨_, rfl⟩
  | skip => exact ⟨_, rfl⟩

theorem View.Coherent.onto {g : Graph} (h : x.Coherent g start) (z : Standing) :
    (x.onto z).Coherent g start :=
  ⟨h.state, h.chain⟩

theorem View.Coherent.goto {g : Graph} (h : x.Coherent g start) {target : StateId} {s : State}
    (hs : g.state? target = some s) (hrule : s.rule = x.current.rule) :
    (x.goto target).Coherent g start :=
  ⟨⟨s, hs, hrule⟩, h.chain⟩

theorem Interpreter.hop_cases (interp : Interpreter) (s : State) (target : StateId) (x : View) :
    interp.hop s target x = x.goto target ∨ interp.hop s target x = x.wrap.goto target := by
  unfold Interpreter.hop
  split
  · exact .inr rfl
  · exact .inl rfl

theorem View.Coherent.hop {v : Vocabulary} {rules : List Rule}
    (hruns : interp.network.Runs v rules) (h : x.Coherent interp.network.toGraph start) {s : State}
    {target : StateId} (hs : interp.network.state? x.state = some s)
    (ht : .epsilon target ∈ s.transitions) :
    (interp.hop s target x).Coherent interp.network.toGraph start := by
  obtain ⟨s', hs', hrule⟩ := h.state
  obtain rfl := Option.some.inj (hs.symm.trans hs')
  obtain ⟨s'', hs'', hrule'⟩ := hruns.laid.target_state hs ht rfl
  rcases interp.hop_cases s target x with heq | heq <;> rw [heq]
  · exact h.goto hs'' (hrule'.trans hrule)
  · exact ⟨⟨s'', hs'', hrule'.trans hrule⟩, h.chain.congr rfl rfl rfl⟩

theorem View.Coherent.setAlt {g : Graph} (h : x.Coherent g start) (mark : Nat) :
    (x.setAlt mark).Coherent g start :=
  ⟨h.state, h.chain.congr rfl rfl rfl⟩

theorem GivesUp.coherent {v : Vocabulary} {rules : List Rule} {n : Network}
    (hruns : n.Runs v rules) (hx : x.Coherent n.toGraph start) (h : GivesUp n ts x y) :
    y.Coherent n.toGraph start := by
  cases h with
  | «at» hspan hskips =>
    obtain ⟨_, span, part, _, hlaid⟩ := hx.span hruns
    obtain rfl := Option.some.inj (hlaid.span_eq.symm.trans hspan)
    obtain ⟨s, hs, hshape⟩ := Graph.state?_of_shape? hlaid.stop_shape
    exact ⟨⟨s, hs, (Shape.mk.inj hshape).2.1⟩, hx.chain.congr rfl rfl rfl⟩

theorem Takes.coherent {v : Vocabulary} {rules : List Rule}
    (hruns : interp.network.Runs v rules) (hx : x.Coherent interp.network.toGraph start) {s : State}
    {t : Transition} (hs : interp.network.state? x.state = some s) (ht : t ∈ s.transitions)
    (h : Takes interp ts s x t y) : y.Coherent interp.network.toGraph start := by
  obtain ⟨s', hs', hrule⟩ := hx.state
  obtain rfl := Option.some.inj (hs.symm.trans hs')
  have hgoto (hcall : t.call? = none) (z : Standing) :
      ((x.onto z).goto t.target).Coherent interp.network.toGraph start := by
    obtain ⟨s'', hs'', hrule'⟩ := hruns.laid.target_state hs ht hcall
    exact (hx.onto z).goto hs'' (hrule'.trans hrule)
  cases h with
  | hop => exact hx.hop hruns hs ht
  | pass _ hcall => exact hgoto hcall x.toStanding
  | @call target rule follow level _ =>
    obtain ⟨s'', hs'', hrule'⟩ := hruns.laid.start_state hs ht
    exact ⟨⟨s'', hs'', hrule'⟩, .call hs hrule ht hx.chain⟩
  | read htok ha =>
    refine hgoto ?_ _
    cases t with
    | call => cases ha
    | _ => rfl
  | drop hreads | insert hreads =>
    refine hgoto ?_ _
    cases t with
    | call => cases hreads
    | _ => rfl

/-- A step keeps the pending invocations in order. -/
theorem Step.coherent {v : Vocabulary} {rules : List Rule}
    (hruns : interp.network.Runs v rules) (hx : x.Coherent interp.network.toGraph start)
    (h : Step interp ts x y) : y.Coherent interp.network.toGraph start := by
  cases h with
  | @back s caller outer hs hstop houter =>
    have hchain := hx.chain
    rw [houter] at hchain
    cases hchain with
    | call hcs hrule ht hcaller =>
      obtain ⟨s', hs', hrule'⟩ := hruns.laid.follow_state hcs ht
      exact ⟨⟨s', hs', hrule'.trans hrule⟩, hcaller⟩
  | branch hs hready hchosen ht =>
    obtain ⟨z, rfl⟩ := hready.onto
    exact ((hx.onto z).setAlt _).hop hruns hs (List.mem_of_getElem? ht)
  | unfit hs hunfit hup => exact hup.coherent hruns hx
  | undecided hs hdecision hready hundecided hup =>
    obtain ⟨z, rfl⟩ := hready.onto
    exact hup.coherent hruns (hx.onto z)
  | take hs ht htakes => exact htakes.coherent hruns hx hs (ht ▸ List.mem_singleton_self _)
  | refused hs ht hrefuses hup => exact hup.coherent hruns hx

end Steps

namespace Run.Is

open Running

variable {α : Type} {interp : Interpreter} {ts : List Token} {r : Run} {x : View}
  {E : Obstacle → Run → Prop} {v : Vocabulary} {rules : List Rule} {start : RuleIndex}

/-- A mismatch ends the current rule, and tokens are skipped. -/
theorem giveUp (h : r.Is ts x) {span : RuleSpan}
    (hspan : interp.network.rule? x.current.rule = some span) (m : Mismatch) :
    ∃ y, GivesUp interp.network ts x y ∧ ((interp.giveUp m).run r).2.Is ts y := by
  have hfail : (r.modifyFrame Invocation.fail).Is ts x.fail := by
    refine h.modifyFrame (fun i hi => ?_) rfl
    have heq : i.fail.pending =
        { i.pending with failed := true } := rfl
    rw [heq, hi]
  obtain ⟨i, outer, hframes, hi, _⟩ := hfail.exists_frame
  have hrule : i.rule = x.current.rule := congrArg (fun p => p.toEntry.rule) hi
  have hmoved := hfail.goto span.stop
  have hstopped : interp.abandon r =
      { (r.modifyFrame Invocation.fail) with state := span.stop } := by
    simp only [Interpreter.abandon, hframes, List.head?_cons, Option.bind_some, hrule, hspan]
  have hrun : ((interp.giveUp m).run r).2 = ((interp.consult fun site => do
      Repairing.reportMismatch site m
      Repairing.resynchronize site).run
        { (r.modifyFrame Invocation.fail) with state := span.stop }).2 := by
    rw [← hstopped]
    rfl
  rw [hrun]
  refine hmoved.consult (Q := fun _ r' => ∃ y, GivesUp interp.network ts x y ∧ r'.Is ts y) interp _
    fun repair hrepair => ?_
  refine Repairing.yields_bind (hrepair.reportMismatch fun r₁ h₁ => ?_)
  refine h₁.resynchronize (Standing.report_recovering ts _) fun y r₂ hskips h₂ => ?_
  change Skips ts (interp.network.recoverySet (x.fail.goto span.stop).stack) _ y at hskips
  rw [View.stack_fail_goto] at hskips
  exact ⟨y, h₂, fun r' h' => ⟨_, .at hspan hskips, h'⟩⟩

/-- The outcome of a decision may be recorded in the node. -/
theorem notePrediction (h : r.Is ts x) (id : StateId) (p : Prediction) :
    ∃ mark, (interp.notePrediction id p r).Is ts (x.setAlt mark) := by
  have hsetAlt (r' : Run) (h' : r'.Is ts x) : ∃ mark,
      (if interp.isRuleBody id then
        r'.modifyFrame fun i => { i with node := i.node.setAlt p.alt } else r').Is ts
          (x.setAlt mark) := by
    split
    · refine ⟨if x.current.alt = 0 then p.alt else x.current.alt, ?_⟩
      refine h'.modifyFrame (fun i hi => ?_) rfl
      have halt : i.node.alt = x.current.alt := congrArg (fun p => p.toEntry.alt) hi
      have heq : ({ i with node := i.node.setAlt p.alt } : Invocation).pending =
          { i.pending with alt := if x.current.alt = 0 then p.alt else x.current.alt } := by
        unfold NodeDraft.setAlt
        rw [halt]
        split
        · rfl
        · rw [← halt]
          rfl
      rw [heq, hi]
    · exact ⟨x.current.alt, h'⟩
  have hmetrics (f : Metrics → Metrics) (hf : ∀ m, (f m).errors = m.errors) (r' : Run)
      (h' : r'.Is ts x) : ({ r' with metrics := f r'.metrics } : Run).Is ts x :=
    ⟨h'.stream, h'.strategy, (hf _).trans h'.errors, h'.marks, h'.state, h'.stack, h'.frames⟩
  have hlook := hmetrics (fun m => { m with lookahead := max m.lookahead p.lookahead })
    (fun _ => rfl) r h
  have hambiguous : (if p.isAmbiguous then
      ({ r with metrics :=
          { r.metrics with
            lookahead := max r.metrics.lookahead p.lookahead
            ambiguities := r.metrics.ambiguities + 1 } } : Run).emit
        (.ambiguity ((interp.network.decisionOf? id).getD 0) p.conflicting p.alt)
      else { r with metrics := { r.metrics with
        lookahead := max r.metrics.lookahead p.lookahead } }).Is ts x := by
    split
    · exact (hmetrics (fun m => { m with ambiguities := m.ambiguities + 1 }) (fun _ => rfl) _
        hlook).emit_silent rfl
    · exact hlook
  exact hsetAlt _ (hambiguous.emit_silent rfl)

/-- A decision takes an alternative that there is, or it cannot be taken. -/
theorem choose {Q : Nat → Run → Prop} {s : State} (hruns : interp.network.Runs v rules)
    (h : r.Is ts x) (hplaced : Placed interp.network.toGraph start x.spot)
    (hs : interp.network.state? x.state = some s) (hdecision : s.isDecision = true)
    (hchosen : ∀ alt mark r', Chosen interp ts s x alt →
      (∃ t, s.transitions[alt - 1]? = some t) → r'.Is ts (x.setAlt mark) → Q alt r')
    (hundecided : ∀ m r', Predicts interp ts x (.error (.mismatch m)) → r'.Is ts x →
      E (.mismatch m) r') : (interp.choose x.state s).Ends r Q E := by
  have hspec := hruns.decide_spec (d := x.decision) interp.hooks r.calls
    hplaced hs hdecision h.stream
  have hpredicts : Predicts interp ts x
      (x.decision.decide interp.network interp.hooks r.stream r.calls).1.1 :=
    ⟨r.stream, r.calls, h.stream, rfl⟩
  refine ends_bind (ends_get ?_)
  have hview : (⟨x.state, r.stack, r.precedence⟩ : Decision) = x.decision := by
    rw [h.precedence, h.stack]
    rfl
  dsimp only
  rw [hview]
  generalize x.decision.decide interp.network interp.hooks r.stream r.calls = result
    at hspec hpredicts ⊢
  obtain ⟨⟨outcome, stream⟩, calls⟩ := result
  obtain ⟨hoffers, hdefect, hat⟩ := hspec
  have h₁ :
      ({ r with stream, calls, metrics.decisions := r.metrics.decisions + 1 } : Run).Is ts x :=
    ⟨hat, h.strategy, h.errors, h.marks, h.state, h.stack, h.frames⟩
  refine ends_bind (ends_set ?_)
  cases outcome with
  | ok p =>
    obtain ⟨_, ⟨_, s', t, hs', _, ht, _, _⟩, _⟩ := hoffers p rfl
    obtain rfl := Option.some.inj (hs.symm.trans hs')
    obtain ⟨mark, hmark⟩ := h₁.notePrediction x.state p
    exact ends_bind (ends_modify (hchosen _ mark _ (.predicted hdecision hpredicts) ⟨t, ht⟩ hmark))
  | error failure =>
    cases failure with
    | defect d => exact absurd rfl (hdefect d)
    | mismatch m =>
      dsimp only
      split
      · rename_i exit hout _
        refine hchosen exit x.current.alt _ (.left hdecision hout hpredicts) ?_ h₁
        unfold Interpreter.wayOut? at hout
        split at hout
        · obtain ⟨i, hi, rfl⟩ := Option.map_eq_some_iff.mp hout
          exact ⟨_, List.getElem?_eq_getElem (List.findIdx?_eq_some_iff_findIdx_eq.mp hi).1⟩
        · obtain ⟨i, hi, rfl⟩ := Option.map_eq_some_iff.mp hout
          exact ⟨_, List.getElem?_eq_getElem (List.findIdx?_eq_some_iff_findIdx_eq.mp hi).1⟩
        · cases hout
      · exact ends_throw (hundecided m _ hpredicts h₁)

end Run.Is

/-- Why a state is not passed: a mismatch that ends the rule, or a rule that is
called again. -/
inductive Blocked (interp : Interpreter) (ts : List Token) (x : View) : Obstacle → Run → Prop where
  | mismatch {m r'} (z : Standing) (hr' : r'.Is ts (x.onto z))
      (hup : ∀ y, GivesUp interp.network ts (x.onto z) y → Step interp ts x y) :
      Blocked interp ts x (.mismatch m) r'
  | defect {s target rule follow level place r'} (hs : interp.network.state? x.state = some s)
      (ht : .call target rule follow level ∈ s.transitions) (hpends : x.Pends rule level)
      (hr' : r'.Is ts x) :
      Blocked interp ts x (.defect (.recursionCycle (interp.network.ruleName rule) place)) r'

/-- A state without a choice has one transition, an empty one if the strategy is
asked there. -/
theorem Network.Runs.transitions_of_single {n : Network} {v : Vocabulary} {rules : List Rule}
    (hruns : n.Runs v rules) {id : Nat} {s : State} (hs : n.state? id = some s)
    (hrun : s.isStop = false) (hsingle : s.isDecision = false) :
    ∃ t, s.transitions = [t] ∧
      (Interpreter.alignsAlone s = true → ∃ target, t = .epsilon target) := by
  obtain ⟨r, span, x, _, _, ⟨_, hstop⟩ | ⟨_, hform⟩⟩ := hruns.laid.state_cases hs
  · exact absurd (hrun.symm.trans hstop) Bool.false_ne_true
  · have hlength : ¬1 < s.transitions.length := by simpa [State.isDecision] using hsingle
    generalize hrole : s.role = role at hform
    generalize s.transitions = ts at hform hlength ⊢
    cases hform with
    | edge _ _ _ hbasic =>
      refine ⟨_, rfl, fun hasks => ?_⟩
      rw [Interpreter.alignsAlone, hrole, hbasic] at hasks
      cases hasks
    | hop => exact ⟨_, rfl, fun _ => ⟨_, rfl⟩⟩
    | @block targets _ _ hne _ =>
      cases targets with
      | nil => exact absurd rfl hne
      | cons target rest =>
        cases rest with
        | nil => exact ⟨_, rfl, fun _ => ⟨target, rfl⟩⟩
        | cons => simp at hlength
    | loop => simp at hlength

namespace Run.Is

open Running

variable {interp : Interpreter} {ts : List Token} {r : Run} {x : View} {v : Vocabulary}
  {rules : List Rule} {start : RuleIndex}

/-- A state is passed by a step, or something stands in the way. -/
theorem visit {s : State} (hruns : interp.network.Runs v rules) (hnumbered : Numbered ts)
    (h : r.Is ts x) (hx : x.Coherent interp.network.toGraph start)
    (hs : interp.network.state? x.state = some s) (hrun : s.isStop = false) :
    (interp.visit x.state s).Ends r (fun _ r' => ∃ y, Step interp ts x y ∧ r'.Is ts y)
      (Blocked interp ts x) := by
  cases hdecision : s.isDecision with
  | true =>
    simp only [Interpreter.visit, Interpreter.alternative, hdecision, if_true]
    refine ends_bind (ends_bind (h.align (fun y r₁ hready h₁ => ?_) fun m r₁ hunfit h₁ => ?_))
    · obtain ⟨z, rfl⟩ := hready.onto
      refine choose (x := x.onto z) hruns h₁ (hx.onto z).placed hs hdecision
        (fun alt mark r₂ hchosen ⟨t, ht⟩ h₂ => ?_) fun m r₂ hundecided h₂ => ?_
      · obtain ⟨target, rfl⟩ :=
          (hruns.transitions_of_decision hs hdecision).2 t (List.mem_of_getElem? ht)
        rw [ht]
        exact h₂.takeEpsilon fun r₃ h₃ => ⟨_, .branch hs hready hchosen ht, h₃⟩
      · exact .mismatch z h₂ fun y hup => .undecided hs hdecision hready hundecided hup
    · exact .mismatch x.toStanding h₁ fun y hup => .unfit hs hunfit hup
  | false =>
    obtain ⟨t, ht, hepsilon⟩ := hruns.transitions_of_single hs hrun hdecision
    have hmem : t ∈ s.transitions := ht ▸ List.mem_singleton_self t
    have hfirst : s.transitions[1 - 1]? = some t := by rw [ht]; rfl
    simp only [Interpreter.visit, Interpreter.alternative, hdecision]
    cases hasks : Interpreter.alignsAlone s with
    | true =>
      obtain ⟨target, rfl⟩ := hepsilon hasks
      refine ends_bind (ends_bind (h.align (fun y r₁ hready h₁ => ?_) fun m r₁ hunfit h₁ => ?_))
      · obtain ⟨z, rfl⟩ := hready.onto
        refine ends_pure ?_
        rw [hfirst]
        exact h₁.takeEpsilon fun r₂ h₂ => ⟨interp.hop s target ((x.onto z).setAlt x.current.alt),
          .branch hs hready (.only hdecision) hfirst, h₂⟩
      · exact .mismatch x.toStanding h₁ fun y hup => .unfit hs hunfit hup
    | false =>
      refine ends_bind (ends_pure ?_)
      rw [hfirst]
      refine h.take hruns hnumbered hs hmem (fun y r₁ htakes h₁ => ⟨y, .take hs ht htakes, h₁⟩)
        (fun m r₁ hrefuses h₁ => ?_) fun target rule follow level heq hpends r₁ h₁ => ?_
      · exact .mismatch x.toStanding h₁ fun y hup => .refused hs ht hrefuses hup
      · subst heq
        exact .defect hs hmem hpends h₁

end Run.Is

/-- At the end of a rule a step leaves the rule. -/
theorem Interpreter.step_of_stop {interp : Interpreter} {r : Run} {s : State}
    (hget : interp.network.getState r.state = .ok s) (hstop : s.isStop = true) :
    interp.step.run r = (if r.frames.length ≤ 1 then .finished else .running,
      r.exitRule interp.network) := by
  have hleave : ∀ (r' : Run) (e : StepEnd),
      (do set r'; pure e : StateM Run StepEnd).run r = (e, r') := fun _ _ => rfl
  unfold Interpreter.step
  rw [StateT.run_bind, StateT.run_get, pure_bind]
  dsimp only
  rw [hget]
  dsimp only
  rw [if_pos hstop]
  exact hleave _ _

/-- What a step makes of the visit of a state. -/
def Interpreter.conclude (interp : Interpreter) : Except Obstacle Unit × Run → StepEnd × Run
  | (.ok (), r) => (.running, r)
  | (.error (.defect d), r) => (.defect d, r)
  | (.error (.mismatch m), r) => (.running, ((interp.giveUp m).run r).2)

/-- Elsewhere a step passes the state, or it gives the rule up. -/
theorem Interpreter.step_of_run {interp : Interpreter} {r : Run} {s : State}
    (hget : interp.network.getState r.state = .ok s) (hrun : s.isStop = false) :
    interp.step.run r = interp.conclude ((ExceptT.run (interp.visit r.state s)).run r) := by
  have hgive : ∀ (work : StateM Run Unit) (r₁ : Run),
      (do work; pure StepEnd.running : StateM Run StepEnd).run r₁ = (.running, (work.run r₁).2) :=
    fun _ _ => rfl
  unfold Interpreter.step
  rw [StateT.run_bind, StateT.run_get, pure_bind]
  dsimp only
  rw [hget]
  dsimp only
  rw [if_neg (by rw [hrun]; exact Bool.false_ne_true), StateT.run_bind]
  match (ExceptT.run (interp.visit r.state s)).run r with
  | (.ok (), r') => exact StateT.run_pure _ _
  | (.error (.defect d), r') => exact StateT.run_pure _ _
  | (.error (.mismatch m), r') => exact hgive _ _

/-- At a state that is not there a step ends the run. -/
theorem Interpreter.step_of_missing {interp : Interpreter} {r : Run} {d : NetworkDefect}
    (hget : interp.network.getState r.state = .error d) : interp.step.run r = (.defect d, r) := by
  unfold Interpreter.step
  rw [StateT.run_bind, StateT.run_get, pure_bind]
  dsimp only
  rw [hget]
  rfl

/-- What holds of every way in which a step can end holds of the step: there is no
state, a rule is left, or a state is visited and the visit goes through, meets a
defect or gives the rule up. -/
theorem Interpreter.step_ends (interp : Interpreter) (r : Run) {P : StepEnd → Run → Prop}
    (hmissing : ∀ d, interp.network.getState r.state = .error d → P (.defect d) r)
    (hleave : ∀ s, interp.network.getState r.state = .ok s → s.isStop = true →
      P (if r.frames.length ≤ 1 then .finished else .running) (r.exitRule interp.network))
    (hpass : ∀ s, interp.network.getState r.state = .ok s → s.isStop = false →
      ∃ Q E, (interp.visit r.state s).Ends r Q E ∧ (∀ r', Q () r' → P .running r') ∧
        (∀ d r', E (.defect d) r' → P (.defect d) r') ∧
        ∀ m r', E (.mismatch m) r' → P .running ((interp.giveUp m).run r').2) :
    P (interp.step.run r).1 (interp.step.run r).2 := by
  cases hget : interp.network.getState r.state with
  | error d =>
    rw [step_of_missing hget]
    exact hmissing d hget
  | ok s =>
    cases hstop : s.isStop with
    | true =>
      rw [step_of_stop hget hstop]
      exact hleave s hget hstop
    | false =>
      obtain ⟨Q, E, hvisit, hgoes, hdefect, hmismatch⟩ := hpass s hget hstop
      unfold Running.Ends at hvisit
      rw [step_of_run hget hstop]
      generalize (ExceptT.run (interp.visit r.state s)).run r = result at hvisit ⊢
      obtain ⟨_ | _, r'⟩ := result
      · rename_i o
        cases o with
        | defect d => exact hdefect d r' hvisit
        | mismatch m => exact hmismatch m r' hvisit
      · exact hgoes r' hvisit

inductive Steps (interp : Interpreter) (ts : List Token) (x : View) :
    Interpreter.StepEnd → Run → Prop where
  | running {y r'} (hstep : Step interp ts x y) (hr' : r'.Is ts y) : Steps interp ts x .running r'
  | finished {s r'} (hs : interp.network.state? x.state = some s) (hstop : s.isStop = true)
      (houter : x.outer = []) (hstream : r'.stream.At ts x.place) (htree : r'.tree = some x.node)
      (herrors : r'.metrics.errors = x.errors) (hmarks : r'.marks = x.marks) :
      Steps interp ts x .finished r'
  | defect {s target rule follow level place r'} (hs : interp.network.state? x.state = some s)
      (ht : .call target rule follow level ∈ s.transitions) (hpends : x.Pends rule level)
      (hr' : r'.Is ts x) :
      Steps interp ts x (.defect (.recursionCycle (interp.network.ruleName rule) place)) r'

namespace Run.Is

variable {interp : Interpreter} {ts : List Token} {r : Run} {x : View} {v : Vocabulary}
  {rules : List Rule} {start : RuleIndex}

/-- At the end of a rule the run goes back to the caller, or it is finished. -/
theorem exitRule {s : State} (h : r.Is ts x) (hs : interp.network.state? x.state = some s)
    (hstop : s.isStop = true) :
    Steps interp ts x (if r.frames.length ≤ 1 then .finished else .running)
      (r.exitRule interp.network) := by
  obtain ⟨i, outer, hframes, hi, houter⟩ := h.exists_frame
  have hnode : i.node.close = x.node := by
    have hclose : i.node.close = .node i.pending.name i.pending.alt i.pending.failed
        i.pending.children := rfl
    rw [hclose, hi]
    rfl
  have hleft : (r.emit (.exitRule (interp.network.ruleName i.rule) i.failed)).Is ts x :=
    h.emit_silent rfl
  match outer with
  | [] =>
    have hrun : r.exitRule interp.network =
        { r.emit (.exitRule (interp.network.ruleName i.rule) i.failed) with
          frames := [], tree := some i.node.close } := by
      rw [Run.exitRule, hframes]
    rw [if_pos (by rw [hframes]; exact Nat.le_refl 1), hrun]
    exact .finished hs hstop houter.symm hleft.stream (congrArg some hnode) hleft.errors hleft.marks
  | caller :: others =>
    have hrun : r.exitRule interp.network =
        { r.emit (.exitRule (interp.network.ruleName i.rule) i.failed) with
          frames := { caller with node := caller.node.add i.node.close } :: others
          stack := r.stack.tail
          state := i.follow } := by
      rw [Run.exitRule, hframes]
      rfl
    rw [if_neg (by rw [hframes]; simp), hrun]
    refine .running (.back hs hstop houter.symm)
      ⟨hleft.stream, hleft.strategy, hleft.errors, hleft.marks, ?_, ?_, ?_⟩
    · exact congrArg (fun p => p.toEntry.follow) hi
    · change r.stack.tail = _
      rw [h.stack, View.stack, ← houter]
      rfl
    · rw [List.map_cons, View.frames, View.back, ← hnode]
      rfl

/-- Each step of a run is one that it can take. -/
theorem step (hruns : interp.network.Runs v rules) (hnumbered : Numbered ts) (h : r.Is ts x)
    (hx : x.Coherent interp.network.toGraph start) :
    Steps interp ts x (interp.step.run r).1 (interp.step.run r).2 := by
  obtain ⟨s, hs, hrule⟩ := hx.state
  have hget : interp.network.getState r.state = .ok s := by
    rw [h.state]
    exact Graph.getState_of_state? hs
  refine interp.step_ends r (P := Steps interp ts x) (fun d hd => ?_) (fun s' hs' hstop => ?_)
    fun s' hs' hrun => ?_
  · exact nomatch hget.symm.trans hd
  · obtain rfl := Except.ok.inj (hget.symm.trans hs')
    exact h.exitRule hs hstop
  · obtain rfl := Except.ok.inj (hget.symm.trans hs')
    have hvisit := h.visit hruns hnumbered hx hs hrun
    rw [← h.state] at hvisit
    refine ⟨_, _, hvisit, fun r' ⟨y, hstep, hy⟩ => .running hstep hy, fun d r' hdefect => ?_,
      fun m r' hmismatch => ?_⟩
    · cases hdefect with
      | defect hs ht hpends hr' => exact .defect hs ht hpends hr'
    · cases hmismatch with
      | mismatch z hr' hup =>
        obtain ⟨_, span, _, _, hlaid⟩ := hx.span hruns
        obtain ⟨y, hgives, hy⟩ := hr'.giveUp hlaid.span_eq _
        exact .running (hup y hgives) hy

end Run.Is

end AdaptiveLL
