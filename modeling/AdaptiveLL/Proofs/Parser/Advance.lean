/-
Steps without a mismatch, seen from the state where they are made.

What a state leads on by tells the step that is made there.
-/
import AdaptiveLL.Proofs.Parser.Clean

namespace AdaptiveLL

section

variable {interp : Interpreter} {ts : List Token} {x y : View} {rule : RuleIndex}

/-- A state leads on by the transitions that its shape shows. -/
theorem Graph.LeadsOn.eq {g : Graph} {id : StateId} {transitions : List Transition} {s : State}
    (h : g.LeadsOn rule id transitions) (hs : g.state? id = some s) :
    s.isStop = false ∧ s.transitions = transitions := by
  obtain ⟨s', hs', hrun, hts⟩ := h.state
  obtain rfl := Option.some.inj (hs.symm.trans hs')
  exact ⟨hrun, hts⟩

theorem Interpreter.hop_of_plain {s : State} (hrole : s.role.Plain) (target : StateId) (x : View) :
    interp.hop s target x = x.goto target := by
  have hround : interp.beginsRound s (.epsilon target) = false := by
    rw [beginsRound, beq_eq_false_iff_ne.mpr (hrole.2 true), Bool.false_and]
  rw [hop, hround]
  rfl

namespace Advances

/-- Empty transitions are passed, one of them if there is a choice. -/
theorem of_epsilons {role : StateRole} {targets : List Nat}
    (hshape : interp.network.shape? x.state = some ⟨role, rule, targets.map .epsilon⟩)
    (hrole : role.Plain) (h : Advances interp ts x y) :
    ∃ mark, ∃ target ∈ targets, y = (x.setAlt mark).goto target := by
  have hleads : interp.network.LeadsOn rule x.state (targets.map .epsilon) :=
    .of_shape hshape hrole.1
  have hplain {s : State} (hs : interp.network.state? x.state = some s) : s.role.Plain := by
    have heq := Option.some.inj ((Graph.shape?_of_state? hs).symm.trans hshape)
    rw [(Shape.mk.inj heq).1]
    exact hrole
  have hmem {s : State} {t : Transition} (hs : interp.network.state? x.state = some s)
      (ht : t ∈ s.transitions) : ∃ target ∈ targets, .epsilon target = t :=
    List.mem_map.mp ((hleads.eq hs).2 ▸ ht)
  cases h with
  | back hs hstop => exact absurd ((hleads.eq hs).1.symm.trans hstop) Bool.false_ne_true
  | @branch s alt mark target hs hchosen ht =>
    obtain ⟨target', htarget, heq⟩ := hmem hs (List.mem_of_getElem? ht)
    obtain rfl := Transition.epsilon.inj heq
    exact ⟨mark, target', htarget, interp.hop_of_plain (hplain hs) _ _⟩
  | @hop s target hs ht =>
    obtain ⟨target', htarget, heq⟩ := hmem hs (ht ▸ List.mem_singleton_self _)
    obtain rfl := Transition.epsilon.inj heq
    exact ⟨x.current.alt, target', htarget, interp.hop_of_plain (hplain hs) _ _⟩
  | pass hs ht _ _ _ hhop =>
    obtain ⟨target, _, heq⟩ := hmem hs (ht ▸ List.mem_singleton_self _)
    exact absurd heq.symm (hhop target)
  | call hs ht =>
    obtain ⟨_, _, heq⟩ := hmem hs (ht ▸ List.mem_singleton_self _)
    cases heq
  | read hs ht _ ha =>
    obtain ⟨_, _, rfl⟩ := hmem hs (ht ▸ List.mem_singleton_self _)
    cases ha

theorem of_leadsTo {target : Nat} (hleads : interp.network.LeadsTo rule x.state target)
    (h : Advances interp ts x y) : ∃ mark, y = (x.setAlt mark).goto target := by
  obtain ⟨role, hrole, hshape⟩ := hleads
  have hsingle : interp.network.shape? x.state = some ⟨role, rule, [target].map .epsilon⟩ := hshape
  obtain ⟨mark, target', htarget, hy⟩ := of_epsilons hsingle hrole h
  rw [List.mem_singleton.mp htarget] at hy
  exact ⟨mark, hy⟩

/-- A transition that is not empty is taken where it is the only one. -/
theorem of_single {t : Transition} (hleads : interp.network.LeadsOn rule x.state [t])
    (hnot : ∀ target, t ≠ .epsilon target) (h : Advances interp ts x y) :
    (t.isEpsilon = true ∧ t.call? = none ∧ x.spot.admits t = true ∧ y = x.goto t.target) ∨
      (∃ start callee follow level, t = .call start callee follow level ∧
        y = x.call (interp.network.ruleName callee) start callee follow level) ∨
      ∃ tok, ts[x.place]? = some tok ∧ t.accepts interp.network.maxType tok.type = true ∧
        y = (x.onto (x.matched.eat ts false)).goto t.target := by
  have hone {s : State} {t' : Transition} (hs : interp.network.state? x.state = some s)
      (ht : s.transitions = [t']) : t' = t :=
    (List.cons.inj (ht.symm.trans (hleads.eq hs).2)).1
  cases h with
  | back hs hstop => exact absurd ((hleads.eq hs).1.symm.trans hstop) Bool.false_ne_true
  | branch hs _ ht =>
    have hmem := List.mem_of_getElem? ht
    rw [(hleads.eq hs).2, List.mem_singleton] at hmem
    exact absurd hmem.symm (hnot _)
  | hop hs ht => exact absurd (hone hs ht).symm (hnot _)
  | pass hs ht hsilent hcall hpass _ =>
    obtain rfl := hone hs ht
    exact .inl ⟨hsilent, hcall, hpass, rfl⟩
  | call hs ht _ => exact .inr (.inl ⟨_, _, _, _, (hone hs ht).symm, rfl⟩)
  | read hs ht htok ha =>
    obtain rfl := hone hs ht
    exact .inr (.inr ⟨_, htok, ha, rfl⟩)

/-- A transition that reads takes the token at hand, which becomes a leaf. -/
theorem of_reads {t : Transition} (hleads : interp.network.LeadsOn rule x.state [t])
    (hreads : t.isEpsilon = false) (h : Advances interp ts x y) :
    ∃ tok z, ts[x.place]? = some tok ∧ t.accepts interp.network.maxType tok.type = true ∧
      y = (x.onto z).goto t.target ∧ z.place = nextPlace ts x.place ∧
        z.children = x.children ++ [.leaf tok] := by
  have hnot (target : StateId) : t ≠ .epsilon target := by
    rintro rfl
    cases hreads
  rcases h.of_single hleads hnot with ⟨hsilent, _⟩ | ⟨_, _, _, _, rfl, _⟩ | ⟨tok, htok, ha, hy⟩
  · exact absurd (hreads.symm.trans hsilent) Bool.false_ne_true
  · cases hreads
  · refine ⟨tok, _, htok, ha, hy, rfl, ?_⟩
    rw [Standing.eat, show ts[x.matched.place]? = some tok from htok]
    rfl

theorem of_precedence {target : StateId} {level : Int}
    (hleads : interp.network.LeadsOn rule x.state [.precedence target level])
    (h : Advances interp ts x y) : x.current.precedence ≤ level ∧ y = x.goto target := by
  rcases h.of_single hleads (by simp) with ⟨_, _, hpass, hy⟩ | ⟨_, _, _, _, heq, _⟩ | ⟨_, _, ha, _⟩
  · exact ⟨of_decide_eq_true hpass, hy⟩
  · cases heq
  · cases ha

theorem of_call {start follow : StateId} {callee : RuleIndex} {level : Int}
    (hleads : interp.network.LeadsOn rule x.state [.call start callee follow level])
    (h : Advances interp ts x y) :
    y = x.call (interp.network.ruleName callee) start callee follow level := by
  rcases h.of_single hleads (by simp) with ⟨_, hcall, _⟩ | ⟨_, _, _, _, heq, hy⟩ | ⟨_, _, ha, _⟩
  · cases hcall
  · obtain ⟨rfl, rfl, rfl, rfl⟩ := Transition.call.inj heq
    exact hy
  · cases ha

/-- At the end of a rule its caller goes on. -/
theorem of_stops (hstops : interp.network.Stops rule x.state) (h : Advances interp ts x y) :
    ∃ caller outer, x.outer = caller :: outer ∧ y = x.back caller outer := by
  have hnone {s : State} {t : Transition} (hs : interp.network.state? x.state = some s)
      (ht : t ∈ s.transitions) : False := by
    rw [hstops.transitions hs] at ht
    cases ht
  cases h with
  | back _ _ houter => exact ⟨_, _, houter, rfl⟩
  | branch hs _ ht => exact (hnone hs (List.mem_of_getElem? ht)).elim
  | hop hs ht | pass hs ht | call hs ht | read hs ht =>
    exact (hnone hs (ht ▸ List.mem_singleton_self _)).elim

/-- At the head of the loop over the operators of a rule, another round wraps the
node, and the way out is an alternative that was chosen. -/
theorem of_operatorLoop {turn leave : Nat} {role : StateRole} {turns leaves : List Transition}
    (hentry : interp.network.shape? x.state =
      some ⟨.starLoopEntry true, rule, [.epsilon turn, .epsilon leave]⟩)
    (hturn : interp.network.shape? turn = some ⟨role, rule, turns⟩) (hrole : role ≠ .loopEnd)
    (hleave : interp.network.shape? leave = some ⟨.loopEnd, rule, leaves⟩)
    (h : Advances interp ts x y) :
    (∃ mark, y = (x.setAlt mark).wrap.goto turn) ∨
      ∃ mark s, interp.network.state? x.state = some s ∧ s.isDecision = true ∧
        Chosen interp ts s x 2 ∧ y = (x.setAlt mark).goto leave := by
  have hleads : interp.network.LeadsOn rule x.state [.epsilon turn, .epsilon leave] :=
    .of_shape hentry (by decide)
  have hends (target : Nat) {role : StateRole} {transitions : List Transition}
      (hshape : interp.network.shape? target = some ⟨role, rule, transitions⟩) :
      interp.endsLoop (.epsilon target) = (role == .loopEnd) := by
    obtain ⟨s, hs, heq⟩ := Graph.state?_of_shape? hshape
    rw [Interpreter.endsLoop, show interp.network.state? (Transition.epsilon target).target = some s
      from hs, Option.any_some, (Shape.mk.inj heq).1]
  have hhop {s : State} (hs : interp.network.state? x.state = some s) (z : View) :
      interp.hop s turn z = z.wrap.goto turn ∧ interp.hop s leave z = z.goto leave := by
    have heq := Option.some.inj ((Graph.shape?_of_state? hs).symm.trans hentry)
    simp [Interpreter.hop, Interpreter.beginsRound, (Shape.mk.inj heq).1, hends turn hturn,
      hends leave hleave, hrole]
  have htwo {s : State} {t : Transition} (hs : interp.network.state? x.state = some s) :
      s.transitions ≠ [t] := by
    rw [(hleads.eq hs).2]
    simp
  cases h with
  | back hs hstop => exact absurd ((hleads.eq hs).1.symm.trans hstop) Bool.false_ne_true
  | @branch s alt mark target hs hchosen ht =>
    have hts := (hleads.eq hs).2
    rw [hts] at ht
    match alt, hchosen, ht with
    | 0, _, ht | 1, _, ht =>
      obtain rfl : turn = target := by simpa using ht
      exact .inl ⟨mark, (hhop hs _).1⟩
    | 2, hchosen, ht =>
      obtain rfl : leave = target := by simpa using ht
      exact .inr ⟨mark, s, hs, by simp [State.isDecision, hts], hchosen, (hhop hs _).2⟩
  | hop hs ht | pass hs ht | call hs ht | read hs ht => exact absurd ht (htwo hs)

end Advances

end

end AdaptiveLL
