/-
The three ways to look ahead agree.

Collecting the acceptable types, testing one type, and walking the network under the
whole stack give the same answer, whatever the callers are.  All three are compared
with what can be read next.  The walk goes through the network and the stack at
once, the other two go outward caller by caller; so what can be read next is split
at the caller in the same way.
-/
import AdaptiveLL.Proofs.Lookahead.Exact

namespace AdaptiveLL

/-- A token of the type can be read next at the position; at the end of the
outermost rule that is the end of the input. -/
def Network.CanRead (n : Network) (t : TokenType) (x : Position) : Prop :=
  ∃ y, Moves n.toGraph x y ∧ (n.ReadsAt t y ∨ t = .eof ∧ n.EndsAt y)

/-- The invocation in which the state is run can end before a token is read. -/
def Network.CanEnd (n : Network) (state : StateId) : Prop :=
  ∃ y, Moves n.toGraph ⟨state, []⟩ y ∧ n.EndsAt y

section Missing

variable {g : Graph} {n : Network} {id : Nat} {returns : List StateId} {t : TokenType}

/-- From a state that does not exist nothing leads on. -/
theorem Moves.eq_of_missing {y : Position} (h : Moves g ⟨id, returns⟩ y)
    (hid : g.state? id = none) : y = ⟨id, returns⟩ := by
  induction h with
  | refl => rfl
  | tail _ hstep ih =>
    subst ih
    cases hstep with
    | pass hs | call hs | back hs => exact absurd (hs.symm.trans hid) nofun

theorem Network.not_readsAt_of_missing (hid : n.state? id = none) :
    ¬n.ReadsAt t ⟨id, returns⟩ := by
  rintro ⟨s, _, hs, _⟩
  exact absurd (hs.symm.trans hid) nofun

theorem Network.not_endsAt_of_missing (hid : n.state? id = none) : ¬n.EndsAt ⟨id, returns⟩ := by
  rintro ⟨hstop, _⟩
  obtain ⟨s, hs, _⟩ := Graph.isStop_iff.mp hstop
  exact absurd (hs.symm.trans hid) nofun

theorem Network.not_canRead_of_missing (hid : n.state? id = none) :
    ¬n.CanRead t ⟨id, returns⟩ := by
  rintro ⟨y, hmoves, hy⟩
  rw [hmoves.eq_of_missing hid] at hy
  rcases hy with hreads | ⟨_, hends⟩
  · exact not_readsAt_of_missing hid hreads
  · exact not_endsAt_of_missing hid hends

/-- A checked graph has no look-ahead set for a state that does not exist. -/
theorem Graph.next_eq_empty {maxType : TokenType} (h : g.toNetwork maxType = .ok n)
    (hid : n.state? id = none) : n.next id = .empty := by
  have hsize : n.states.size ≤ id := Array.getElem?_eq_none_iff.mp hid
  unfold toNetwork at h
  cases hcheck : Graph.check { g with maxType } with
  | error d => simp [hcheck, bind, Except.bind] at h
  | ok u =>
    simp only [hcheck, bind, Except.bind, pure, Except.pure, Except.ok.injEq] at h
    subst h
    have hsize : g.states.size ≤ id := hsize
    simp [Network.next, hsize]

end Missing

namespace Network

variable {n : Network} {id : Nat} {t : TokenType} {returns : List StateId}

/-- Under a caller a type can be read next within the rule, or behind its end in the
caller. -/
theorem canRead_cons {ret : StateId} : n.CanRead t ⟨id, ret :: returns⟩ ↔
    (∃ y, Moves n.toGraph ⟨id, []⟩ y ∧ n.ReadsAt t y) ∨ n.CanEnd id ∧
    n.CanRead t ⟨ret, returns⟩ := by
  constructor
  · rintro ⟨y, hmoves, hy⟩
    rcases hmoves.split with ⟨top, hreturns, hinner⟩ |
      ⟨_, _, stop, s, hreturns, hinner, hs, hstop, houter⟩
    · left
      rcases hy with hreads | ⟨_, _, hnil⟩
      · exact ⟨_, hinner, hreads⟩
      · rw [hnil] at hreturns
        exact absurd hreturns (by simp)
    · right
      obtain ⟨rfl, rfl⟩ := List.cons.inj hreturns
      constructor
      · exact ⟨_, hinner, Graph.isStop_iff.mpr ⟨s, hs, hstop⟩, rfl⟩
      · exact ⟨y, houter, hy⟩
  · rintro (⟨y, hmoves, hreads⟩ | ⟨⟨⟨stop, _⟩, hmoves, hstop, rfl⟩, y, houter, hy⟩)
    · exact ⟨_, hmoves.lift (ret :: returns), .inl hreads⟩
    · obtain ⟨s, hs, hend⟩ := Graph.isStop_iff.mp hstop
      have hback : Move n.toGraph ⟨stop, ret :: returns⟩ ⟨ret, returns⟩ := .back hs hend rfl
      exact ⟨y, ((hmoves.lift (ret :: returns)).tail hback).trans houter, hy⟩

/-- Without a caller a type can be read next within the rule, or is the end of the
input. -/
theorem canRead_nil : n.CanRead t ⟨id, []⟩ ↔
    (∃ y, Moves n.toGraph ⟨id, []⟩ y ∧ n.ReadsAt t y) ∨ n.CanEnd id ∧ t = .eof := by
  constructor
  · rintro ⟨y, hmoves, hreads | ⟨heof, hends⟩⟩
    · exact .inl ⟨y, hmoves, hreads⟩
    · exact .inr ⟨⟨y, hmoves, hends⟩, heof⟩
  · rintro (⟨y, hmoves, hreads⟩ | ⟨⟨y, hmoves, hends⟩, heof⟩)
    · exact ⟨y, hmoves, .inl hreads⟩
    · exact ⟨y, hmoves, .inr ⟨heof, hends⟩⟩

theorem expects_nil : n.expects id [] t = true ↔
    (n.next id).contains t = true ∨ (n.next id).contains .epsilon = true ∧ t = .eof := by
  rw [expects_iff_or, CallStack.returnStates, List.map_nil, expectsOutward, Bool.and_eq_true,
    beq_iff_eq]

theorem expects_cons {frame : Frame} {stack : CallStack} : n.expects id (frame :: stack) t = true ↔
    (n.next id).contains t = true ∨
      (n.next id).contains .epsilon = true ∧ n.expects frame.returnState stack t = true := by
  rw [expects_iff_or, expects_iff_or, CallStack.returnStates, List.map_cons, expectsOutward]
  split
  · simp_all [CallStack.returnStates]
  · simp_all

end Network

section Checked

variable {g : Graph} {n : Network} {maxType : TokenType} {id : Nat} {t : TokenType}

/-- The set of a state has what can be read next before its rule ends, also where
there is no such state. -/
theorem Graph.contains_next_iff (h : g.toNetwork maxType = .ok n) (horder : n.Orderly)
    (ht : t ≠ .epsilon) : (n.next id).contains t = true ↔
      ∃ y, Moves n.toGraph ⟨id, []⟩ y ∧ n.ReadsAt t y := by
  cases hid : n.state? id with
  | some s => exact horder.contains_next_iff (lt_of_state? hid) ht
  | none =>
    rw [Graph.next_eq_empty h hid]
    refine iff_of_false (by simp) ?_
    rintro ⟨y, hmoves, hreads⟩
    exact Network.not_canRead_of_missing hid ⟨y, hmoves, .inl hreads⟩

theorem Graph.contains_next_epsilon_iff (h : g.toNetwork maxType = .ok n) (horder : n.Orderly)
    (htokens : n.ReadsTokens) : (n.next id).contains .epsilon = true ↔ n.CanEnd id := by
  cases hid : n.state? id with
  | some s => exact horder.contains_next_epsilon_iff htokens (lt_of_state? hid)
  | none =>
    rw [Graph.next_eq_empty h hid]
    refine iff_of_false (by simp) ?_
    rintro ⟨y, hmoves, hends⟩
    exact Network.not_canRead_of_missing (t := .eof) hid ⟨y, hmoves, .inr ⟨rfl, hends⟩⟩

/-- Going outward caller by caller accepts what can be read next. -/
theorem Graph.expects_iff_canRead (h : g.toNetwork maxType = .ok n) (horder : n.Orderly)
    (htokens : n.ReadsTokens) (ht : t ≠ .epsilon) {stack : CallStack} :
    n.expects id stack t = true ↔ n.CanRead t ⟨id, stack.returnStates⟩ := by
  induction stack generalizing id with
  | nil =>
    rw [Network.expects_nil, contains_next_iff h horder ht,
      contains_next_epsilon_iff h horder htokens]
    exact Network.canRead_nil.symm
  | cons frame stack ih =>
    rw [Network.expects_cons, contains_next_iff h horder ht,
      contains_next_epsilon_iff h horder htokens, ih]
    exact Network.canRead_cons.symm

/-- The walk under the whole stack finds what can be read next. -/
theorem Network.Orderly.contains_lookInContext_iff (horder : n.Orderly) {stack : CallStack} :
    (n.lookInContext id stack).contains t = true ↔ n.CanRead t ⟨id, stack.returnStates⟩ := by
  rw [Graph.lookInContext, Graph.contains_lookFrom]
  constructor
  · rintro ⟨x, hx, hcontains⟩
    exact ⟨x.position, Graph.moves_of_lookVisits x hx, of_contains_lookTypes hcontains⟩
  · intro hread
    cases hid : n.state? id with
    | none => exact absurd hread (not_canRead_of_missing hid)
    | some s =>
      obtain ⟨y, hmoves, hy⟩ := hread
      obtain ⟨x, hx, rfl⟩ := horder.exists_lookVisit (Graph.lt_of_state? hid) stack hmoves
      refine ⟨x, hx, ?_⟩
      rcases hy with ⟨s', tr, hs', hrun, htr, haccepts⟩ | ⟨rfl, hstop, hnil⟩
      · exact Graph.contains_lookTypes hs' hrun htr haccepts
      · obtain ⟨s', hs', hend⟩ := Graph.isStop_iff.mp hstop
        exact Graph.contains_lookTypes_atEnd hs' hend (List.map_eq_nil_iff.mp hnil)

end Checked

/-- In the network of a grammar, at every state and under every stack, collecting
the acceptable types, testing a type, and walking the network under the stack agree
on every token type. -/
theorem Definition.lookaheads_agree {d : Definition} {g : Grammar} (hbuild : d.build = .ok g)
    (id : StateId) (stack : CallStack) {t : TokenType} (ht : t ≠ .epsilon) :
    ((g.network.expected id stack).contains t = true ↔ g.network.expects id stack t = true) ∧
      (g.network.expects id stack t = true ↔
        (g.network.lookInContext id stack).contains t = true) := by
  obtain ⟨rules, _, _, hruns⟩ := Definition.runs_of_build hbuild
  constructor
  · exact Network.contains_expected_iff_expects ht
  · rw [Graph.expects_iff_canRead hruns.checked hruns.orderly hruns.readsTokens ht,
      hruns.orderly.contains_lookInContext_iff]

theorem lookaheads_agree_bracketed :
    let n := (bracketed.grammar isOk_build_bracketed).network
    n.expects 2 [⟨5, 0⟩, ⟨99, 3⟩] 1 = true ∧
      (n.lookInContext 2 [⟨5, 0⟩, ⟨99, 3⟩]).contains 1 = true := by
  intro n
  have hbuild := bracketed.build_eq isOk_build_bracketed
  have hagree := Definition.lookaheads_agree hbuild 2 [⟨5, 0⟩, ⟨99, 3⟩] (t := 1) (by decide)
  have hexpects : n.expects 2 [⟨5, 0⟩, ⟨99, 3⟩] 1 = true := by decide +kernel
  exact ⟨hexpects, hagree.2.mp hexpects⟩

end AdaptiveLL
