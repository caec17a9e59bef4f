/-
Expressions over operators can be read to their end.

Wherever a run of a rule of operators has read an operand, it can leave all the
rules that are pending but the outermost one, and read there whatever operators and
operands are left.
-/
import AdaptiveLL.Proofs.Operator.Layout

namespace AdaptiveLL

/-- The states of a rule of operators and of the rule that calls it before the end
of the input. -/
structure Landmarks where
  rule : RuleIndex
  span : RuleSpan
  primary : Nat
  knot : Nat
  top : RuleIndex
  topSpan : RuleSpan
  call : Nat
  follow : Nat
  read : Nat

/-- The landmarks are those of a network, for alternatives that their tokens tell
apart. -/
structure Landmarks.Of (o : Landmarks) (n : Network) (v : Vocabulary) (as : List Arm) : Prop where
  distinct : Arm.Distinct v as
  eof : ∀ i right, ¬Arm.IsOperator v as .eof i right
  ladder : n.Ladder v as o.rule o.span o.primary o.knot
  opens : n.Hops o.top o.topSpan.start o.call
  calls : n.LeadsOn o.top o.call [.call o.span.start o.rule o.follow 0]
  behind : n.Hops o.top o.follow o.read
  reads : ∃ target, n.LeadsOn o.top o.read [.atom target .eof] ∧ n.Hops o.top target o.topSpan.stop
  stops : n.Stops o.top o.topSpan.stop

/-- Operators, each before its operand, up to the end of the input. -/
inductive OperatorTail (v : Vocabulary) (as : List Arm) : List TokenType → Prop where
  | last : OperatorTail v as [.eof]
  | more {a b w i right} (ha : Arm.IsOperator v as a i right) (hb : Arm.IsPrimary v as b)
      (hw : OperatorTail v as w) : OperatorTail v as (a :: b :: w)

/-- An operand before operators with their operands. -/
def OperatorInput (v : Vocabulary) (as : List Arm) (w : List TokenType) : Prop :=
  ∃ b w', w = b :: w' ∧ Arm.IsPrimary v as b ∧ OperatorTail v as w'

/-- The calls that are pending in the rule of operators at this precedence. -/
inductive Landmarks.Stacked (o : Landmarks) (n : Network) : Int → CallStack → Prop where
  | outermost {p} : Stacked o n 0 [⟨o.follow, p⟩]
  | inner {p q follow stack} (hfollow : n.Hops o.rule follow o.knot)
    (hstack : Stacked o n q stack) :
      Stacked o n p (⟨follow, q⟩ :: stack)

section

variable {n : Network} {v : Vocabulary} {as : List Arm} {o : Landmarks} {rule : RuleIndex}
  {id target : Nat} {p : Int} {stack : CallStack} {w : List TokenType}

theorem Graph.Hops.completes {g : Graph} (h : g.Hops rule id target)
    (hw : Completes g ⟨target, p, stack⟩ w) : Completes g ⟨id, p, stack⟩ w := by
  induction h using Relation.ReflTransGen.head_induction_on with
  | refl => exact hw
  | head hstep _ ih => exact .hop hstep.leadsOn List.mem_cons_self ih

theorem Arm.level_pos {a : TokenType} {i : Nat} {right : Bool} (h : Arm.IsOperator v as a i right) :
    0 < Arm.level as i := by
  obtain ⟨_, ha, _⟩ := h
  have hlt := (List.getElem?_eq_some_iff.mp ha).1
  rw [Arm.level]
  omega

namespace Landmarks.Of

/-- Behind the rule of operators, the run is behind the call. -/
theorem completes_behind (h : o.Of n v as) {frame : Frame}
    (hw : Completes n.toGraph (.behind frame stack) w) :
    Completes n.toGraph ⟨o.span.stop, p, frame :: stack⟩ w :=
  .back h.ladder.stops rfl hw

/-- Behind an operand the rule can be left. -/
theorem completes_leave (h : o.Of n v as) {frame : Frame}
    (hw : Completes n.toGraph (.behind frame stack) w) :
    Completes n.toGraph ⟨o.knot, p, frame :: stack⟩ w := by
  cases h.ladder.knot with
  | last hstop => exact hstop ▸ h.completes_behind hw
  | loop hentry _ _ hleave =>
    exact .hop (.of_shape hentry (by decide)) (List.mem_cons_of_mem _ List.mem_cons_self)
      (hleave.completes (h.completes_behind hw))

/-- An operand of one token is read, and the rule can be left behind it. -/
theorem completes_operand (h : o.Of n v as) {b : TokenType} (hb : Arm.IsPrimary v as b)
    (hw : Completes n.toGraph ⟨o.knot, p, stack⟩ w) :
    Completes n.toGraph ⟨o.span.start, p, stack⟩ (b :: w) := by
  obtain ⟨t, hread, _, haccepts, hknot⟩ := h.ladder.reads
  exact h.ladder.opens.completes (.of_leadsOn hread List.mem_cons_self ((haccepts b).mpr hb)
    (hknot.completes hw))

/-- An operator that the precedence lets pass is read with its operand. -/
theorem completes_turn (h : o.Of n v as) {targets : List Nat} {turn : Nat}
    (hturns : n.Turns v as o.rule o.span.start o.knot targets turn) {a b : TokenType} {i : Nat}
    {right : Bool} (ha : Arm.IsOperator v as a i right) (hb : Arm.IsPrimary v as b)
    (hlevel : p ≤ Arm.level as i) (hw : Completes n.toGraph ⟨o.knot, p, stack⟩ w) :
    Completes n.toGraph ⟨turn, p, stack⟩ (a :: b :: w) := by
  obtain ⟨target, htarget, _, _, hcheck, hto, _, _, hread, hto', follow, hcall, hback⟩ :=
    hturns.exists_rung a i right ha
  have hbehind : Completes n.toGraph (.behind ⟨follow, p⟩ stack) w := hback.completes hw
  have hoperand (next : Int) := h.completes_operand hb (h.completes_leave (p := next) hbehind)
  refine .hop (.of_shape hturns.shape (by decide)) (List.mem_map_of_mem htarget) ?_
  refine .pass hcheck List.mem_cons_self (by simpa [Spot.admits] using hlevel) rfl
    (hto.completes ?_)
  refine .of_leadsOn hread List.mem_cons_self (by simp [Transition.accepts]) (hto'.completes ?_)
  exact .pass hcall List.mem_cons_self rfl rfl (hoperand _)

/-- Behind an operand, all operators can be read. -/
theorem completes_tail (h : o.Of n v as) (hstack : o.Stacked n p stack) (hw : OperatorTail v as w) :
    Completes n.toGraph ⟨o.knot, p, stack⟩ w := by
  induction hstack with
  | @outermost q =>
    induction hw with
    | last =>
      obtain ⟨target, hread, hstop⟩ := h.reads
      obtain ⟨s, hs, hisStop⟩ := h.stops.state
      have hdone : Completes n.toGraph ⟨o.topSpan.stop, q, []⟩ [] :=
        .done (by rw [Graph.isStop, hs]; exact hisStop) rfl
      exact h.completes_leave (h.behind.completes
        (.of_leadsOn hread List.mem_cons_self (by simp [Transition.accepts])
          (hstop.completes hdone)))
    | more ha hb _ ih =>
      cases h.ladder.knot with
      | last _ hnone => exact absurd ha (hnone _ _ _)
      | loop hentry hturns =>
        exact .hop (.of_shape hentry (by decide)) List.mem_cons_self
          (h.completes_turn hturns ha hb (Int.le_of_lt (Arm.level_pos ha)) ih)
  | inner hfollow _ ih => exact h.completes_leave (hfollow.completes ih)

/-- The outermost rule reads an expression over operators. -/
theorem completes_input (h : o.Of n v as) (hw : OperatorInput v as w) :
    Completes n.toGraph ⟨o.topSpan.start, 0, []⟩ w := by
  obtain ⟨b, w, rfl, hb, hw⟩ := hw
  exact h.opens.completes (.pass h.calls List.mem_cons_self rfl rfl
    (h.completes_operand hb (h.completes_tail .outermost hw)))

end Landmarks.Of

end

end AdaptiveLL
