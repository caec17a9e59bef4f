/-
Look-ahead misses nothing.

The look-ahead walk takes up every position that the network can come to without
reading a token: the rules it refuses to enter are open, and open rules are not
called.  So a token that the network can read next is always among the acceptable
ones.
-/
import AdaptiveLL.Proofs.Counting
import AdaptiveLL.Proofs.Exploration
import AdaptiveLL.Proofs.Nesting
import AdaptiveLL.TypeSet.Membership
import Mathlib.Algebra.Order.BigOperators.Group.List
import Mathlib.Algebra.Order.Ring.Nat

namespace AdaptiveLL

def LookVisit.position (x : LookVisit) : Position :=
  ⟨x.state, x.stack.returnStates⟩

def Graph.lookFrames (g : Graph) : List Frame :=
  g.calls.map fun call => ⟨call.2.2.1, call.2.2.2⟩

theorem Graph.length_transitions_le {g : Graph} {id : StateId} {s : State}
    (hs : g.state? id = some s) : s.transitions.length ≤ g.transitionCount := by
  rw [transitionCount, List.length_flatMap]
  refine List.le_sum_of_mem (List.mem_map.mpr ⟨s, ?_, rfl⟩)
  exact Array.mem_toList_iff.mpr (Array.mem_of_getElem? hs)

/-- Some states, each under all stacks that a walk can come to. -/
def Graph.stackedStates (g : Graph) (states : List StateId) (below : CallStack) :
    List StackedState :=
  states.flatMap fun state =>
    (stacksOver g.lookFrames g.calls.length below.tails).map (.of state)

theorem Graph.length_stackedStates_le (g : Graph) (states : List StateId) (below : CallStack) :
    (g.stackedStates states below).length ≤
      states.length * g.stackBound below.length g.calls.length := by
  have hstacks := length_stacksOver_le g.lookFrames g.calls.length below.tails
  have hframes : g.lookFrames.length = g.calls.length := List.length_map _
  rw [hframes, List.length_tails] at hstacks
  rw [stackedStates, length_flatMap_of_const fun _ => List.length_map _, stackBound]
  exact Nat.mul_le_mul_left _ hstacks

/-- What holds of every visit of a walk that starts under a stack. -/
structure LookVisit.Sound (g : Graph) (below : CallStack) (x : LookVisit) : Prop where
  state_mem : x.state < g.states.size ∨ x.state ∈ below.returnStates
  stack_eq : ∃ top base, x.stack = top ++ base ∧ base <:+ below ∧
    top.length = x.entered.length ∧ top ⊆ g.lookFrames
  opened : Opened g x.entered x.position

/-- A step of the look-ahead walk, whatever rules are open. -/
inductive LookStep (g : Graph) (x : LookVisit) : LookVisit → Prop where
  | pass {s t entered} (hs : g.state? x.state = some s) (hrun : s.isStop = false)
      (ht : t ∈ s.transitions) (hsilent : t.isEpsilon = true) (hcall : t.call? = none) :
      LookStep g x ⟨t.target, x.stack, entered⟩
  | call {s start rule follow level entered} (hs : g.state? x.state = some s)
      (hrun : s.isStop = false) (ht : .call start rule follow level ∈ s.transitions) :
      LookStep g x ⟨start, ⟨follow, level⟩ :: x.stack, entered⟩
  | back {s frame stack entered} (hs : g.state? x.state = some s) (hstop : s.isStop = true)
      (hstack : x.stack = frame :: stack) : LookStep g x ⟨frame.returnState, stack, entered⟩

theorem Move.lookStep {g : Graph} {x : LookVisit} {y : Position} (h : Move g x.position y) :
    ∃ z : LookVisit, z.position = y ∧ LookStep g x z := by
  cases h with
  | pass hs hrun ht hsilent hcall => exact ⟨⟨_, x.stack, []⟩, rfl, .pass hs hrun ht hsilent hcall⟩
  | call hs hrun ht hcall =>
    subst hcall
    exact ⟨⟨_, _, []⟩, rfl, .call hs hrun ht⟩
  | back hs hstop hreturns =>
    obtain ⟨frame, stack, hstack, rfl, rfl⟩ := List.map_eq_cons_iff.mp hreturns
    exact ⟨⟨_, _, []⟩, rfl, .back hs hstop hstack⟩

namespace Network.Orderly

variable {n : Network}

theorem sound_along (horder : n.Orderly) {below : CallStack} {x y : LookVisit} {s : State}
    {t : Transition} (hx : x.Sound n.toGraph below) (hs : n.state? x.state = some s)
    (hrun : s.isStop = false) (ht : t ∈ s.transitions) (hy : x.along t = some y) :
    y.Sound n.toGraph below := by
  obtain ⟨top, base, hstack, hbase, hlength, hframes⟩ := hx.stack_eq
  have hpass (hsilent : t.isEpsilon = true) (hcall : t.call? = none) :
      ({ x with state := t.target } : LookVisit).Sound n.toGraph below := by
    obtain ⟨s', hs', _⟩ := horder.target_state hs ht hsilent hcall
    refine ⟨.inl (Graph.lt_of_state? hs'), ⟨top, base, hstack, hbase, hlength, hframes⟩, ?_⟩
    exact hx.opened.level (horder.level_pass hs hrun ht hsilent hcall)
  cases t with
  | epsilon | predicate | precedence | action =>
    obtain rfl := Option.some.inj hy
    exact hpass rfl rfl
  | call start rule follow level =>
    rw [LookVisit.along] at hy
    split at hy
    · cases hy
    · obtain rfl := Option.some.inj hy
      obtain ⟨s', hs', _⟩ := horder.start_state hs ht
      refine ⟨.inl (Graph.lt_of_state? hs'), ⟨⟨follow, level⟩ :: top, base, ?_, hbase, ?_, ?_⟩, ?_⟩
      · rw [hstack]
        rfl
      · simp [hlength]
      · refine List.cons_subset.mpr ⟨?_, hframes⟩
        exact List.mem_map.mpr ⟨_, Graph.mem_calls hs ht, rfl⟩
      · exact horder.opened_call hx.opened hs hrun ht
  | atom | set | wildcard => cases hy

theorem sound_back (horder : n.Orderly) {below stack : CallStack} {x : LookVisit} {s : State}
    {frame : Frame} (hx : x.Sound n.toGraph below) (hs : n.state? x.state = some s)
    (hstop : s.isStop = true) (hstack : x.stack = frame :: stack) :
    (⟨frame.returnState, stack, x.entered.erase s.rule⟩ : LookVisit).Sound n.toGraph below := by
  obtain ⟨top, base, heq, hbase, hlength, hframes⟩ := hx.stack_eq
  have hopened := hx.opened
  obtain ⟨state, _, entered⟩ := x
  obtain rfl := hstack
  dsimp only at heq hlength hs hopened ⊢
  cases entered with
  | nil =>
    -- The walk leaves the rule in which it began.
    obtain rfl := List.eq_nil_of_length_eq_zero hlength
    obtain rfl : frame :: stack = base := heq
    have hmem : frame ∈ below := hbase.subset List.mem_cons_self
    exact ⟨.inr (List.mem_map_of_mem hmem),
      ⟨[], stack, rfl, (List.suffix_cons frame stack).trans hbase, rfl, List.nil_subset _⟩, .none⟩
  | cons rule rs =>
    obtain ⟨f, top', rfl⟩ := List.exists_cons_of_length_eq_add_one hlength
    obtain ⟨rfl, rfl⟩ := List.cons.inj heq
    obtain rfl := hopened.rule_eq hs
    obtain ⟨hframe, hrest⟩ := List.cons_subset.mp hframes
    obtain ⟨⟨start, callee, follow, level⟩, hcall, rfl⟩ := List.mem_map.mp hframe
    obtain ⟨_, _, hcs, ht⟩ := Graph.exists_of_mem_calls hcall
    obtain ⟨_, hfollow, _⟩ := horder.follow_state hcs ht
    rw [List.erase_cons_head]
    exact ⟨.inl (Graph.lt_of_state? hfollow),
      ⟨top', base, rfl, hbase, by simpa using hlength, hrest⟩,
      horder.opened_back hopened hs hstop⟩

theorem sound_lookNext (horder : n.Orderly) {below : CallStack} {x y : LookVisit}
    (hx : x.Sound n.toGraph below) (hy : y ∈ n.lookNext x) : y.Sound n.toGraph below := by
  unfold Graph.lookNext at hy
  split at hy
  · cases hy
  · rename_i s hs
    split at hy
    · rename_i hstop
      split at hy
      · cases hy
      · rename_i frame stack hstack
        obtain rfl := List.mem_singleton.mp hy
        exact horder.sound_back hx hs hstop hstack
    · rename_i hrun
      obtain ⟨t, ht, hy⟩ := List.mem_filterMap.mp hy
      exact horder.sound_along hx hs (by simpa using hrun) ht hy

theorem length_lookNext_le (g : Graph) (x : LookVisit) :
    (g.lookNext x).length ≤ g.transitionCount + 1 := by
  unfold Graph.lookNext
  split
  · exact Nat.zero_le _
  · rename_i s hs
    split
    · split
      · exact Nat.zero_le _
      · exact Nat.succ_le_succ (Nat.zero_le _)
    · have hle := Graph.length_transitions_le hs
      have hfilter := List.length_filterMap_le x.along s.transitions
      omega

theorem lookNext_of_run {g : Graph} {x : LookVisit} {s : State} (hs : g.state? x.state = some s)
    (hrun : s.isStop = false) : g.lookNext x = s.transitions.filterMap x.along := by
  simp [Graph.lookNext, hs, hrun]

theorem lookNext_of_stop {g : Graph} {x : LookVisit} {s : State} {frame : Frame}
    {stack : CallStack} (hs : g.state? x.state = some s) (hstop : s.isStop = true)
    (hstack : x.stack = frame :: stack) :
    g.lookNext x = [⟨frame.returnState, stack, x.entered.erase s.rule⟩] := by
  simp [Graph.lookNext, hs, hstop, hstack]

theorem LookVisit.key_eq_iff {x y : LookVisit} :
    x.key = y.key ↔ x.state = y.state ∧ x.stack = y.stack :=
  StackedState.of_inj

/-- A visit goes on by every step of the walk. -/
theorem lookStep_mem_lookNext (horder : n.Orderly) {below : CallStack} {x y : LookVisit}
    (hx : x.Sound n.toGraph below) (hstep : LookStep n.toGraph x y) :
    ∃ z ∈ n.lookNext x, z.key = y.key := by
  cases hstep with
  | @pass s t _ hs hrun ht hsilent hcall =>
    rw [lookNext_of_run hs hrun]
    refine ⟨{ x with state := t.target }, List.mem_filterMap.mpr ⟨t, ht, ?_⟩, rfl⟩
    cases t with
    | epsilon | predicate | precedence | action => rfl
    | atom | set | wildcard => cases hsilent
    | call => cases hcall
  | @call s start rule follow level _ hs hrun ht =>
    rw [lookNext_of_run hs hrun]
    refine ⟨⟨start, ⟨follow, level⟩ :: x.stack, rule :: x.entered⟩,
      List.mem_filterMap.mpr ⟨_, ht, ?_⟩, rfl⟩
    have hopen : rule ∉ x.entered := horder.not_mem_opened hx.opened hs hrun ht
    rw [LookVisit.along, if_neg (by simpa using hopen)]
  | back hs hstop hstack =>
    rw [lookNext_of_stop hs hstop hstack]
    exact ⟨_, List.mem_cons_self, rfl⟩

/-- The keys of the visits of a walk that starts under a stack. -/
def lookKeys (g : Graph) (below : CallStack) : List StackedState :=
  (List.range g.states.size ++ below.returnStates).flatMap fun state =>
    (stacksOver g.lookFrames g.calls.length below.tails).map (.of state)

theorem key_mem_lookKeys (horder : n.Orderly) {below : CallStack} {x : LookVisit}
    (hx : x.Sound n.toGraph below) : x.key ∈ lookKeys n.toGraph below := by
  obtain ⟨top, base, hstack, hbase, hlength, hframes⟩ := hx.stack_eq
  refine List.mem_flatMap.mpr ⟨x.state, ?_, List.mem_map.mpr ⟨x.stack, ?_, rfl⟩⟩
  · rcases hx.state_mem with hlt | hmem
    · exact List.mem_append_left _ (List.mem_range.mpr hlt)
    · exact List.mem_append_right _ hmem
  · rw [hstack]
    refine mem_stacksOver hframes ?_ ((List.mem_tails _ _).mpr hbase)
    rw [hlength]
    exact horder.length_opened_le hx.opened

theorem length_lookKeys_le (g : Graph) (below : CallStack) :
    1 + (lookKeys g below).length * (g.transitionCount + 1) ≤ g.lookBound below := by
  have hkeys := g.length_stackedStates_le (List.range g.states.size ++ below.returnStates) below
  rw [List.length_append, List.length_range, CallStack.returnStates, List.length_map] at hkeys
  have hmul := hkeys.trans (Nat.mul_le_mul_right _ (Nat.le_succ (g.states.size + below.length)))
  exact Nat.add_le_add_left (Nat.mul_le_mul_right _ hmul) 1

/-- The walk takes up everything that it can come to. -/
theorem closed_lookVisits (horder : n.Orderly) {state : Nat} (hstate : state < n.states.size)
    (below : CallStack) : Closed LookVisit.key (LookVisit.Sound n.toGraph below)
      (LookStep n.toGraph) [⟨state, below, []⟩] (n.lookVisits state below) := by
  refine explore_closed
    .ofId (fun x hx => horder.key_mem_lookKeys hx) ?_ ?_
    (length_lookKeys_le n.toGraph below)
  · intro x hx
    exact ⟨length_lookNext_le _ x, fun y hy => horder.sound_lookNext hx hy,
      fun y hy => horder.lookStep_mem_lookNext hx hy⟩
  · intro x hx
    obtain rfl := List.mem_singleton.mp hx
    exact ⟨.inl hstate, ⟨[], below, rfl, List.suffix_rfl, rfl, List.nil_subset _⟩, .none⟩

theorem exists_lookVisit (horder : n.Orderly) {state : Nat} (hstate : state < n.states.size)
    (below : CallStack) {y : Position}
    (hmoves : Moves n.toGraph ⟨state, below.returnStates⟩ y) :
    ∃ x ∈ n.lookVisits state below, x.position = y := by
  have hclosed := horder.closed_lookVisits hstate below
  induction hmoves with
  | refl =>
    obtain ⟨x, hx, hkey⟩ := hclosed.covers _ List.mem_cons_self
    obtain ⟨hsame, hsame'⟩ := LookVisit.key_eq_iff.mp hkey
    exact ⟨x, hx, by rw [LookVisit.position, hsame, hsame']⟩
  | tail _ hstep ih =>
    obtain ⟨x, hx, rfl⟩ := ih
    obtain ⟨z, rfl, hz⟩ := hstep.lookStep
    obtain ⟨u, hu, hkey⟩ := hclosed.closed x hx z hz
    obtain ⟨hsame, hsame'⟩ := LookVisit.key_eq_iff.mp hkey
    exact ⟨u, hu, by rw [LookVisit.position, LookVisit.position, hsame, hsame']⟩

end Network.Orderly

/-- What holds where a look-ahead walk starts, and of what comes next whatever it
holds of, holds of all that it takes up. -/
theorem Graph.forall_lookVisits {g : Graph} {state : StateId} {stack : CallStack}
    {P : LookVisit → Prop} (hstart : P ⟨state, stack, []⟩)
    (hnext : ∀ x, P x → ∀ y ∈ g.lookNext x, P y) : ∀ x ∈ g.lookVisits state stack, P x :=
  explore_forall hnext (List.forall_mem_singleton.mpr hstart) nofun

section Types

theorem TypeSet.contains_foldl_union {α : Type} {f : α → TypeSet} {xs : List α} {acc : TypeSet}
    {t : TokenType} : (xs.foldl (fun types x => types.union (f x)) acc).contains t = true ↔
      acc.contains t = true ∨ ∃ x ∈ xs, (f x).contains t = true := by
  induction xs generalizing acc with
  | nil => simp
  | cons x xs ih =>
    rw [List.foldl_cons, ih, TypeSet.contains_union, List.exists_mem_cons_iff, or_assoc]

theorem Graph.contains_lookFrom {g : Graph} {atEnd t : TokenType} {state : StateId}
    {stack : CallStack} : (g.lookFrom atEnd state stack).contains t = true ↔
      ∃ x ∈ g.lookVisits state stack, (g.lookTypes atEnd x).contains t = true := by
  rw [lookFrom, TypeSet.contains_foldl_union]
  simp

theorem Transition.contains_label {maxType t : TokenType} {tr : Transition}
    (h : tr.accepts maxType t = true) :
    ∃ types, tr.label? maxType = some types ∧ types.contains t = true := by
  cases tr with
  | atom target token =>
    obtain rfl := eq_of_beq h
    exact ⟨_, rfl, TypeSet.contains_single.mpr rfl⟩
  | set target types => exact ⟨types, rfl, h⟩
  | wildcard target =>
    refine ⟨_, rfl, TypeSet.contains_range.mpr ?_⟩
    simpa [Transition.accepts] using h
  | _ => cases h

theorem Transition.accepts_of_label {maxType a : TokenType} {t : Transition} {types : TypeSet}
    (h : t.label? maxType = some types) (ha : types.contains a = true) :
    t.accepts maxType a = true := by
  cases t with
  | atom target token =>
    obtain rfl := Option.some.inj h
    exact beq_iff_eq.mpr (TypeSet.contains_single.mp ha).symm
  | set =>
    obtain rfl := Option.some.inj h
    exact ha
  | wildcard =>
    obtain rfl := Option.some.inj h
    simpa [Transition.accepts] using TypeSet.contains_range.mp ha
  | _ => cases h

variable {g : Graph} {atEnd t : TokenType} {x : LookVisit} {s : State}

theorem Graph.contains_lookTypes {tr : Transition} (hs : g.state? x.state = some s)
    (hrun : s.isStop = false) (htr : tr ∈ s.transitions)
    (haccepts : tr.accepts g.maxType t = true) : (g.lookTypes atEnd x).contains t = true := by
  obtain ⟨types, hlabel, hmem⟩ := Transition.contains_label haccepts
  simp only [Graph.lookTypes, hs, hrun, Bool.false_eq_true, if_false]
  exact (TypeSet.contains_foldl_union (f := id)).mpr
    (.inr ⟨types, List.mem_filterMap.mpr ⟨tr, htr, hlabel⟩, hmem⟩)

theorem Graph.contains_lookTypes_atEnd (hs : g.state? x.state = some s)
    (hstop : s.isStop = true) (hstack : x.stack = []) :
    (g.lookTypes atEnd x).contains atEnd = true := by
  simp [Graph.lookTypes, hs, hstop, hstack, TypeSet.contains_single]

end Types

/-- A way that reads nothing stays above the callers it begins under, or leaves its
rule. -/
theorem Moves.split {g : Graph} {state : StateId} {returns : List StateId} {y : Position}
    (h : Moves g ⟨state, returns⟩ y) :
    (∃ top, y.returns = top ++ returns ∧ Moves g ⟨state, []⟩ ⟨y.state, top⟩) ∨
      ∃ ret rest stop s, returns = ret :: rest ∧ Moves g ⟨state, []⟩ ⟨stop, []⟩ ∧
        g.state? stop = some s ∧ s.isStop = true ∧ Moves g ⟨ret, rest⟩ y := by
  induction h with
  | refl => exact .inl ⟨[], rfl, .refl⟩
  | @tail y z _ hstep ih =>
    rcases ih
      with ⟨top, hreturns, hmoves⟩ | ⟨ret, rest, stop, s, hreturns, hmoves, hs, hstop, hrest⟩
    · cases hstep with
      | pass hs hrun ht hsilent hcall =>
        exact .inl
          ⟨top, hreturns, hmoves.tail (.pass (x := ⟨y.state, top⟩) hs hrun ht hsilent hcall)⟩
      | call hs hrun ht hcall =>
        refine .inl ⟨_ :: top, ?_, hmoves.tail (.call (x := ⟨y.state, top⟩) hs hrun ht hcall)⟩
        rw [hreturns]
        rfl
      | back hs hstop hback =>
        cases top with
        | nil =>
          rw [hreturns] at hback
          exact .inr ⟨_, _, y.state, _, hback, hmoves, hs, hstop, .refl⟩
        | cons ret top =>
          rw [hreturns] at hback
          obtain ⟨rfl, rfl⟩ := List.cons.inj hback
          exact .inl ⟨top, rfl, hmoves.tail (.back (x := ⟨y.state, _ :: top⟩) hs hstop rfl)⟩
    · exact .inr ⟨ret, rest, stop, s, hreturns, hmoves, hs, hstop, hrest.tail hstep⟩

namespace Network.Orderly

variable {n : Network}

/-- What can be read next within a rule is in the set of its state. -/
theorem contains_next (horder : n.Orderly) {state : Nat} (hstate : state < n.states.size)
    {y : Position} {s : State} {tr : Transition} {t : TokenType}
    (hmoves : Moves n.toGraph ⟨state, []⟩ y) (hs : n.state? y.state = some s)
    (hrun : s.isStop = false) (htr : tr ∈ s.transitions)
    (haccepts : tr.accepts n.maxType t = true) : (n.next state).contains t = true := by
  obtain ⟨x, hx, rfl⟩ := horder.exists_lookVisit hstate [] hmoves
  rw [horder.next_eq state hstate, Graph.lookInRule, Graph.contains_lookFrom]
  exact ⟨x, hx, Graph.contains_lookTypes hs hrun htr haccepts⟩

/-- If the rule of a state can end, the set of the state says so. -/
theorem epsilon_next (horder : n.Orderly) {state : Nat} (hstate : state < n.states.size)
    {stop : StateId} {s : State} (hmoves : Moves n.toGraph ⟨state, []⟩ ⟨stop, []⟩)
    (hs : n.state? stop = some s) (hstop : s.isStop = true) :
    (n.next state).contains .epsilon = true := by
  obtain ⟨x, hx, hpos⟩ := horder.exists_lookVisit hstate [] hmoves
  simp only [LookVisit.position, Position.mk.injEq, CallStack.returnStates,
    List.map_eq_nil_iff] at hpos
  rw [horder.next_eq state hstate, Graph.lookInRule, Graph.contains_lookFrom]
  exact ⟨x, hx, Graph.contains_lookTypes_atEnd (hpos.1 ▸ hs) hstop hpos.2⟩

/-- What can be read next is expected, in the rule or behind it. -/
theorem contains_or_expectsOutward (horder : n.Orderly) {state : Nat} {returns : List StateId}
    {y : Position} {s : State} {tr : Transition} {t : TokenType}
    (hstates : ∀ id ∈ state :: returns, id < n.states.size)
    (hmoves : Moves n.toGraph ⟨state, returns⟩ y) (hs : n.state? y.state = some s)
    (hrun : s.isStop = false) (htr : tr ∈ s.transitions)
    (haccepts : tr.accepts n.maxType t = true) :
    (n.next state).contains t = true ∨
      (n.next state).contains .epsilon = true ∧
      n.expectsOutward t (n.next state) returns = true := by
  induction returns generalizing state with
  | nil =>
    rcases hmoves.split with ⟨top, _, hinner⟩ | ⟨_, _, _, _, hreturns, _⟩
    · exact .inl
        (horder.contains_next (hstates state List.mem_cons_self) hinner hs hrun htr haccepts)
    · cases hreturns
  | cons ret rest ih =>
    have hstate := hstates state List.mem_cons_self
    rcases hmoves.split
      with ⟨top, _, hinner⟩ | ⟨_, _, stop, s', hreturns, hinner, hs', hstop, houter⟩
    · exact .inl (horder.contains_next hstate hinner hs hrun htr haccepts)
    · obtain ⟨rfl, rfl⟩ := List.cons.inj hreturns
      have hepsilon := horder.epsilon_next hstate hinner hs' hstop
      refine .inr ⟨hepsilon, ?_⟩
      rw [expectsOutward, if_pos hepsilon]
      rcases ih (fun id hid => hstates id (List.mem_cons_of_mem _ hid)) houter with hin | ⟨_, hout⟩
      · rw [hin, Bool.true_or]
      · rw [hout, Bool.or_true]

/-- A token that the network can read next is expected. -/
theorem expects_of_completes (horder : n.Orderly) {p : Spot} {a : TokenType}
    {w : List TokenType} (hstates : ∀ id ∈ p.state :: p.stack.returnStates, id < n.states.size)
    (h : Completes n.toGraph p (a :: w)) : n.expects p.state p.stack a = true := by
  obtain ⟨q, hdrifts, s, tr, hs, hrun, htr, haccepts⟩ : ∃ q : Spot, Drifts n.toGraph p q ∧
      ∃ s tr, n.state? q.state = some s ∧ s.isStop = false ∧ tr ∈ s.transitions ∧
        tr.accepts n.maxType a = true := by
    clear hstates
    obtain ⟨m, hm⟩ := h
    generalize hw : a :: w = u at hm
    induction hm with
    | done => cases hw
    | silent hstep _ ih =>
      obtain ⟨q, hdrifts, hread⟩ := ih hw
      exact ⟨q, .head hstep.drift hdrifts, hread⟩
    | read hs hrun ht ha _ =>
      obtain ⟨rfl, rfl⟩ := List.cons.inj hw
      exact ⟨_, .refl, _, _, hs, hrun, ht, ha⟩
  rcases horder.contains_or_expectsOutward hstates hdrifts.moves hs hrun htr haccepts
    with hin | hout
  · rw [expects, hin, Bool.true_or]
  · rw [expects, hout.1, hout.2, Bool.true_and, Bool.or_true]

end Network.Orderly

end AdaptiveLL
