/-
The look-ahead walk ends on every graph.

A graph may call its rules in circles, go round without reading anything, and leave
a rule by the end of another one.  The walk ends all the same, if transitions lead
to states: a frame is pushed when a rule is entered that was not yet, and a rule
counts as left only when a frame is popped, so that there are never more frames
above the given stack than rules that are called.
-/
import AdaptiveLL.Proofs.Lookahead.Checked
import Mathlib.Data.Finset.Card

namespace AdaptiveLL

def Graph.callees (g : Graph) : Finset RuleIndex :=
  (g.calls.map fun call => call.2.1).toFinset

theorem Graph.mem_callees {g : Graph} {id : Nat} {s : State} {start follow : StateId}
    {callee : RuleIndex} {level : Int} (hs : g.state? id = some s)
    (ht : .call start callee follow level ∈ s.transitions) : callee ∈ g.callees :=
  List.mem_toFinset.mpr (List.mem_map.mpr ⟨_, Graph.mem_calls hs ht, rfl⟩)

theorem Graph.card_callees_le (g : Graph) : g.callees.card ≤ g.calls.length := by
  have hlength : (g.calls.map fun call => call.2.1).length = g.calls.length := List.length_map _
  rw [← hlength]
  exact List.toFinset_card_le _

/-- What holds of every visit of a walk from a state under a stack: the rules
entered differ, and there are at least as many of them as frames above what is left
of the given stack. -/
structure LookVisit.Shallow (g : Graph) (state : StateId) (below : CallStack) (x : LookVisit) :
    Prop where
  state_mem : x.state ∈ state :: (List.range g.states.size ++ below.returnStates)
  stack_eq : ∃ top base, x.stack = top ++ base ∧ base <:+ below ∧
    top.length ≤ x.entered.length ∧ top ⊆ g.lookFrames
  nodup : x.entered.Nodup
  called : ∀ rule ∈ x.entered, rule ∈ g.callees

namespace LookVisit.Shallow

variable {g : Graph} {state : StateId} {below : CallStack} {x y : LookVisit} {s : State}
  {t : Transition}

theorem start : Shallow g state below ⟨state, below, []⟩ where
  state_mem := List.mem_cons_self
  stack_eq := ⟨[], below, rfl, List.suffix_rfl, Nat.zero_le _, List.nil_subset _⟩
  nodup := .nil
  called := nofun

theorem state_mem_of_lt {id : StateId} (h : id < g.states.size) :
    id ∈ state :: (List.range g.states.size ++ below.returnStates) :=
  List.mem_cons_of_mem _ (List.mem_append_left _ (List.mem_range.mpr h))

theorem length_entered_le (hx : x.Shallow g state below) : x.entered.length ≤ g.callees.card := by
  rw [← List.toFinset_card_of_nodup hx.nodup]
  apply Finset.card_le_card
  intro rule hrule
  exact hx.called rule (List.mem_toFinset.mp hrule)

theorem length_stack_le (hx : x.Shallow g state below) :
    x.stack.length ≤ below.length + g.callees.card := by
  obtain ⟨top, base, hstack, hbase, hlength, _⟩ := hx.stack_eq
  have hentered := hx.length_entered_le
  have hsuffix := hbase.length_le
  rw [hstack, List.length_append]
  omega

/-- A transition passed leaves the stack, and a call pushes a frame for a rule that
is new. -/
theorem along (hx : x.Shallow g state below) (hsealed : g.Sealed) (hs : g.state? x.state = some s)
    (ht : t ∈ s.transitions) (hy : x.along t = some y) : y.Shallow g state below := by
  have hpass (hsilent : t.isEpsilon = true) :
      ({ x with state := t.target } : LookVisit).Shallow g state below :=
    { hx with state_mem := state_mem_of_lt (hsealed.target_state hs ht hsilent) }
  cases t with
  | epsilon | predicate | precedence | action =>
    obtain rfl := Option.some.inj hy
    exact hpass rfl
  | call start rule follow level =>
    rw [LookVisit.along] at hy
    by_cases hold : x.entered.contains rule = true
    · rw [if_pos hold] at hy
      cases hy
    · rw [if_neg hold] at hy
      obtain rfl := Option.some.inj hy
      obtain ⟨top, base, hstack, hbase, hlength, hframes⟩ := hx.stack_eq
      refine ⟨state_mem_of_lt (hsealed.target_state hs ht rfl), ?_, ?_, ?_⟩
      · refine ⟨⟨follow, level⟩ :: top, base, ?_, hbase, Nat.succ_le_succ hlength, ?_⟩
        · rw [hstack, List.cons_append]
        · apply List.cons_subset.mpr
          exact ⟨List.mem_map.mpr ⟨_, Graph.mem_calls hs ht, rfl⟩, hframes⟩
      · exact List.nodup_cons.mpr ⟨by simpa using hold, hx.nodup⟩
      · exact List.forall_mem_cons.mpr ⟨Graph.mem_callees hs ht, hx.called⟩
  | atom | set | wildcard => cases hy

/-- A frame is popped at the end of a rule, and no more than this rule is left,
which need not be the one entered last. -/
theorem back (hx : x.Shallow g state below) (hsealed : g.Sealed) {frame : Frame} {stack : CallStack}
    (hstack : x.stack = frame :: stack) (rule : RuleIndex) :
    (⟨frame.returnState, stack, x.entered.erase rule⟩ : LookVisit).Shallow g state below := by
  obtain ⟨top, base, heq, hbase, hlength, hframes⟩ := hx.stack_eq
  have herased : x.entered.length - 1 ≤ (x.entered.erase rule).length := List.le_length_erase
  have hnodup : (x.entered.erase rule).Nodup := hx.nodup.erase rule
  have hcalled : ∀ r ∈ x.entered.erase rule, r ∈ g.callees := by
    intro r hr
    exact hx.called r (List.mem_of_mem_erase hr)
  rw [hstack] at heq
  cases top with
  | nil =>
    obtain rfl : frame :: stack = base := heq
    have hmem : frame ∈ below := hbase.subset List.mem_cons_self
    refine ⟨?_, ⟨[], stack, rfl, ?_, Nat.zero_le _, List.nil_subset _⟩, hnodup, hcalled⟩
    · apply List.mem_cons_of_mem
      exact List.mem_append_right _ (List.mem_map_of_mem hmem)
    · exact (List.suffix_cons frame stack).trans hbase
  | cons first top =>
    obtain ⟨rfl, rfl⟩ := List.cons.inj heq
    obtain ⟨hframe, hrest⟩ := List.cons_subset.mp hframes
    obtain ⟨⟨start, callee, follow, level⟩, hcall, rfl⟩ := List.mem_map.mp hframe
    obtain ⟨_, _, hs, ht⟩ := Graph.exists_of_mem_calls hcall
    have hless : top.length ≤ x.entered.length - 1 := Nat.le_sub_one_of_lt hlength
    refine ⟨state_mem_of_lt (hsealed.follow_state hs ht), ?_, hnodup, hcalled⟩
    exact ⟨top, base, rfl, hbase, hless.trans herased, hrest⟩

theorem lookNext (hx : x.Shallow g state below) (hsealed : g.Sealed) (hy : y ∈ g.lookNext x) :
    y.Shallow g state below := by
  unfold Graph.lookNext at hy
  split at hy
  · cases hy
  · rename_i s hs
    split at hy
    · split at hy
      · cases hy
      · rename_i frame stack hstack
        obtain rfl := List.mem_singleton.mp hy
        exact hx.back hsealed hstack s.rule
    · obtain ⟨t, ht, hy⟩ := List.mem_filterMap.mp hy
      exact hx.along hsealed hs ht hy

/-- The states and stacks of a walk are among finitely many. -/
theorem key_mem (hx : x.Shallow g state below) : x.key ∈
    g.stackedStates (state :: (List.range g.states.size ++ below.returnStates)) below := by
  obtain ⟨top, base, hstack, hbase, hlength, hframes⟩ := hx.stack_eq
  have hbound := hx.length_entered_le.trans g.card_callees_le
  have hover : top ++ base ∈ stacksOver g.lookFrames g.calls.length below.tails :=
    mem_stacksOver hframes (hlength.trans hbound) ((List.mem_tails _ _).mpr hbase)
  rw [← hstack] at hover
  exact List.mem_flatMap.mpr ⟨x.state, hx.state_mem, List.mem_map.mpr ⟨x.stack, hover, rfl⟩⟩

end LookVisit.Shallow

section Walk

variable {g : Graph}

/-- The steps that a walk may take are enough for all states and stacks. -/
theorem Graph.length_stackedStates_start_le (g : Graph) (state : StateId) (below : CallStack) :
    1 + (g.stackedStates (state :: (List.range g.states.size ++ below.returnStates))
      below).length * (g.transitionCount + 1) ≤ g.lookBound below := by
  have hkeys := g.length_stackedStates_le
    (state :: (List.range g.states.size ++ below.returnStates)) below
  rw [List.length_cons, List.length_append, List.length_range, CallStack.returnStates,
    List.length_map] at hkeys
  exact Nat.add_le_add_left (Nat.mul_le_mul_right _ hkeys) 1

/-- The walk runs to its end. -/
theorem Graph.Sealed.traverses_lookVisits (hsealed : g.Sealed) (state : StateId)
    (below : CallStack) :
    Traverses LookVisit.key g.lookNext [⟨state, below, []⟩] {} (g.lookVisits state below) := by
  let keys := g.stackedStates (state :: (List.range g.states.size ++ below.returnStates)) below
  have hkeys (x : LookVisit) (hx : x.Shallow g state below) : x.key ∈ keys := hx.key_mem
  have hnext (x : LookVisit) (hx : x.Shallow g state below) :
      (g.lookNext x).length ≤ g.transitionCount + 1 ∧
        ∀ y ∈ g.lookNext x, y.Shallow g state below :=
    ⟨Network.Orderly.length_lookNext_le g x, fun y hy => hx.lookNext hsealed hy⟩
  have hunseen : (({} : Explored LookVisit.key).unseen keys).length ≤ keys.length :=
    List.length_filter_le _ _
  have hsteps : 1 + (({} : Explored LookVisit.key).unseen keys).length * (g.transitionCount + 1) ≤
      g.lookBound below :=
    (Nat.add_le_add_left (Nat.mul_le_mul_right _ hunseen) 1).trans
      (g.length_stackedStates_start_le state below)
  exact .of_explore hkeys hnext (List.forall_mem_singleton.mpr .start) hsteps

theorem Graph.Sealed.nodup_lookVisits (hsealed : g.Sealed) (state : StateId) (below : CallStack) :
    ((g.lookVisits state below).map fun x => (x.state, x.stack)).Nodup := by
  have hkeys := (hsealed.traverses_lookVisits state below).nodup .nil
  apply List.Nodup.of_map fun place => StackedState.of place.1 place.2
  rw [List.map_map]
  exact hkeys

theorem Graph.Sealed.length_stack_le (hsealed : g.Sealed) (state : StateId) (below : CallStack) :
    ∀ x ∈ g.lookVisits state below, x.stack.length ≤ below.length + g.callees.card := by
  intro x hx
  have hshallow : x.Shallow g state below :=
    Graph.forall_lookVisits .start (fun x hx y hy => hx.lookNext hsealed hy) x hx
  exact hshallow.length_stack_le

end Walk

/-- Look-ahead is finite on every graph whose transitions pass their check: the walk
from a state under a stack ends, takes up every state under every stack once at
most, and comes to no stack that is deeper than the given one by more than the
number of rules that are called.  So making a network of a graph ends, with the
defect found or with the sets that the finished walks give. -/
theorem Graph.lookVisits_finite (g : Graph) :
    (g.TransitionsPass → ∀ state below,
      Traverses LookVisit.key g.lookNext [⟨state, below, []⟩] {} (g.lookVisits state below) ∧
        ((g.lookVisits state below).map fun x => (x.state, x.stack)).Nodup ∧
        ∀ x ∈ g.lookVisits state below, x.stack.length ≤ below.length + g.callees.card) ∧
      ∀ maxType, (∃ defect, g.check = .error defect ∧ g.toNetwork maxType = .error defect) ∨
        ∃ n, g.check = .ok () ∧ g.toNetwork maxType = .ok n ∧
          ∀ id < n.states.size, n.next id = n.lookInRule id ∧
            Traverses LookVisit.key n.lookNext [⟨id, [], []⟩] {} (n.lookVisits id []) := by
  constructor
  · intro hpass state below
    have hsealed := hpass.sealed
    exact ⟨hsealed.traverses_lookVisits state below, hsealed.nodup_lookVisits state below,
      hsealed.length_stack_le state below⟩
  · intro maxType
    cases hcheck : g.check with
    | error defect => exact .inl ⟨defect, rfl, Graph.toNetwork_of_check_error hcheck maxType⟩
    | ok _ =>
      obtain ⟨n, hn⟩ := Graph.toNetwork_of_check_ok hcheck maxType
      obtain ⟨_, hnext⟩ := Graph.toNetwork_ok hn
      have hsealed := Graph.sealed_of_check (Graph.check_of_toNetwork hn)
      refine .inr ⟨n, rfl, hn, fun id hid => ?_⟩
      exact ⟨hnext id hid, hsealed.traverses_lookVisits id []⟩

/-- Two rules that call each other first; the second goes round on the spot and can
leave by the end of the first. -/
def circularGraph : Graph where
  states := #[⟨.ruleStart, 0, [.call 2 1 1 0], none⟩, ⟨.ruleStop, 0, [], none⟩,
    ⟨.ruleStart, 1, [.call 0 0 3 0, .epsilon 2, .epsilon 1], none⟩, ⟨.ruleStop, 1, [], none⟩]
  rules := #[⟨"a", 0, 1, false⟩, ⟨"b", 2, 3, false⟩]

theorem lookVisits_circularGraph :
    circularGraph.TransitionsPass ∧ circularGraph.callees.card = 2 ∧
      ∀ x ∈ circularGraph.lookVisits 0 [], x.stack.length ≤ 2 := by
  have hpass : circularGraph.TransitionsPass := Graph.transitionsPass_of_check (by decide +kernel)
  have hcard : circularGraph.callees.card = 2 := by decide +kernel
  obtain ⟨_, _, hdepth⟩ := (Graph.lookVisits_finite circularGraph).1 hpass 0 []
  rw [hcard] at hdepth
  exact ⟨hpass, hcard, hdepth⟩

end AdaptiveLL
