/-
How many paths there can be.

In a graph whose transitions lead to states, a path comes to finitely many places
before it reads a token, whatever the rules call: it is not inside of one rule with
one precedence twice, so no more rules are open on it than the network has calls,
and its stack has no more frames above one that it began with.  The steps that a
closure may take are more than that.
-/
import AdaptiveLL.Prediction.Path
import AdaptiveLL.Proofs.Counting
import AdaptiveLL.Proofs.Exploration
import AdaptiveLL.Proofs.Lookahead.Checked

namespace AdaptiveLL

/-- Every predicate holds, or none is asked. -/
def Permits (host : Option Hooks) : Prop :=
  ∀ h ∈ host, ∀ calls rule text, h.holds calls rule text = true

theorem permits_permissive : Permits (some .permissive) := by
  rintro h ⟨⟩ _ _ _
  rfl

/-- The predicate on a transition, if there is one, holds or is not asked. -/
def Transition.Permitted (n : Network) (host : Option Hooks) (t : Transition) : Prop :=
  ∀ h ∈ host, ∀ target rule index, t = .predicate target rule index →
    ∀ calls, h.holds calls (n.ruleName rule) (n.predicateText index) = true

/-- The predicates of a network hold, or none is asked. -/
def Network.Permits (n : Network) (host : Option Hooks) : Prop :=
  ∀ (id : Nat) s, n.state? id = some s → ∀ t ∈ s.transitions, t.Permitted n host

theorem Permits.network {host : Option Hooks} (h : Permits host) (n : Network) : n.Permits host :=
  fun _ _ _ _ _ hooks hhooks _ _ _ _ calls => h hooks hhooks calls _ _

/-- Asking ends with a result of some kind, whatever was asked before. -/
def Outcome.ofAsking : Outcome Asking where
  Returns w Q := ∀ calls, ∃ b calls', w.run calls = (.ok b, calls') ∧ Q b
  returns_pure h := fun calls => ⟨_, calls, rfl, h⟩
  returns_bind hw hf := fun calls => by
    obtain ⟨b, calls', hrun, hb⟩ := hw calls
    obtain ⟨c, calls'', hrun', hc⟩ := hf b hb calls'
    refine ⟨c, calls'', ?_, hc⟩
    simp only [bind, ExceptT.bind, ExceptT.run, StateT.bind, ExceptT.mk] at hrun ⊢
    rw [hrun]
    exact hrun'
  returns_mono hQR hw := fun calls => by
    obtain ⟨b, calls', hrun, hb⟩ := hw calls
    exact ⟨b, calls', hrun, hQR b hb⟩

/-- The work ends with a result of some kind, whatever was asked before. -/
abbrev Asking.Returns {β : Type} (w : Asking β) (Q : β → Prop) : Prop :=
  Outcome.ofAsking.Returns w Q

namespace Graph

variable {g : Graph} {id : Nat} {s : State}

theorem getState_of_state? (hs : g.state? id = some s) : g.getState id = .ok s := by
  rw [getState, hs]

theorem state?_of_getState (h : g.getState id = .ok s) : g.state? id = some s := by
  unfold getState at h
  split at h
  · exact Except.ok.inj h ▸ ‹_›
  · cases h

end Graph

def EnteredRule.call (e : EnteredRule) : RuleIndex × Int :=
  (e.rule, e.precedence)

namespace Path

def spot (c : Path) : Spot :=
  ⟨c.state, c.precedence, c.stack⟩

def along (c : Path) : Transition → Option Path
  | .epsilon target => some { c with state := target }
  | .action target _ _ => some { c with state := target, guarded := false }
  | .call target rule follow level => some (c.enter target rule follow level)
  | .predicate target _ _ => some { c with state := target }
  | .precedence target _ => some { c with state := target }
  | .atom _ _ => none
  | .set _ _ => none
  | .wildcard _ => none

/-- Paths of one alternative at one spot have one key. -/
theorem key_eq_of_spot {c y : Path} (halt : c.alt = y.alt) (hspot : c.spot = y.spot) :
    c.key = y.key := by
  simp only [spot, Spot.mk.injEq] at hspot
  rw [key, key, halt, hspot.1, hspot.2.1, hspot.2.2]

theorem alt_eq_of_key {c y : Path} (h : c.key = y.key) : c.alt = y.alt ∧ c.spot = y.spot := by
  simp only [key, PathKey.mk.injEq, StackedState.of_inj] at h
  exact ⟨h.1, by simp [spot, h.2.1, h.2.2.1, h.2.2.2]⟩

/-- Whether nothing but a predicate can block the transition for a path. -/
def Passes (c : Path) (t : Transition) : Prop :=
  c.spot.admits t = true ∧ ∀ target rule follow level, t = .call target rule follow level →
    c.isInside rule level = false

theorem spot_along (c : Path) (t : Transition) : c.spot.along t = (c.along t).map spot := by
  cases t <;> rfl

theorem alt_along {c y : Path} {t : Transition} (h : c.along t = some y) :
    y.alt = c.alt ∧ y.leftRule = c.leftRule := by
  cases t with
  | atom | set | wildcard => cases h
  | _ =>
    obtain rfl := Option.some.inj h
    exact ⟨rfl, rfl⟩

/-- A transition is blocked or takes the path along. -/
theorem returns_follow (n : Network) (host : Option Hooks) (c : Path) (t : Transition) :
    Asking.Returns (c.follow n host t) fun r =>
      (∀ y ∈ r, c.along t = some y ∧ c.Passes t) ∧
        (t.Permitted n host → c.Passes t → r = c.along t) := by
  have hpure {r : Option Path} (hr : (∀ y ∈ r, c.along t = some y ∧ c.Passes t) ∧
      (t.Permitted n host → c.Passes t → r = c.along t)) :
      Asking.Returns (pure r) fun r => (∀ y ∈ r, c.along t = some y ∧ c.Passes t) ∧
        (t.Permitted n host → c.Passes t → r = c.along t) := Outcome.ofAsking.returns_pure hr
  cases t with
  | epsilon | action => exact hpure (by simp [along, Passes, Spot.admits])
  | atom | set | wildcard => exact hpure (by simp [along])
  | call target rule follow level =>
    refine hpure ?_
    split
    · rename_i hinside
      refine ⟨by simp, fun _ hpasses => ?_⟩
      simp [hpasses.2 _ _ _ _ rfl] at hinside
    · rename_i houtside
      have hpasses : c.Passes (.call target rule follow level) := by
        refine ⟨rfl, ?_⟩
        rintro _ _ _ _ ⟨⟩
        simpa using houtside
      simp [along, hpasses]
  | precedence target level =>
    refine hpure ?_
    split
    · rename_i hlevel
      simp [along, Passes, Spot.admits, spot, hlevel]
    · rename_i hlevel
      refine ⟨by simp, fun _ hpasses => ?_⟩
      have hadmits := hpasses.1
      simp [Spot.admits, spot, hlevel] at hadmits
  | predicate target rule index =>
    cases host with
    | none => exact hpure (by simp [along, Passes, Spot.admits])
    | some h =>
      simp only [follow]
      split
      · exact hpure (by simp [along, Passes, Spot.admits])
      · intro calls
        refine ⟨_, _, rfl, ?_⟩
        dsimp only
        split
        · simp [along, Passes, Spot.admits]
        · rename_i hfails
          refine ⟨by simp, fun hpermits _ => ?_⟩
          exact absurd (hpermits h rfl _ _ _ rfl calls) hfails

/-- The paths that leave a state go along its transitions. -/
theorem returns_followAll (n : Network) (host : Option Hooks) (c : Path) (ts : List Transition) :
    Asking.Returns (c.followAll n host ts) fun found => found.length ≤ ts.length ∧
      (∀ y ∈ found, ∃ t ∈ ts, c.along t = some y ∧ c.Passes t) ∧
        ∀ t ∈ ts, t.Permitted n host → c.Passes t → ∀ y, c.along t = some y → y ∈ found := by
  rw [followAll, List.foldlM_reverse]
  induction ts with
  | nil => exact Outcome.ofAsking.returns_pure (by simp)
  | cons t ts ih =>
    rw [List.foldrM_cons]
    refine Outcome.ofAsking.returns_bind ih fun found hfound => ?_
    obtain ⟨hlength, hsound, hcomplete⟩ := hfound
    refine Outcome.ofAsking.returns_bind (returns_follow n host c t) fun r hr => ?_
    obtain ⟨hrsound, hrcomplete⟩ := hr
    cases r with
    | none =>
      refine Outcome.ofAsking.returns_pure ⟨Nat.le_succ_of_le hlength, ?_, ?_⟩
      · intro y hy
        obtain ⟨t', ht', hy⟩ := hsound y hy
        exact ⟨t', List.mem_cons_of_mem _ ht', hy⟩
      · intro t' ht' hpermits hpasses y hy
        rcases List.mem_cons.mp ht' with rfl | ht'
        · rw [← hrcomplete hpermits hpasses] at hy
          cases hy
        · exact hcomplete t' ht' hpermits hpasses y hy
    | some z =>
      refine Outcome.ofAsking.returns_pure ⟨Nat.succ_le_succ hlength, ?_, ?_⟩
      · intro y hy
        rcases List.mem_cons.mp hy with rfl | hy
        · exact ⟨t, List.mem_cons_self, hrsound _ rfl⟩
        · obtain ⟨t', ht', hy⟩ := hsound y hy
          exact ⟨t', List.mem_cons_of_mem _ ht', hy⟩
      · intro t' ht' hpermits hpasses y hy
        rcases List.mem_cons.mp ht' with rfl | ht'
        · rw [← hrcomplete hpermits hpasses, Option.some.injEq] at hy
          exact hy ▸ List.mem_cons_self
        · exact List.mem_cons_of_mem _ (hcomplete t' ht' hpermits hpasses y hy)

/-- The precedences that paths which start from some paths can have. -/
def precedencesOf (n : Network) (starts : List Path) : List Int :=
  n.calls.map (fun call => call.2.2.2) ++
    starts.flatMap fun o => o.precedence :: o.stack.map Frame.precedence

/-- The frames that paths which start from some paths can push. -/
def framesOf (n : Network) (starts : List Path) : List Frame :=
  n.calls.flatMap fun call => (precedencesOf n starts).map fun p => ⟨call.2.2.1, p⟩

/-- The callers that paths which start from some paths can go back to. -/
def basesOf (starts : List Path) : List CallStack :=
  starts.flatMap fun o => o.stack.tails

/-- Entered rules lie one below the other from a depth on. -/
def Nested : List EnteredRule → Nat → Prop
  | [], _ => True
  | e :: rest, depth => e.depth = depth ∧ Nested rest (depth - 1)

theorem Nested.depth_le {entered : List EnteredRule} {depth : Nat} (h : Nested entered depth)
    {e : EnteredRule} (he : e ∈ entered) : e.depth ≤ depth := by
  induction entered generalizing depth with
  | nil => cases he
  | cons first rest ih =>
    rcases List.mem_cons.mp he with rfl | he
    · exact Nat.le_of_eq h.1
    · exact Nat.le_trans (ih h.2 he) (Nat.sub_le _ _)

/-- Going back leaves the innermost rule. -/
theorem Nested.filter {entered : List EnteredRule} {depth : Nat}
    (h : Nested entered (depth + 1)) :
    entered.filter (fun e => e.depth ≤ depth) = entered.tail := by
  cases entered with
  | nil => rfl
  | cons e rest =>
    have hrest : ∀ e' ∈ rest, e'.depth ≤ depth := fun e' he' => h.2.depth_le he'
    rw [List.filter_cons_of_neg (by simp [h.1]), List.tail_cons,
      List.filter_eq_self.mpr (by simpa using hrest)]

/-- What bounds the paths that come from some paths without reading a token. -/
structure Bounded (n : Network) (starts : List Path) (c : Path) : Prop where
  alt : ∃ o ∈ starts, o.alt = c.alt
  states : ∀ id ∈ c.state :: c.stack.returnStates, id < n.states.size
  precedence : c.precedence ∈ precedencesOf n starts
  layers : ∃ top base, c.stack = top ++ base ∧ base ∈ basesOf starts ∧
    top.length = c.entered.length ∧ top ⊆ framesOf n starts
  nested : Nested c.entered c.stack.length
  /-- No rule is open twice with one precedence. -/
  once : (c.entered.map EnteredRule.call).Nodup
  called : c.entered.map EnteredRule.call ⊆ n.calls.map fun call => (call.2.1, call.2.2.2)

/-- A path from which a closure can start. -/
structure Fresh (n : Network) (c : Path) : Prop where
  states : ∀ id ∈ c.state :: c.stack.returnStates, id < n.states.size
  entered : c.entered = []

theorem successors_eq {n : Network} {host : Option Hooks} {outer : Nat} {c : Path} {s : State}
    (hs : n.state? c.state = some s) : c.successors n host outer =
      if s.isStop then pure (c.leaveRule outer) else c.followAll n host s.transitions := by
  rw [successors, Graph.getState_of_state? hs]
  rfl

theorem isInside_eq_false {c : Path} {rule : RuleIndex} {level : Int} :
    c.isInside rule level = false ↔ (rule, level) ∉ c.entered.map EnteredRule.call := by
  rw [isInside, List.any_eq_false, List.mem_map, not_exists]
  refine forall_congr' fun e => ?_
  rw [not_and]
  refine imp_congr_right fun _ => not_congr ?_
  rw [Bool.and_eq_true, beq_iff_eq, beq_iff_eq, EnteredRule.call, Prod.mk.injEq]

theorem Fresh.bounded {n : Network} {starts : List Path} {c : Path} (h : c.Fresh n)
    (hc : c ∈ starts) : c.Bounded n starts where
  alt := ⟨c, hc, rfl⟩
  states := h.states
  precedence :=
    List.mem_append_right _ (List.mem_flatMap.mpr ⟨c, hc, List.mem_cons_self⟩)
  layers := ⟨[], c.stack, rfl,
    List.mem_flatMap.mpr ⟨c, hc, (List.mem_tails _ _).mpr List.suffix_rfl⟩,
    by rw [h.entered]; rfl, List.nil_subset _⟩
  nested := by
    rw [h.entered]
    trivial
  once := by
    rw [h.entered]
    exact List.nodup_nil
  called := by
    rw [h.entered]
    exact List.nil_subset _

/-- A path that a closure comes to is one from which a closure can start. -/
theorem Bounded.restart {n : Network} {origins starts : List Path} {c : Path}
    (h : c.Bounded n origins) (hc : c ∈ starts) : c.Bounded n starts where
  alt := ⟨c, hc, rfl⟩
  states := h.states
  precedence :=
    List.mem_append_right _ (List.mem_flatMap.mpr ⟨c, hc, List.mem_cons_self⟩)
  layers := by
    obtain ⟨top, base, hstack, _, hlength, hframes⟩ := h.layers
    refine ⟨top, base, hstack, ?_, hlength, fun frame hframe => ?_⟩
    · refine List.mem_flatMap.mpr ⟨c, hc, (List.mem_tails _ _).mpr ?_⟩
      exact ⟨top, hstack.symm⟩
    · obtain ⟨call, hcall, hmem⟩ := List.mem_flatMap.mp (hframes hframe)
      obtain ⟨_, _, rfl⟩ := List.mem_map.mp hmem
      refine List.mem_flatMap.mpr ⟨call, hcall, List.mem_map.mpr ⟨_, ?_, rfl⟩⟩
      refine List.mem_append_right _ (List.mem_flatMap.mpr ⟨c, hc, List.mem_cons_of_mem _ ?_⟩)
      rw [hstack]
      exact List.mem_map.mpr ⟨_, List.mem_append_left _ hframe, rfl⟩
  nested := h.nested
  once := h.once
  called := h.called

end Path

theorem Network.Orderly.sealed {n : Network} (horder : n.Orderly) : n.toGraph.Sealed where
  target_state {id s t} hs ht hsilent := by
    cases hcall : t.call? with
    | none =>
      obtain ⟨s', hs', _⟩ := horder.target_state hs ht hsilent hcall
      exact Graph.lt_of_state? hs'
    | some call =>
      cases t with
      | call =>
        obtain ⟨s', hs', _⟩ := horder.start_state hs ht
        exact Graph.lt_of_state? hs'
      | _ => cases hcall
  follow_state hs ht := by
    obtain ⟨s', hs', _⟩ := horder.follow_state hs ht
    exact Graph.lt_of_state? hs'

namespace Path.Bounded

variable {n : Network} {outer : Nat} {starts : List Path} {c y : Path} {s : State} {t : Transition}

/-- A path stays bounded on a transition that it is not kept from. -/
theorem along (hc : c.Bounded n starts) (hsealed : n.toGraph.Sealed)
    (hs : n.state? c.state = some s)
    (ht : t ∈ s.transitions) (hy : c.along t = some y) (hpasses : c.Passes t) :
    y.Bounded n starts := by
  obtain ⟨hstate, hreturns⟩ := List.forall_mem_cons.mp hc.states
  have hpass (guarded : Bool) (hsilent : t.isEpsilon = true)
      (hy : y = { c with state := t.target, guarded }) : y.Bounded n starts := by
    subst hy
    have htarget := hsealed.target_state hs ht hsilent
    exact ⟨hc.alt, List.forall_mem_cons.mpr ⟨htarget, hreturns⟩, hc.precedence, hc.layers,
      hc.nested, hc.once, hc.called⟩
  cases t with
  | epsilon | predicate | precedence =>
    obtain rfl := Option.some.inj hy
    exact hpass c.guarded rfl rfl
  | action =>
    obtain rfl := Option.some.inj hy
    exact hpass false rfl rfl
  | call start rule follow level =>
    obtain rfl := Option.some.inj hy
    obtain ⟨top, base, hstack, hbase, hlength, hframes⟩ := hc.layers
    have hmem := Graph.mem_calls hs ht
    refine ⟨hc.alt, ?_, ?_, ⟨⟨follow, c.precedence⟩ :: top, base, ?_, hbase, ?_, ?_⟩, ?_, ?_, ?_⟩
    · refine List.forall_mem_cons.mpr ⟨hsealed.target_state hs ht rfl, ?_⟩
      exact List.forall_mem_cons.mpr ⟨hsealed.follow_state hs ht, hreturns⟩
    · exact List.mem_append_left _ (List.mem_map.mpr ⟨_, hmem, rfl⟩)
    · simp [enter, hstack]
    · simp [enter, hlength]
    · refine List.cons_subset.mpr ⟨?_, hframes⟩
      exact List.mem_flatMap.mpr ⟨_, hmem, List.mem_map.mpr ⟨_, hc.precedence, rfl⟩⟩
    · exact ⟨rfl, hc.nested⟩
    · exact List.nodup_cons.mpr ⟨isInside_eq_false.mp (hpasses.2 _ _ _ _ rfl), hc.once⟩
    · exact List.cons_subset.mpr ⟨List.mem_map.mpr ⟨_, hmem, rfl⟩, hc.called⟩
  | atom | set | wildcard => cases hy

/-- Going back leaves the innermost rule that the path is inside of. -/
theorem entered_leave (hc : c.Bounded n starts) {frame : Frame} {stack : CallStack}
    (hstack : c.stack = frame :: stack) : (c.leave outer frame stack).entered = c.entered.tail := by
  have hnested := hc.nested
  rw [hstack, List.length_cons] at hnested
  exact hnested.filter

theorem leave (hc : c.Bounded n starts) {frame : Frame} {stack : CallStack}
    (hstack : c.stack = frame :: stack) : (c.leave outer frame stack).Bounded n starts := by
  obtain ⟨top, base, heq, hbase, hlength, hframes⟩ := hc.layers
  have hnested := hc.nested
  have hentered : (c.leave outer frame stack).entered = c.entered.tail := hc.entered_leave hstack
  have hstates : ∀ id ∈ frame.returnState :: stack.returnStates, id < n.states.size := by
    have hreturns := (List.forall_mem_cons.mp hc.states).2
    rwa [hstack] at hreturns
  have honce : ((c.leave outer frame stack).entered.map EnteredRule.call).Nodup := by
    rw [hentered, List.map_tail]
    exact hc.once.tail
  have hcalled : (c.leave outer frame stack).entered.map EnteredRule.call ⊆
      n.calls.map fun call => (call.2.1, call.2.2.2) := by
    rw [hentered, List.map_tail]
    exact List.Subset.trans (List.tail_subset _) hc.called
  rw [hstack] at heq hnested
  cases hin : c.entered with
  | nil =>
    -- The path leaves the rule in which it began.
    rw [hin] at hlength hentered
    obtain rfl := List.eq_nil_of_length_eq_zero hlength
    obtain rfl : frame :: stack = base := heq
    obtain ⟨o, ho, htail⟩ := List.mem_flatMap.mp hbase
    have hsuffix := (List.mem_tails _ _).mp htail
    refine ⟨hc.alt, hstates, ?_, ⟨[], stack, rfl, ?_, ?_, List.nil_subset _⟩, ?_, honce, hcalled⟩
    · refine List.mem_append_right _ (List.mem_flatMap.mpr ⟨o, ho, List.mem_cons_of_mem _ ?_⟩)
      exact List.mem_map_of_mem (hsuffix.subset List.mem_cons_self)
    · refine List.mem_flatMap.mpr ⟨o, ho, (List.mem_tails _ _).mpr ?_⟩
      exact (List.suffix_cons frame stack).trans hsuffix
    · rw [hentered]
      rfl
    · rw [hentered]
      trivial
  | cons e rest =>
    rw [hin] at hlength hentered hnested
    obtain ⟨f, top', rfl⟩ := List.exists_cons_of_length_eq_add_one hlength
    obtain ⟨rfl, rfl⟩ := List.cons.inj heq
    obtain ⟨hframe, hrest⟩ := List.cons_subset.mp hframes
    refine ⟨hc.alt, hstates, ?_, ⟨top', base, rfl, hbase, ?_, hrest⟩, ?_, honce, hcalled⟩
    · obtain ⟨_, _, hframe⟩ := List.mem_flatMap.mp hframe
      obtain ⟨p, hp, rfl⟩ := List.mem_map.mp hframe
      exact hp
    · rw [hentered]
      simpa using hlength
    · rw [hentered]
      exact hnested.2

/-- No more rules are open than the network has calls. -/
theorem length_entered_le (hc : c.Bounded n starts) : c.entered.length ≤ n.calls.length := by
  have hsub := (List.subperm_of_subset hc.once hc.called).length_le
  rwa [List.length_map, List.length_map] at hsub

end Path.Bounded

namespace Path

variable {n : Network} {outer : Nat} {starts : List Path} {c : Path}

/-- The keys of the paths that start from some paths. -/
def pathKeys (n : Network) (starts : List Path) : List PathKey :=
  (starts.map Path.alt).flatMap fun alt => (precedencesOf n starts).flatMap fun p =>
    (List.range n.states.size).flatMap fun state =>
      (stacksOver (framesOf n starts) n.calls.length (basesOf starts)).map fun stack =>
        ⟨alt, p, .of state stack⟩

theorem Bounded.key_mem (hc : c.Bounded n starts) : c.key ∈ pathKeys n starts := by
  obtain ⟨o, ho, halt⟩ := hc.alt
  obtain ⟨top, base, hstack, hbase, hlength, hframes⟩ := hc.layers
  refine List.mem_flatMap.mpr ⟨c.alt, List.mem_map.mpr ⟨o, ho, halt⟩, ?_⟩
  refine List.mem_flatMap.mpr ⟨c.precedence, hc.precedence, ?_⟩
  refine List.mem_flatMap.mpr ⟨c.state, List.mem_range.mpr (hc.states _ List.mem_cons_self), ?_⟩
  refine List.mem_map.mpr ⟨c.stack, ?_, rfl⟩
  rw [hstack]
  refine mem_stacksOver hframes ?_ hbase
  rw [hlength]
  exact hc.length_entered_le

theorem length_pathKeys_le (n : Network) (starts : List Path) :
    starts.length + (pathKeys n starts).length * (n.transitionCount + 1) ≤
      Path.closureBound n starts := by
  have hprecedences : (precedencesOf n starts).length =
      n.calls.length + starts.foldl (fun depth c => depth + (c.stack.length + 1)) 0 := by
    rw [foldl_add_eq_length (g := fun c => c.precedence :: c.stack.map Frame.precedence) (by simp),
      Nat.zero_add, Path.precedencesOf, List.length_append, List.length_map]
  have hframes : (framesOf n starts).length =
      n.calls.length * (precedencesOf n starts).length :=
    length_flatMap_of_const fun _ => List.length_map _
  have hbases : (basesOf starts).length =
      starts.foldl (fun depth c => depth + (c.stack.length + 1)) 0 := by
    rw [foldl_add_eq_length (g := fun c => c.stack.tails) (by simp), Nat.zero_add, basesOf]
  have hstacks := length_stacksOver_le (framesOf n starts) n.calls.length
    (basesOf starts)
  have hkeys : (pathKeys n starts).length = starts.length * ((precedencesOf n starts).length *
      (n.states.size *
        (stacksOver (framesOf n starts) n.calls.length (basesOf starts)).length)) := by
    rw [pathKeys, length_flatMap_of_const, List.length_map]
    intro _
    rw [length_flatMap_of_const]
    intro _
    rw [length_flatMap_of_const, List.length_range]
    exact fun _ => List.length_map _
  rw [hkeys, Path.closureBound]
  rw [← hprecedences, ← hframes, ← hbases, Graph.stackBound]
  refine Nat.add_le_add_left (Nat.mul_le_mul_right _ (Nat.mul_le_mul_left _ ?_)) _
  rw [Nat.mul_comm (precedencesOf n starts).length]
  refine Nat.mul_le_mul_right _ (Nat.mul_le_mul (Nat.le_add_right _ _) (hstacks.trans ?_))
  exact Nat.mul_le_mul_right _ (Nat.le_succ _)

/-- A path has few successors, and they are bounded as it is. -/
theorem Bounded.returns_successors (hc : c.Bounded n starts) (hsealed : n.toGraph.Sealed)
    (host : Option Hooks) : Asking.Returns (c.successors n host outer) fun found =>
      found.length ≤ n.transitionCount + 1 ∧ ∀ y ∈ found, y.Bounded n starts := by
  obtain ⟨s, hs⟩ := Graph.exists_state (hc.states _ List.mem_cons_self)
  rw [successors_eq hs]
  by_cases hstop : s.isStop = true
  · rw [if_pos hstop, leaveRule]
    cases hstack : c.stack with
    | nil => exact Outcome.ofAsking.returns_pure ⟨Nat.zero_le _, by simp⟩
    | cons frame stack =>
      refine Outcome.ofAsking.returns_pure ⟨Nat.succ_le_succ (Nat.zero_le _), ?_⟩
      exact List.forall_mem_singleton.mpr (hc.leave hstack)
  · rw [if_neg hstop]
    refine Outcome.ofAsking.returns_mono (fun found hfound => ?_)
      (returns_followAll n host c s.transitions)
    obtain ⟨hlength, hsound, _⟩ := hfound
    constructor
    · have hle := Graph.length_transitions_le hs
      omega
    · intro y hy
      obtain ⟨t, ht, hy, hpasses⟩ := hsound y hy
      exact hc.along hsealed hs ht hy hpasses

end Path

end AdaptiveLL
