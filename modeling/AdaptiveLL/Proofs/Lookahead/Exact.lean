/-
What look-ahead finds can be read.

The walk goes only where the network can go without reading a token.  So the set of
a state has exactly the types that can be read next before the invocation of its
rule ends, and the mark for the end of the rule exactly if the invocation can end.
Outward from there, what is expected under a stack is exactly what can be read next
under it.
-/
import AdaptiveLL.Proofs.Lookahead
import AdaptiveLL.Proofs.Outermost

namespace AdaptiveLL

/-- Some transition at the position accepts the type. -/
def Network.ReadsAt (n : Network) (t : TokenType) (y : Position) : Prop :=
  ∃ s tr, n.state? y.state = some s ∧ s.isStop = false ∧ tr ∈ s.transitions ∧
    tr.accepts n.maxType t = true

/-- The position is at the end of a rule that has no caller. -/
def Network.EndsAt (n : Network) (y : Position) : Prop :=
  n.isStop y.state = true ∧ y.returns = []

/-- No transition accepts the mark for the end of a rule. -/
def Network.ReadsTokens (n : Network) : Prop :=
  ∀ (id : Nat) s, n.state? id = some s → ∀ tr ∈ s.transitions, tr.accepts n.maxType .epsilon = false

section Walk

variable {g : Graph} {x y : LookVisit} {atEnd t : TokenType} {state : StateId} {stack : CallStack}

/-- The walk goes on by moves of the network. -/
theorem Graph.move_of_lookNext (h : y ∈ g.lookNext x) : Move g x.position y.position := by
  unfold lookNext at h
  split at h
  · cases h
  · rename_i s hs
    by_cases hstop : s.isStop = true
    · rw [if_pos hstop] at h
      split at h
      · cases h
      · rename_i frame below hstack
        rw [List.mem_singleton.mp h]
        apply Move.back hs hstop
        rw [LookVisit.position, hstack]
        rfl
    · rw [if_neg hstop] at h
      obtain ⟨tr, htr, hy⟩ := List.mem_filterMap.mp h
      have hrun : s.isStop = false := by simpa using hstop
      cases tr with
      | epsilon | predicate | precedence | action =>
        rw [← Option.some.inj hy]
        exact .pass (x := x.position) hs hrun htr rfl rfl
      | call =>
        rw [LookVisit.along] at hy
        split at hy
        · cases hy
        · rw [← Option.some.inj hy]
          exact .call (x := x.position) hs hrun htr rfl
      | atom | set | wildcard => cases hy

/-- All that the walk takes up, the network can come to. -/
theorem Graph.moves_of_lookVisits : ∀ x ∈ g.lookVisits state stack,
    Moves g ⟨state, stack.returnStates⟩ x.position := by
  apply forall_lookVisits
  · exact .refl
  · intro x hx y hy
    exact hx.tail (move_of_lookNext hy)

/-- What the walk notes at a visit can be read there, or stands for the end. -/
theorem Network.of_contains_lookTypes {n : Network} (h : (n.lookTypes atEnd x).contains t = true) :
    n.ReadsAt t x.position ∨ t = atEnd ∧ n.EndsAt x.position := by
  unfold Graph.lookTypes at h
  cases hs : n.state? x.state with
  | none =>
    rw [hs] at h
    exact absurd h (by simp)
  | some s =>
    rw [hs] at h
    dsimp only at h
    by_cases hstop : s.isStop = true
    · right
      rw [if_pos hstop] at h
      by_cases hstack : x.stack.isEmpty = true
      · rw [if_pos hstack] at h
        have hreturns : x.stack.returnStates = [] := by
          rw [List.isEmpty_iff.mp hstack]
          rfl
        exact ⟨TypeSet.contains_single.mp h, Graph.isStop_iff.mpr ⟨s, hs, hstop⟩, hreturns⟩
      · rw [if_neg hstack] at h
        exact absurd h (by simp)
    · left
      rw [if_neg hstop, TypeSet.contains_foldl_union (f := fun types => types)] at h
      obtain ⟨types, htypes, hcontains⟩ := h.resolve_left (by simp)
      obtain ⟨tr, htr, hlabel⟩ := List.mem_filterMap.mp htypes
      exact ⟨s, tr, hs, by simpa using hstop, htr, tr.accepts_of_label hlabel hcontains⟩

end Walk

namespace Network

variable {n : Network} {t : TokenType} {following expected : TypeSet} {returns : List StateId}

/-- Nothing is acceptable outward unless the rule can end. -/
theorem contains_epsilon_of_expectsOutward (h : n.expectsOutward t following returns = true) :
    following.contains .epsilon = true := by
  cases returns with
  | nil => exact ((Bool.and_eq_true _ _).mp h).1
  | cons =>
    rw [expectsOutward] at h
    split at h
    · assumption
    · cases h

/-- Collecting the acceptable types collects what is acceptable. -/
theorem contains_expectedOutward (ht : t ≠ .epsilon) :
    (n.expectedOutward following expected returns).contains t = true ↔
      expected.contains t = true ∨ n.expectsOutward t following returns = true := by
  induction returns generalizing following expected with
  | nil =>
    rw [expectedOutward, expectsOutward]
    by_cases hepsilon : following.contains .epsilon = true
    · simp [hepsilon, TypeSet.contains_add, or_comm]
    · simp [hepsilon]
  | cons ret rest ih =>
    rw [expectedOutward, expectsOutward]
    by_cases hepsilon : following.contains .epsilon = true
    · rw [if_pos hepsilon, if_pos hepsilon, ih, TypeSet.contains_erase, TypeSet.contains_union]
      simp [ht, or_assoc]
    · simp [hepsilon]

/-- The mark for the end of a rule is not collected. -/
theorem not_contains_expectedOutward (h : ¬expected.contains .epsilon = true) :
    ¬(n.expectedOutward following expected returns).contains .epsilon = true := by
  induction returns generalizing following expected with
  | nil =>
    rw [expectedOutward]
    split
    · rw [TypeSet.contains_add, not_or]
      exact ⟨h, by decide⟩
    · exact h
  | cons ret rest ih =>
    rw [expectedOutward]
    split
    · apply ih
      rw [TypeSet.contains_erase]
      exact fun herased => herased.2 rfl
    · exact h

/-- What is acceptable is acceptable within the rule or outward. -/
theorem expects_iff_or {id : Nat} {stack : CallStack} : n.expects id stack t = true ↔
    (n.next id).contains t = true ∨
      n.expectsOutward t (n.next id) stack.returnStates = true := by
  rw [expects, Bool.or_eq_true, Bool.and_eq_true]
  exact or_congr_right (and_iff_right_of_imp contains_epsilon_of_expectsOutward)

/-- Collecting the acceptable types finds what the test for one type accepts. -/
theorem contains_expected_iff_expects {id : Nat} {stack : CallStack} (ht : t ≠ .epsilon) :
    (n.expected id stack).contains t = true ↔ n.expects id stack t = true := by
  rw [expects_iff_or, expected]
  by_cases hends : (n.next id).contains .epsilon = true
  · rw [if_pos hends, contains_expectedOutward ht, TypeSet.contains_erase]
    exact or_congr_left (and_iff_left ht)
  · rw [if_neg hends]
    have hout : ¬n.expectsOutward t (n.next id) stack.returnStates = true :=
      fun h => hends (contains_epsilon_of_expectsOutward h)
    exact (or_iff_left hout).symm

end Network

namespace Network.Orderly

variable {n : Network} {id : Nat} {t : TokenType}

/-- The set of a state has the types that can be read next before its rule ends. -/
theorem contains_next_iff (horder : n.Orderly) (hid : id < n.states.size) (ht : t ≠ .epsilon) :
    (n.next id).contains t = true ↔ ∃ y, Moves n.toGraph ⟨id, []⟩ y ∧ n.ReadsAt t y := by
  constructor
  · intro h
    rw [horder.next_eq id hid, Graph.lookInRule, Graph.contains_lookFrom] at h
    obtain ⟨x, hx, hcontains⟩ := h
    rcases of_contains_lookTypes hcontains with hreads | ⟨hend, _⟩
    · exact ⟨x.position, Graph.moves_of_lookVisits x hx, hreads⟩
    · exact absurd hend ht
  · rintro ⟨y, hmoves, s, tr, hs, hrun, htr, haccepts⟩
    exact horder.contains_next hid hmoves hs hrun htr haccepts

/-- The set of a state says whether its rule can end. -/
theorem contains_next_epsilon_iff (horder : n.Orderly) (htokens : n.ReadsTokens)
    (hid : id < n.states.size) :
    (n.next id).contains .epsilon = true ↔ ∃ y, Moves n.toGraph ⟨id, []⟩ y ∧ n.EndsAt y := by
  constructor
  · intro h
    rw [horder.next_eq id hid, Graph.lookInRule, Graph.contains_lookFrom] at h
    obtain ⟨x, hx, hcontains⟩ := h
    rcases of_contains_lookTypes hcontains with ⟨s, tr, hs, _, htr, haccepts⟩ | ⟨_, hends⟩
    · exact absurd (haccepts.symm.trans (htokens _ s hs tr htr)) (by simp)
    · exact ⟨x.position, Graph.moves_of_lookVisits x hx, hends⟩
  · rintro ⟨⟨stop, returns⟩, hmoves, hstop, hreturns⟩
    obtain rfl : returns = [] := hreturns
    obtain ⟨s, hs, hend⟩ := Graph.isStop_iff.mp hstop
    exact horder.epsilon_next hid hmoves hs hend

/-- Where the outermost rule can end, the end of the input is expected outward. -/
theorem expectsOutward_eof (horder : n.Orderly) {returns : List StateId}
    (hstates : ∀ i ∈ id :: returns, i < n.states.size) {y : Position}
    (hmoves : Moves n.toGraph ⟨id, returns⟩ y) (hends : n.EndsAt y) :
    n.expectsOutward .eof (n.next id) returns = true := by
  obtain ⟨hstop, hnil⟩ := hends
  induction returns generalizing id with
  | nil =>
    obtain ⟨s, hs, hend⟩ := Graph.isStop_iff.mp hstop
    obtain ⟨state, _⟩ := y
    obtain rfl := hnil
    rw [expectsOutward, horder.epsilon_next (hstates id List.mem_cons_self) hmoves hs hend]
    rfl
  | cons ret rest ih =>
    rcases hmoves.split with ⟨top, hreturns, _⟩ |
      ⟨_, _, stop, s, hreturns, hinner, hs, hend, houter⟩
    · rw [hnil] at hreturns
      exact absurd hreturns (by simp)
    · obtain ⟨rfl, rfl⟩ := List.cons.inj hreturns
      have hepsilon := horder.epsilon_next (hstates id List.mem_cons_self) hinner hs hend
      have hrest := fun i hi => hstates i (List.mem_cons_of_mem _ hi)
      rw [expectsOutward, if_pos hepsilon, ih hrest houter, Bool.or_true]

/-- A type is acceptable under some callers exactly if it can be read next, in the
rule or behind it, or is the mark for the end of the input and the outermost rule
can end. -/
theorem expects_iff (horder : n.Orderly) (htokens : n.ReadsTokens) (ht : t ≠ .epsilon)
    {returns : List StateId} (hstates : ∀ i ∈ id :: returns, i < n.states.size) :
    (n.next id).contains t = true ∨ n.expectsOutward t (n.next id) returns = true ↔
      ∃ y, Moves n.toGraph ⟨id, returns⟩ y ∧ (n.ReadsAt t y ∨ t = .eof ∧ n.EndsAt y) := by
  have hid := hstates id List.mem_cons_self
  constructor
  · intro h
    induction returns generalizing id with
    | nil =>
      rcases h with hin | hout
      · obtain ⟨y, hmoves, hreads⟩ := (horder.contains_next_iff hid ht).mp hin
        exact ⟨y, hmoves, .inl hreads⟩
      · obtain ⟨hepsilon, heof⟩ := (Bool.and_eq_true _ _).mp hout
        obtain ⟨y, hmoves, hends⟩ := (horder.contains_next_epsilon_iff htokens hid).mp hepsilon
        exact ⟨y, hmoves, .inr ⟨eq_of_beq heof, hends⟩⟩
    | cons ret rest ih =>
      have hrest := fun i hi => hstates i (List.mem_cons_of_mem _ hi)
      rcases h with hin | hout
      · obtain ⟨y, hmoves, hreads⟩ := (horder.contains_next_iff hid ht).mp hin
        exact ⟨_, hmoves.lift (ret :: rest), .inl hreads⟩
      · have hepsilon := contains_epsilon_of_expectsOutward hout
        obtain ⟨y, hmoves, hstop, hnil⟩ :=
          (horder.contains_next_epsilon_iff htokens hid).mp hepsilon
        obtain ⟨s, hs, hend⟩ := Graph.isStop_iff.mp hstop
        have hleave : Moves n.toGraph ⟨id, ret :: rest⟩ ⟨ret, rest⟩ := by
          refine (hmoves.lift (ret :: rest)).tail (.back (x := ⟨y.state, _⟩) hs hend ?_)
          rw [hnil]
          rfl
        rw [expectsOutward, if_pos hepsilon, Bool.or_eq_true] at hout
        obtain ⟨z, houter, hz⟩ := ih hrest (hrest ret List.mem_cons_self) hout
        exact ⟨z, hleave.trans houter, hz⟩
  · rintro ⟨y, hmoves, ⟨s, tr, hs, hrun, htr, haccepts⟩ | ⟨rfl, hends⟩⟩
    · have hread := horder.contains_or_expectsOutward hstates hmoves hs hrun htr haccepts
      exact hread.imp_right And.right
    · exact .inr (horder.expectsOutward_eof hstates hmoves hends)

/-- The types acceptable at a state under a stack are those that can be read next,
and the mark for the end of the input exactly if the outermost rule can end. -/
theorem contains_expected_iff (horder : n.Orderly) (htokens : n.ReadsTokens) {stack : CallStack}
    (hstates : ∀ i ∈ id :: stack.returnStates, i < n.states.size) :
    (n.expected id stack).contains t = true ↔
      ∃ y, Moves n.toGraph ⟨id, stack.returnStates⟩ y ∧
        (n.ReadsAt t y ∨ t = .eof ∧ n.EndsAt y) := by
  by_cases ht : t = .epsilon
  · subst ht
    constructor
    · intro h
      rw [expected] at h
      split at h
      · refine absurd h (not_contains_expectedOutward ?_)
        rw [TypeSet.contains_erase]
        exact fun herased => herased.2 rfl
      · exact absurd h ‹_›
    · rintro ⟨y, _, ⟨s, tr, hs, _, htr, haccepts⟩ | ⟨heof, _⟩⟩
      · exact absurd (haccepts.symm.trans (htokens _ s hs tr htr)) (by simp)
      · exact absurd heof (by decide)
  · rw [contains_expected_iff_expects ht, expects_iff_or, horder.expects_iff htokens ht hstates]

end Network.Orderly

namespace Network.Runs

variable {n : Network} {v : Vocabulary} {rules : List Rule}

/-- In the network of a grammar, transitions accept tokens only. -/
theorem readsTokens (hruns : n.Runs v rules) : n.ReadsTokens := by
  intro id s hs t ht
  have htoken {e : Expr} {a : TokenType} (h : TokenFor v e a) : a ≠ .epsilon := by
    rintro rfl
    rcases h.isEnd hruns.spelled with ⟨heof, _⟩ | ⟨hfirst, _⟩
    · exact absurd heof (by decide)
    · exact absurd hfirst (by decide)
  obtain ⟨_, _, _, _, _, _, hform⟩ := hruns.laid.form_of_mem hs ht
  generalize s.transitions = ts at hform ht
  cases hform with
  | edge hedge =>
    obtain rfl := List.mem_singleton.mp ht
    cases hedge with
    | token h => simpa [Transition.accepts] using htoken h
    | tokens _ htypes =>
      rw [Transition.accepts, Bool.eq_false_iff, ne_eq, TypeSet.contains_ofList]
      intro hmem
      obtain ⟨e, _, h⟩ := TokenFor.exists_expr htypes hmem
      exact htoken h rfl
    | _ => rfl
  | hop =>
    obtain rfl := List.mem_singleton.mp ht
    rfl
  | block =>
    obtain ⟨_, _, rfl⟩ := List.mem_map.mp ht
    rfl
  | loop => rcases List.mem_pair.mp ht with rfl | rfl <;> rfl

/-- Where the invocation in which a way begins can end, its rule stops. -/
theorem eq_stop_of_moves (hruns : n.Runs v rules) {id : Nat} {s : State} {span : RuleSpan}
    (hs : n.state? id = some s) (hspan : n.rule? s.rule = some span) {y : Position}
    (hmoves : Moves n.toGraph ⟨id, []⟩ y) (hends : n.EndsAt y) : y = ⟨span.stop, []⟩ := by
  obtain ⟨q, rfl, hdrifts⟩ := Moves.drifts (p := ⟨id, 0, []⟩) hmoves
  obtain ⟨s', hs', hcalled⟩ := hruns.placed_drifts ⟨s, hs, .outermost⟩ hdrifts
  obtain ⟨hstop, hreturns⟩ := hends
  obtain ⟨s'', hs'', hend⟩ := Graph.isStop_iff.mp hstop
  obtain rfl := Option.some.inj (hs'.symm.trans hs'')
  have hrule : s'.rule = s.rule := hcalled.eq_of_nil (List.map_eq_nil_iff.mp hreturns)
  have hstate : q.state = span.stop := hruns.laid.eq_stop hs' hend (hrule ▸ hspan)
  rw [Spot.position, hstate, show q.stack.returnStates = [] from hreturns]

end Network.Runs

/-- The look-ahead set of a state has exactly the types that can be read next before
the invocation of its rule is left, and the mark for the end of the rule exactly if
the stop state of the rule can be reached with no call pending. -/
theorem Definition.next_exact {d : Definition} {g : Grammar} (hbuild : d.build = .ok g) {id : Nat}
    {s : State} (hs : g.network.state? id = some s) :
    (∀ t, t ≠ .epsilon → ((g.network.next id).contains t = true ↔
      ∃ y, Moves g.network.toGraph ⟨id, []⟩ y ∧ g.network.ReadsAt t y)) ∧
    ∃ span, g.network.rule? s.rule = some span ∧ ((g.network.next id).contains .epsilon = true ↔
      Moves g.network.toGraph ⟨id, []⟩ ⟨span.stop, []⟩) := by
  obtain ⟨rules, _, _, hruns⟩ := Definition.runs_of_build hbuild
  have hid := Graph.lt_of_state? hs
  obtain ⟨_, span, _, _, hlaid, _⟩ := hruns.laid.state_cases hs
  refine ⟨fun t ht => hruns.orderly.contains_next_iff hid ht, span, hlaid.span_eq, ?_⟩
  rw [hruns.orderly.contains_next_epsilon_iff hruns.readsTokens hid]
  constructor
  · rintro ⟨y, hmoves, hends⟩
    rwa [hruns.eq_stop_of_moves hs hlaid.span_eq hmoves hends] at hmoves
  · intro hmoves
    exact ⟨_, hmoves, Graph.isStop_iff.mpr hlaid.stops.state, rfl⟩

/-- A list in brackets, with any token as a separator. -/
def bracketed : Definition where
  name := "Bracketed"
  rules := [
    { name := "s", body := .seq [.rule "items" 0, .literal "]", .eof] },
    { name := "items",
      body := .optional (.seq [.literal "x", .star (.seq [.wildcard, .literal "x"])]) }]

theorem next_exact_bracketed :
    let n := (bracketed.grammar (by decide +kernel)).network
    (∃ y, Moves n.toGraph ⟨0, []⟩ y ∧ n.ReadsAt 1 y) ∧
    (∃ y, Moves n.toGraph ⟨0, []⟩ y ∧ n.ReadsAt 2 y) ∧
      Moves n.toGraph ⟨2, []⟩ ⟨3, []⟩ := by
  intro n
  have hbuild := bracketed.build_eq (by decide +kernel)
  obtain ⟨s, hs⟩ : ∃ s, n.state? 0 = some s := Graph.exists_state (by decide +kernel)
  obtain ⟨s', hs'⟩ : ∃ s, n.state? 2 = some s := Graph.exists_state (by decide +kernel)
  obtain ⟨hreads, _⟩ := Definition.next_exact hbuild hs
  obtain ⟨_, span, hspan, hends⟩ := Definition.next_exact hbuild hs'
  refine ⟨(hreads 1 (by decide)).mp (by decide +kernel),
    (hreads 2 (by decide)).mp (by decide +kernel), ?_⟩
  have hstop : span.stop = 3 := by
    have hitems : (n.state? 2).bind (fun s => (n.rule? s.rule).map RuleSpan.stop) = some 3 := by
      decide +kernel
    rw [hs', Option.bind_some, hspan] at hitems
    exact Option.some.inj hitems
  rw [← hstop]
  exact hends.mp (by decide +kernel)

theorem isOk_build_bracketed : bracketed.build.isOk = true := by
  decide +kernel

end AdaptiveLL
