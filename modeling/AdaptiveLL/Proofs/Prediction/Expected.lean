/-
Look-ahead and prediction agree on what can come next.

Before it reads a token a prediction follows every alternative of its decision as
far as it can go.  Where nothing holds it up, the tokens that its paths can then
read are the ones that look-ahead finds acceptable.  Only a token that the state of
the decision reads itself is acceptable and not behind any path, since a prediction
takes no alternative that begins with a token.
-/
import AdaptiveLL.Proofs.Lookahead.Checked
import AdaptiveLL.Proofs.Lookahead.Exact
import AdaptiveLL.Proofs.Prediction.Choice

namespace AdaptiveLL

def Path.reads (n : Network) (t : TokenType) (c : Path) : Bool :=
  (n.state? c.state).any fun s => s.transitions.any (Transition.accepts n.maxType t)

/-- Whether some path reads the type next, or, for the end of the input, has ended
the outermost rule. -/
def Path.someReads (n : Network) (paths : List Path) (t : TokenType) : Bool :=
  paths.any (Path.reads n t) || t == .eof && paths.any fun c => c.stack.isEmpty && c.isAtStop n

section

variable {n : Network} {t : TokenType} {paths : List Path}

/-- Among paths that a closure keeps, some read a type as some position does. -/
theorem Path.someReads_iff (hkeeps : n.toGraph.KeepsRules) :
    Path.someReads n paths t = true ↔
      ∃ c ∈ paths, n.ReadsAt t c.spot.position ∨ t = .eof ∧ n.EndsAt c.spot.position := by
  have hreads (c : Path) : Path.reads n t c = true ↔ n.ReadsAt t c.spot.position := by
    rw [Path.reads, Option.any_eq_true]
    constructor
    · rintro ⟨s, hs, hany⟩
      obtain ⟨tr, htr, haccepts⟩ := List.any_eq_true.mp hany
      refine ⟨s, tr, hs, ?_, htr, haccepts⟩
      rw [Bool.eq_false_iff]
      intro hstop
      rw [hkeeps.stop hs hstop] at htr
      cases htr
    · rintro ⟨s, tr, hs, _, htr, haccepts⟩
      exact ⟨s, hs, List.any_eq_true.mpr ⟨tr, htr, haccepts⟩⟩
  have hends (c : Path) : (c.stack.isEmpty && c.isAtStop n) = true ↔ n.EndsAt c.spot.position := by
    simp [Network.EndsAt, Path.isAtStop, Path.spot, Spot.position, CallStack.returnStates, and_comm]
  simp only [Path.someReads, Bool.or_eq_true, Bool.and_eq_true, List.any_eq_true, hreads,
    beq_iff_eq]
  constructor
  · rintro (⟨c, hc, hread⟩ | ⟨heof, c, hc, hend⟩)
    · exact ⟨c, hc, .inl hread⟩
    · exact ⟨c, hc, .inr ⟨heof, (hends c).mp ((Bool.and_eq_true _ _).mpr hend)⟩⟩
  · rintro ⟨c, hc, hread | ⟨heof, hend⟩⟩
    · exact .inl ⟨c, hc, hread⟩
    · exact .inr ⟨heof, c, hc, (Bool.and_eq_true _ _).mp ((hends c).mpr hend)⟩

theorem Path.live_of_readsAt {p : Spot} (h : n.ReadsAt t p.position) : Path.Live n p := by
  obtain ⟨s, tr, hs, hrun, htr, haccepts⟩ := h
  refine ⟨s, hs, .inr ⟨hrun, ?_⟩⟩
  rw [State.readsNothing, List.all_eq_false]
  exact ⟨tr, htr, by simp [Transition.isEpsilon_of_accepts haccepts]⟩

theorem Path.live_of_endsAt {p : Spot} (h : n.EndsAt p.position) : Path.Live n p := by
  obtain ⟨hstop, hreturns⟩ := h
  obtain ⟨s, hs, hend⟩ := Graph.isStop_iff.mp hstop
  exact ⟨s, hs, .inl ⟨hend, List.map_eq_nil_iff.mp hreturns⟩⟩

end

theorem Graph.Unleveled.admits {g : Graph} (hfree : g.Unleveled) {id : Nat} {s : State}
    (hs : g.state? id = some s) {t : Transition} (ht : t ∈ s.transitions) (p : Spot) :
    p.admits t = true := by
  have hlevel := hfree s (Array.mem_toList_iff.mpr (Array.mem_of_getElem? hs)) t ht
  cases t with
  | precedence => cases hlevel
  | _ => rfl

/-- Without precedences nothing holds a step up. -/
theorem Drift.silent {g : Graph} (hfree : g.Unleveled) {p q : Spot} (h : Drift g p q) :
    Silent g p q := by
  cases h with
  | pass hs hrun ht hq => exact .pass hs hrun ht (hfree.admits hs ht _) hq
  | back hs hstop hstack => exact .back hs hstop hstack

theorem Drifts.silents {g : Graph} (hfree : g.Unleveled) {p q : Spot} (h : Drifts g p q) :
    Silents g p q :=
  Relation.ReflTransGen.mono (fun _ _ => Drift.silent hfree) _ _ h

/-- The paths behind the first steps of the alternatives that read nothing. -/
def Decision.firstPaths (d : Decision) (ts : List Transition) : List Path :=
  ts.zipIdx.filterMap fun x => (d.startPath (x.2 + 1)).along x.1

theorem Decision.mem_firstPaths {d : Decision} {ts : List Transition} {o : Path}
    (ho : o ∈ d.firstPaths ts) : ∃ alt, ∃ t ∈ ts, (d.startPath alt).along t = some o := by
  obtain ⟨x, hx, halong⟩ := List.mem_filterMap.mp ho
  exact ⟨x.2 + 1, x.1, List.mem_of_getElem? (List.mem_zipIdx_iff_getElem?.mp hx), halong⟩

theorem Decision.spot_along {d : Decision} {alt : Nat} {t : Transition} {o : Path}
    (h : (d.startPath alt).along t = some o) : d.spot.along t = some o.spot := by
  have hspot := Path.spot_along (d.startPath alt) t
  rwa [h] at hspot

theorem Decision.exists_firstPath {d : Decision} {ts : List Transition} {t : Transition} {p : Spot}
    (ht : t ∈ ts) (hp : d.spot.along t = some p) : ∃ o ∈ d.firstPaths ts, o.spot = p := by
  obtain ⟨i, hi⟩ := List.mem_iff_getElem?.mp ht
  obtain ⟨o, halong, hspot⟩ := Option.map_eq_some_iff.mp
    ((Path.spot_along (d.startPath (i + 1)) t).symm.trans hp)
  exact ⟨o, List.mem_filterMap.mpr ⟨(t, i), List.mem_zipIdx_iff_getElem?.mpr hi, halong⟩, hspot⟩

namespace Network.Orderly

variable {n : Network} {hooks : Hooks} {d : Decision} {s : State} {t : TokenType}

/-- Where nothing holds it up, every alternative of a decision takes its first step. -/
theorem returns_firstPaths (hfree : n.toGraph.Unleveled) (hpermits : n.Permits (some hooks))
    (hs : n.state? d.state = some s) :
    Asking.Returns (d.firstSteps n hooks s.transitions) fun paths =>
      paths = d.firstPaths s.transitions := by
  refine Outcome.ofAsking.returns_bind (Outcome.ofAsking.returns_mapM
    (Q := fun x r => (d.startPath (x.2 + 1)).along x.1 = r) ?_) fun steps hsteps => ?_
  · rintro ⟨t, i⟩ hx
    have ht := List.mem_of_getElem? (List.mem_zipIdx_iff_getElem?.mp hx)
    refine Outcome.ofAsking.returns_mono (fun r hr => (hr.2 (hpermits _ s hs t ht) ?_).symm)
      (Path.returns_follow n (some hooks) (d.startPath (i + 1)) t)
    exact ⟨hfree.admits hs ht _, fun _ _ _ _ _ => rfl⟩
  · refine Outcome.ofAsking.returns_pure ?_
    have heq : (s.transitions.zipIdx.map fun x => (d.startPath (x.2 + 1)).along x.1) = steps := by
      rw [← List.forall₂_eq_eq_eq, List.forall₂_map_left_iff]
      exact hsteps
    rw [← heq, List.filterMap_map]
    rfl

/-- The paths of a decision before a token is read are at the live places that its
alternatives lead to. -/
theorem returns_start_live (horder : n.Orderly) (hfree : n.toGraph.Unleveled)
    (hpermits : n.Permits (some hooks)) (hs : n.state? d.state = some s) (hrun : s.isStop = false)
    (hstates : ∀ id ∈ d.state :: d.stack.returnStates, id < n.states.size) :
    Asking.Returns (d.start n hooks s.transitions) fun paths =>
      (∀ c ∈ paths, Drifts n.toGraph d.spot c.spot) ∧
        ∀ p q, Drift n.toGraph d.spot p → Drifts n.toGraph p q → Path.Live n q →
          ∃ c ∈ paths, c.spot = q := by
  have hfirst (o : Path) (ho : o ∈ d.firstPaths s.transitions) :
      o.Sound n d.stack.length (d.firstPaths s.transitions) ∧ Drift n.toGraph d.spot o.spot := by
    obtain ⟨alt, t, ht, halong⟩ := Decision.mem_firstPaths ho
    have hstart : (d.startPath alt).Sound n d.stack.length [d.startPath alt] :=
      Path.Fresh.sound ⟨hstates, rfl⟩ List.mem_cons_self
    have hnext := horder.sound_path_along hstart hs hrun ht halong (hfree.admits hs ht _)
    exact ⟨hnext.restart ho, .pass (p := d.spot) hs hrun ht (Decision.spot_along halong)⟩
  refine Outcome.ofAsking.returns_bind (returns_firstPaths hfree hpermits hs) ?_
  rintro _ rfl
  refine Outcome.ofAsking.returns_mono (fun paths hpaths => ?_)
    (horder.returns_closure (some hooks) fun o ho => (hfirst o ho).1)
  obtain ⟨hfound, hcomplete⟩ := hpaths
  refine ⟨fun c hc => ?_, fun p q hp hq hlive => ?_⟩
  · obtain ⟨⟨⟨o, ho, _, hsilents, _⟩, _⟩, _⟩ := hfound c hc
    exact .head (hfirst o ho).2 hsilents.drifts
  · obtain ⟨o, ho, rfl⟩ : ∃ o ∈ d.firstPaths s.transitions, o.spot = p := by
      cases hp with
      | pass hs' _ ht halong =>
        obtain rfl := Option.some.inj (hs.symm.trans hs')
        exact Decision.exists_firstPath ht halong
      | back hs' hstop =>
        obtain rfl := Option.some.inj (hs.symm.trans hs')
        exact absurd (hrun.symm.trans hstop) (by simp)
    obtain ⟨c, hc, _, hspot⟩ := hcomplete hpermits o ho q (hq.silents hfree) hlive
    exact ⟨c, hc, hspot⟩

end Network.Orderly

/-- Look-ahead and prediction agree on what can come next.  Take a checked graph
whose transitions keep to their rules and read tokens only, in which no rule calls
itself before it reads a token and nothing heeds a precedence.  If every predicate
holds, the types acceptable at a decision are those that the paths it starts with
can read, and those that its state reads itself. -/
theorem Graph.expected_iff_start_reads {g : Graph} {maxType : TokenType} {n : Network}
    {d : Decision} {hooks : Hooks} {s : State} (hchecked : g.toNetwork maxType = .ok n)
    (honce : n.toGraph.CallsOnce) (hfree : n.toGraph.Unleveled) (hkeeps : n.toGraph.KeepsRules)
    (htokens : n.ReadsTokens) (hpermits : Permits (some hooks)) (hs : n.state? d.state = some s)
    (hdecision : s.isDecision = true)
    (hstack : ∀ frame ∈ d.stack, ∃ call ∈ n.calls, frame.returnState = call.2.2.1)
    (calls : Array HookCall) :
    ∃ paths calls', (d.start n hooks s.transitions).run calls = (.ok paths, calls') ∧
      ∀ t, (n.expected d.state d.stack).contains t = true ↔
        Path.someReads n paths t = true ∨ ∃ tr ∈ s.transitions, tr.accepts n.maxType t = true := by
  have horder := Graph.orderly_of_toNetwork hchecked hkeeps honce
  have hrun : s.isStop = false := by
    rw [Bool.eq_false_iff]
    intro hstop
    simp [State.isDecision, hkeeps.stop hs hstop] at hdecision
  have hstates : ∀ id ∈ d.state :: d.stack.returnStates, id < n.states.size := by
    refine List.forall_mem_cons.mpr ⟨Graph.lt_of_state? hs, fun id hid => ?_⟩
    obtain ⟨frame, hframe, rfl⟩ := List.mem_map.mp hid
    obtain ⟨⟨start, callee, follow, level⟩, hcall, heq⟩ := hstack frame hframe
    obtain ⟨_, _, hcaller, ht⟩ := Graph.exists_of_mem_calls hcall
    obtain ⟨_, hfollow, _⟩ := horder.follow_state hcaller ht
    rw [heq]
    exact Graph.lt_of_state? hfollow
  obtain ⟨paths, calls', hstart, hsound, hcomplete⟩ :=
    horder.returns_start_live hfree (hpermits.network n) hs hrun hstates calls
  refine ⟨paths, calls', hstart, fun t => ?_⟩
  rw [Path.someReads_iff hkeeps, horder.contains_expected_iff htokens hstates]
  constructor
  · rintro ⟨y, hmoves, hnext⟩
    obtain ⟨q, rfl, hdrifts⟩ := Moves.drifts (p := d.spot) hmoves
    rcases Relation.ReflTransGen.cases_head hdrifts with rfl | ⟨p, hfirst, hrest⟩
    · -- What the state of the decision reads itself is behind no alternative.
      right
      rcases hnext with ⟨s', tr, hs', _, htr, haccepts⟩ | ⟨_, hstop, _⟩
      · obtain rfl := Option.some.inj (hs.symm.trans hs')
        exact ⟨tr, htr, haccepts⟩
      · obtain ⟨s', hs', hend⟩ := Graph.isStop_iff.mp hstop
        obtain rfl := Option.some.inj (hs.symm.trans hs')
        exact absurd (hrun.symm.trans hend) (by simp)
    · left
      have hlive : Path.Live n q := by
        rcases hnext with hreads | ⟨_, hends⟩
        · exact Path.live_of_readsAt hreads
        · exact Path.live_of_endsAt hends
      obtain ⟨c, hc, rfl⟩ := hcomplete p q hfirst hrest hlive
      exact ⟨c, hc, hnext⟩
  · rintro (⟨c, hc, hnext⟩ | ⟨tr, htr, haccepts⟩)
    · exact ⟨c.spot.position, (hsound c hc).moves, hnext⟩
    · exact ⟨d.spot.position, .refl, .inl ⟨s, tr, hs, hrun, htr, haccepts⟩⟩

theorem expected_iff_start_reads_bracketed :
    let n := (bracketed.grammar isOk_build_bracketed).network
    ∃ paths calls, ((⟨14, [⟨5, 0⟩], 0⟩ : Decision).start n .permissive
        [.epsilon 15, .epsilon 22]).run #[] = (.ok paths, calls) ∧
      Path.someReads n paths 1 = true ∧ Path.someReads n paths 2 = true ∧
        ¬Path.someReads n paths .eof = true := by
  intro n
  obtain ⟨_, _, _, hruns⟩ := Definition.runs_of_build (bracketed.build_eq isOk_build_bracketed)
  obtain ⟨s, hs, hshape⟩ : ∃ s, n.state? 14 = some s ∧
      s.shape = ⟨.starLoopEntry false, 1, [.epsilon 15, .epsilon 22]⟩ :=
    Graph.state?_of_shape? (by decide +kernel)
  have hts : s.transitions = [.epsilon 15, .epsilon 22] := congrArg Shape.transitions hshape
  obtain ⟨paths, calls, hrun, hreads⟩ := Graph.expected_iff_start_reads (d := ⟨14, [⟨5, 0⟩], 0⟩)
    hruns.checked hruns.orderly.calls_once (by decide +kernel) hruns.keepsRules hruns.readsTokens
    permits_permissive hs (by rw [State.isDecision, hts]; rfl)
    (by decide +kernel) #[]
  rw [hts] at hrun hreads
  refine ⟨paths, calls, hrun, ?_, ?_, ?_⟩
  · exact ((hreads 1).mp (by decide +kernel)).resolve_right (by decide +kernel)
  · exact ((hreads 2).mp (by decide +kernel)).resolve_right (by decide +kernel)
  · intro heof
    exact absurd ((hreads .eof).mpr (.inl heof)) (by decide +kernel)

/-- Some type is acceptable at a decision and is read by none of its paths, or the
other way round, though no rule calls itself before it reads a token and nothing
heeds a precedence. -/
structure Network.Disagrees (n : Network) (d : Decision) : Prop where
  callsOnce : n.toGraph.CallsOnce
  unleveled : n.toGraph.Unleveled
  differ : ∃ s paths calls t, n.state? d.state = some s ∧ s.isDecision = true ∧
    (d.start n .permissive s.transitions).run #[] = (.ok paths, calls) ∧
      Path.someReads n paths t ≠ (n.expected d.state d.stack).contains t

/-- Whether a type is acceptable at a decision and read by none of its paths, or the
other way round. -/
def Network.differs (n : Network) (d : Decision) (t : TokenType) : Bool :=
  match n.state? d.state with
  | none => false
  | some s =>
    s.isDecision && match (d.start n .permissive s.transitions).run #[] with
      | (.ok paths, _) => Path.someReads n paths t != (n.expected d.state d.stack).contains t
      | (.error _, _) => false

theorem Network.exists_of_differs {n : Network} {d : Decision} {t : TokenType}
    (h : n.differs d t = true) : ∃ s paths calls t, n.state? d.state = some s ∧
      s.isDecision = true ∧ (d.start n .permissive s.transitions).run #[] = (.ok paths, calls) ∧
        Path.someReads n paths t ≠ (n.expected d.state d.stack).contains t := by
  unfold differs at h
  split at h
  · cases h
  · rename_i s hs
    obtain ⟨hdecision, hdiffer⟩ := (Bool.and_eq_true _ _).mp h
    split at hdiffer
    · rename_i paths calls hrun
      exact ⟨s, paths, calls, t, hs, hdecision, hrun, bne_iff_ne.mp hdiffer⟩
    · cases hdiffer

def ownToken : Graph where
  states := #[⟨.ruleStart, 0, [.epsilon 2], none⟩, ⟨.ruleStop, 0, [], none⟩,
    ⟨.basic, 0, [.atom 1 1, .epsilon 3], none⟩, ⟨.basic, 0, [.atom 1 2], none⟩]
  rules := #[⟨"a", 0, 1, false⟩]

/-- A rule is left through the stop state of another, and called once more then. -/
def crossing : Graph where
  states := #[⟨.ruleStart, 0, [.epsilon 6], none⟩, ⟨.ruleStop, 0, [], none⟩,
    ⟨.ruleStart, 1, [.epsilon 5], none⟩, ⟨.ruleStop, 1, [], none⟩,
    ⟨.ruleStart, 2, [.epsilon 5], none⟩, ⟨.ruleStop, 2, [], none⟩,
    ⟨.blockStart, 0, [.epsilon 7, .epsilon 8], none⟩, ⟨.basic, 0, [.call 2 1 9 0], none⟩,
    ⟨.basic, 0, [.atom 1 2], none⟩, ⟨.basic, 0, [.call 2 1 10 0], none⟩,
    ⟨.basic, 0, [.atom 1 1], none⟩]
  rules := #[⟨"s", 0, 1, false⟩, ⟨"a", 2, 3, false⟩, ⟨"b", 4, 5, false⟩]

def readsMark : Graph where
  states := #[⟨.ruleStart, 0, [.epsilon 2], none⟩, ⟨.ruleStop, 0, [], none⟩,
    ⟨.blockStart, 0, [.epsilon 3, .epsilon 4], none⟩, ⟨.basic, 0, [.atom 1 .epsilon], none⟩,
    ⟨.basic, 0, [.atom 1 1], none⟩]
  rules := #[⟨"a", 0, 1, false⟩]

def leavesStop : Graph where
  states := #[⟨.ruleStart, 0, [.epsilon 1], none⟩,
    ⟨.ruleStop, 0, [.epsilon 2, .epsilon 2], none⟩, ⟨.basic, 0, [.atom 1 1], none⟩]
  rules := #[⟨"a", 0, 1, false⟩]

theorem callsOnce_crossing : (crossing.network 2 (by decide +kernel)).toGraph.CallsOnce := by
  intro id id' s s' start start' follow follow' callee level level' top hs ht hmoves hs' _ ht'
  have hleads : (crossing.network 2 (by decide +kernel)).LeadsOn 1 2 [.epsilon 5] :=
    ⟨.ruleStart, nofun, by decide +kernel⟩
  have hstops : (crossing.network 2 (by decide +kernel)).Stops 2 5 :=
    show _ = _ by decide +kernel
  have hstart : start = 2 := by
    have hall : ∀ call ∈ (crossing.network 2 (by decide +kernel)).calls, call.1 = 2 := by
      decide +kernel
    exact hall _ (Graph.mem_calls hs ht)
  subst hstart
  -- The rule that is called goes to the stop state of the other and ends.
  obtain ⟨q, hq, hdrifts⟩ := Moves.drifts (p := ⟨2, 0, []⟩) hmoves
  have hplaces : q = ⟨2, 0, []⟩ ∨ q = ⟨5, 0, []⟩ := by
    clear hq
    induction hdrifts with
    | refl => exact .inl rfl
    | tail _ hstep ih =>
      rcases ih with rfl | rfl
      · obtain ⟨t, ht, hq⟩ := Drift.of_leadsOn hleads hstep
        obtain rfl := List.mem_singleton.mp ht
        exact .inr (Option.some.inj hq).symm
      · obtain ⟨_, _, hstack, _⟩ := Drift.of_stops hstops hstep
        cases hstack
  rcases hplaces with rfl | rfl
  · obtain rfl : 2 = id' := congrArg Position.state hq
    obtain ⟨s'', hs'', _, hts⟩ := hleads.state
    obtain rfl := Option.some.inj (hs'.symm.trans hs'')
    simp [hts] at ht'
  · obtain rfl : 5 = id' := congrArg Position.state hq
    simp [hstops.transitions hs'] at ht'

/-- Each of the conditions on the transitions of a graph is needed for the agreement. -/
theorem start_differs_from_expected :
    (ownToken.network 2 (by decide +kernel)).Disagrees ⟨2, [], 0⟩ ∧
      (crossing.network 2 (by decide +kernel)).Disagrees ⟨6, [], 0⟩ ∧
        (readsMark.network 2 (by decide +kernel)).Disagrees ⟨2, [], 0⟩ ∧
          (leavesStop.network 2 (by decide +kernel)).Disagrees ⟨1, [], 0⟩ := by
  refine ⟨⟨?_, ?_, ?_⟩, ⟨?_, ?_, ?_⟩, ⟨?_, ?_, ?_⟩, ⟨?_, ?_, ?_⟩⟩
  · exact Graph.callsOnce_of_calls (by decide +kernel)
  · decide +kernel
  · exact Network.exists_of_differs (t := 1) (by decide +kernel)
  · exact callsOnce_crossing
  · decide +kernel
  · exact Network.exists_of_differs (t := 1) (by decide +kernel)
  · exact Graph.callsOnce_of_calls (by decide +kernel)
  · decide +kernel
  · exact Network.exists_of_differs (t := .eof) (by decide +kernel)
  · exact Graph.callsOnce_of_calls (by decide +kernel)
  · decide +kernel
  · exact Network.exists_of_differs (t := 1) (by decide +kernel)

end AdaptiveLL
