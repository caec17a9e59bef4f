/-
The network of a grammar.

Every state belongs to a rule, and every spot of the network settles: going on without
reading a token always comes to an end.
-/
import AdaptiveLL.Proofs.Layout.States

namespace AdaptiveLL

theorem RuleLaid.stops {g : Graph} {v : Vocabulary} {i : RuleIndex} {r : Rule} {span : RuleSpan}
    {x : Part} (h : RuleLaid g v i r span x) : g.Stops i span.stop :=
  h.stop_shape

namespace RulesLaid

variable {g : Graph} {v : Vocabulary} {rules : List Rule}

theorem name_eq (hrules : RulesLaid g v rules) {i : Nat} {span : RuleSpan}
    (hspan : g.rule? i = some span) : ∃ r, rules[i]? = some r ∧ r.name = span.name := by
  have hnames := congrArg (fun names => names[i]?) hrules.names_eq
  simp only [List.getElem?_map, Array.getElem?_toList] at hnames
  rw [Graph.rule?] at hspan
  rw [hspan, Option.map_some] at hnames
  obtain ⟨r, hr, hname⟩ := Option.map_eq_some_iff.mp hnames.symm
  exact ⟨r, hr, hname⟩

/-- The rule that a name stands for lies in the network. -/
theorem rule_of_name (hrules : RulesLaid g v rules) {name : String} {i : Nat} {span : RuleSpan}
    (hindex : g.ruleIndex? name = some i) (hspan : g.rule? i = some span) :
    ∃ r x, rules[i]? = some r ∧ r.name = name ∧ RuleLaid g v i r span x := by
  obtain ⟨r, hr, hname⟩ := hrules.name_eq hspan
  obtain ⟨span', x, hlaid⟩ := hrules.rule i r hr
  obtain rfl : span = span' := Option.some.inj (hspan.symm.trans hlaid.span_eq)
  refine ⟨r, x, hr, ?_, hlaid⟩
  rw [Graph.ruleIndex?, Array.findIdx?_eq_some_iff_getElem] at hindex
  obtain ⟨hi, heq, _⟩ := hindex
  rw [Graph.rule?, Array.getElem?_eq_getElem hi, Option.some.injEq] at hspan
  rw [hname, ← hspan]
  exact eq_of_beq heq

/-- The states near a body: its own and the stop state of its rule. -/
def Near (span : RuleSpan) (x : Part) (id : Nat) : Prop :=
  id = span.stop ∨ x.lo ≤ id ∧ id < x.hi

/-- Every state belongs to a rule, which it ends or in which it leads on in some
form. -/
theorem forms (hrules : RulesLaid g v rules) {id : Nat} (hid : id < g.states.size) :
    ∃ i r span x, rules[i]? = some r ∧ RuleLaid g v i r span x ∧
      (id = span.stop ∨ g.Forms v i r.body.subterms (Near span x) id) := by
  obtain ⟨i, r, span, x, hr, hlaid, hcases⟩ := hrules.cover id hid
  refine ⟨i, r, span, x, hr, hlaid, ?_⟩
  have hmem := hlaid.body.mem
  rcases hcases with rfl | rfl | hin
  · exact .inr (.hop ⟨.ruleStart, by decide, hlaid.start_shape⟩ (.inr hmem.1))
  · exact .inl rfl
  · by_cases hexit : id = x.exit
    · subst hexit
      exact .inr (.hop hlaid.leave (.inl rfl))
    · exact .inr ((hlaid.body.forms id hin.1 hin.2 hexit).mono (List.Subset.refl _)
        fun _ h => .inr h)

/-- The rule of a state is the one in which it leads on, unless it ends it. -/
theorem state_cases (hrules : RulesLaid g v rules) {id : Nat} {s : State}
    (hs : g.state? id = some s) :
    ∃ r span x, rules[s.rule]? = some r ∧ RuleLaid g v s.rule r span x ∧
      (id = span.stop ∧ s.isStop = true ∨ s.isStop = false ∧
        Form g v s.rule r.body.subterms (Near span x) s.role s.transitions) := by
  obtain ⟨i, r, span, x, hr, hlaid, hforms⟩ := hrules.forms (Graph.lt_of_state? hs)
  have hshape := Graph.shape?_of_state? hs
  rcases hforms with rfl | ⟨role, ts, hrole, hshape', _, hform⟩
  · have heq := Option.some.inj (hshape.symm.trans hlaid.stop_shape)
    simp only [Shape.mk.injEq] at heq
    refine ⟨r, span, x, heq.2.1 ▸ hr, heq.2.1 ▸ hlaid, .inl ⟨rfl, by simp [State.isStop, heq.1]⟩⟩
  · have heq := Option.some.inj (hshape.symm.trans hshape')
    simp only [Shape.mk.injEq] at heq
    obtain ⟨rfl, rfl, rfl⟩ := heq
    exact ⟨r, span, x, hr, hlaid, .inr ⟨by simpa [State.isStop] using hrole, hform⟩⟩

/-- A call comes back to the state behind it. -/
theorem callsNext (hrules : RulesLaid g v rules) {id : Nat} {s : State}
    (hs : g.state? id = some s) : CallsNext id s.transitions := by
  obtain ⟨i, r, span, x, _, hlaid, rfl | ⟨role, ts, _, hshape, hcalls, _⟩⟩ :=
    hrules.forms (Graph.lt_of_state? hs)
  · rw [hlaid.stops.transitions hs]
    exact .epsilons _ []
  · have heq := Option.some.inj ((Graph.shape?_of_state? hs).symm.trans hshape)
    simp only [Shape.mk.injEq] at heq
    exact heq.2.2 ▸ hcalls

/-- A rule has one state that ends it. -/
theorem eq_stop (hrules : RulesLaid g v rules) {id : Nat} {s : State} {span : RuleSpan}
    (hs : g.state? id = some s) (hstop : s.isStop = true) (hspan : g.rule? s.rule = some span) :
    id = span.stop := by
  obtain ⟨_, span', _, _, hlaid, ⟨hid, _⟩ | ⟨hrun, _⟩⟩ := hrules.state_cases hs
  · obtain rfl := Option.some.inj (hlaid.span_eq.symm.trans hspan)
    exact hid
  · exact absurd (hrun.symm.trans hstop) Bool.false_ne_true

/-- A state that has transitions leads on in some form. -/
theorem form_of_mem (hrules : RulesLaid g v rules) {id : Nat} {s : State} {t : Transition}
    (hs : g.state? id = some s) (ht : t ∈ s.transitions) :
    ∃ r span x, rules[s.rule]? = some r ∧ RuleLaid g v s.rule r span x ∧
      s.isStop = false ∧
        Form g v s.rule r.body.subterms (Near span x) s.role s.transitions := by
  obtain ⟨r, span, x, hr, hlaid, ⟨rfl, _⟩ | ⟨hrun, hform⟩⟩ := hrules.state_cases hs
  · rw [hlaid.stops.transitions hs] at ht
    cases ht
  · exact ⟨r, span, x, hr, hlaid, hrun, hform⟩

/-- The states near a body belong to its rule. -/
theorem state_of_near {i : RuleIndex} {r : Rule} {span : RuleSpan} {x : Part}
    (hlaid : RuleLaid g v i r span x) {id : Nat} (hnear : Near span x id) :
    ∃ s, g.state? id = some s ∧ s.rule = i := by
  have hof (role : StateRole) (ts : List Transition) (hshape : g.shape? id = some ⟨role, i, ts⟩) :
      ∃ s, g.state? id = some s ∧ s.rule = i := by
    obtain ⟨s, hs, heq⟩ := Graph.state?_of_shape? hshape
    simp only [State.shape, Shape.mk.injEq] at heq
    exact ⟨s, hs, heq.2.1⟩
  rcases hnear with rfl | hin
  · exact hof _ _ hlaid.stop_shape
  · by_cases hexit : id = x.exit
    · subst hexit
      obtain ⟨role, _, hshape⟩ := hlaid.leave
      exact hof _ _ hshape
    · obtain ⟨role, ts, _, hshape, _⟩ := hlaid.body.forms id hin.1 hin.2 hexit
      exact hof _ _ hshape

/-- A transition that is no call stays in its rule. -/
theorem target_state (hrules : RulesLaid g v rules) {id : Nat} {s : State} {t : Transition}
    (hs : g.state? id = some s) (ht : t ∈ s.transitions) (hcall : t.call? = none) :
    ∃ s', g.state? t.target = some s' ∧ s'.rule = s.rule := by
  obtain ⟨r, span, x, _, hlaid, _, hform⟩ := hrules.form_of_mem hs ht
  exact state_of_near hlaid (hform.target ht hcall)

/-- A call comes back to its rule. -/
theorem follow_state (hrules : RulesLaid g v rules) {id : Nat} {s : State} {start follow : StateId}
    {callee : RuleIndex} {level : Int} (hs : g.state? id = some s)
    (ht : .call start callee follow level ∈ s.transitions) :
    ∃ s', g.state? follow = some s' ∧ s'.rule = s.rule := by
  obtain ⟨r, span, x, _, hlaid, _, hform⟩ := hrules.form_of_mem hs ht
  exact state_of_near hlaid (hform.call ht).1

/-- A call leads to the start of the rule that it names. -/
theorem call_target (hrules : RulesLaid g v rules) {id : Nat} {s : State} {start follow : StateId}
    {callee : RuleIndex} {level : Int} (hs : g.state? id = some s)
    (ht : .call start callee follow level ∈ s.transitions) :
    ∃ r span x, rules[callee]? = some r ∧ RuleLaid g v callee r span x ∧
      start = span.start := by
  obtain ⟨r, span, x, _, _, _, hform⟩ := hrules.form_of_mem hs ht
  obtain ⟨_, name, span', _, hindex, hspan, hstart⟩ := hform.call ht
  obtain ⟨r', x', hr', _, hlaid'⟩ := hrules.rule_of_name hindex hspan
  exact ⟨r', span', x', hr', hlaid', hstart⟩

theorem start_state (hrules : RulesLaid g v rules) {id : Nat} {s : State} {start follow : StateId}
    {callee : RuleIndex} {level : Int} (hs : g.state? id = some s)
    (ht : .call start callee follow level ∈ s.transitions) :
    ∃ s', g.state? start = some s' ∧ s'.rule = callee := by
  obtain ⟨r, span, x, _, hlaid, rfl⟩ := hrules.call_target hs ht
  obtain ⟨s', hs', heq⟩ := Graph.state?_of_shape? hlaid.start_shape
  simp only [State.shape, Shape.mk.injEq] at heq
  exact ⟨s', hs', heq.2.1⟩

end RulesLaid

namespace Network.Runs

variable {n : Network} {v : Vocabulary} {rules : List Rule}

/-- Rules of one name are one rule. -/
theorem rule_inj (hruns : n.Runs v rules) {r r' : Rule} (hr : r ∈ rules) (hr' : r' ∈ rules)
    (hname : r.name = r'.name) : r = r' :=
  List.inj_on_of_nodup_map hruns.nodup hr hr' hname

/-- A rule is found under its name. -/
theorem exists_ruleIndex (hruns : n.Runs v rules) {r : Rule} (hr : r ∈ rules) :
    ∃ i span x, n.ruleIndex? r.name = some i ∧ rules[i]? = some r ∧
      RuleLaid n.toGraph v i r span x := by
  have hmem : r.name ∈ n.rules.toList.map RuleSpan.name :=
    hruns.laid.names_eq ▸ List.mem_map_of_mem hr
  obtain ⟨span₀, hspan₀, hname₀⟩ := List.mem_map.mp hmem
  obtain ⟨i, hi⟩ : ∃ i, n.ruleIndex? r.name = some i := by
    rw [← Option.ne_none_iff_exists']
    intro hnone
    rw [Graph.ruleIndex?, Array.findIdx?_eq_none_iff] at hnone
    have hnot := hnone span₀ (Array.mem_toList_iff.mp hspan₀)
    simp [hname₀] at hnot
  obtain ⟨hlt, _⟩ := Array.findIdx?_eq_some_iff_getElem.mp hi
  obtain ⟨r', x, hr', hname, hlaid⟩ := hruns.laid.rule_of_name hi (Array.getElem?_eq_getElem hlt)
  obtain rfl := hruns.rule_inj (List.mem_of_getElem? hr') hr hname
  exact ⟨i, _, x, hi, hr', hlaid⟩

theorem loopsRead (hruns : n.Runs v rules) {r : Rule} (hr : r ∈ rules) :
    r.body.LoopsRead (nullableRules rules) :=
  fun _ hx _ hbody => isNullable_loopBody_eq_false hruns.emptyClosure hr hx hbody

/-- The rules that a body can call first are left callees of its rule. -/
theorem mem_leftCallees (hruns : n.Runs v rules) {r callee : Rule} (hr : r ∈ rules)
    (hcallee : callee ∈ rules) (hcall : callee.name ∈ r.body.leftCalls (nullableRules rules)) :
    callee.name ∈ leftCallees rules (nullableRules rules) r.name := by
  unfold leftCallees
  cases hfind : rules.find? fun s => s.name == r.name with
  | none =>
    have hnone := List.find?_eq_none.mp hfind r hr
    simp at hnone
  | some s =>
    have hname : s.name = r.name := by simpa using List.find?_some hfind
    obtain rfl := hruns.rule_inj (List.mem_of_find?_eq_some hfind) hr hname
    refine List.mem_filter.mpr ⟨hcall, ?_⟩
    rw [List.any_eq_true]
    exact ⟨callee, hcallee, by simp⟩

/-- What holds in the caller of a rule that can match nothing holds at the start of a
rule, if it holds of a spot whenever it holds of all spots the network can drift to. -/
theorem drift_call (hruns : n.Runs v rules) {P : Spot → Prop} {base : CallStack}
    (hstep : ∀ (s : Nat) precedence top, top ≠ [] →
      (∀ q, Drift n.toGraph ⟨s, precedence, top ++ base⟩ q → P q) → P ⟨s, precedence, top ++ base⟩)
    {i : Nat} {r : Rule} {span : RuleSpan} {x : Part} (hr : rules[i]? = some r)
    (hlaid : RuleLaid n.toGraph v i r span x) (frame : Frame) (top : CallStack) (level : Int)
    (hback : r.name ∈ nullableRules rules → P (.behind frame (top ++ base))) :
    P ⟨span.start, level, frame :: top ++ base⟩ := by
  have hmem : r ∈ rules := List.mem_of_getElem? hr
  have hends := allEnd_of_leftCycle?_eq_none hruns.leftCycle r.name (List.mem_map_of_mem hmem)
  generalize hname : r.name = name at hends
  -- The induction is on the order of left calls.
  induction hends generalizing i r span x frame top level with
  | intro name _ ih =>
    subst hname
    have hstep' (s : Nat) (precedence : Int) :=
      hstep s precedence (frame :: top) (List.cons_ne_nil _ _)
    refine hstep' _ _ fun q hq => ?_
    obtain ⟨t, ht, hq⟩ := Drift.of_leadsOn (.of_shape hlaid.start_shape (by decide)) hq
    obtain rfl : t = .epsilon x.entry := by simpa using ht
    obtain rfl := Option.some.inj hq
    refine hlaid.body.comesBack (hruns.loopsRead hmem) ⟨fun s _ _ => hstep' s level, ?_⟩
      fun hnull => ?_
    · intro callee hcallee j span' hindex hspan follow level' _ _ hcont
      obtain ⟨r', x', hr', rfl, hlaid'⟩ := hruns.laid.rule_of_name hindex hspan
      have hmem' : r' ∈ rules := List.mem_of_getElem? hr'
      exact ih _ (hruns.mem_leftCallees hmem hmem' hcallee) hr' hlaid' ⟨follow, level⟩
        (frame :: top) level' hcont hmem' rfl
    · refine hlaid.leave.drift_induction (hstep' _ _) (hstep' _ _ fun q hq => ?_)
      obtain ⟨frame', stack', hstack, rfl⟩ := Drift.of_stops hlaid.stops hq
      obtain ⟨rfl, rfl⟩ : frame = frame' ∧ top ++ base = stack' := by simpa using hstack
      exact hback (mem_nullableRules hmem hnull)

/-- Where the caller settles, all spots of a rule that it called do. -/
theorem settles_of_callers (hruns : n.Runs v rules) {stack : CallStack}
    (hback : ∀ frame rest, stack = frame :: rest → Settles n.toGraph (.behind frame rest))
    (s : Nat) (precedence : Int) : Settles n.toGraph ⟨s, precedence, stack⟩ := by
  by_cases hs : s < n.states.size
  · obtain ⟨i, r, span, x, hr, hlaid, hcases⟩ := hruns.laid.cover s hs
    have hmem := hlaid.body.mem
    have hloops := hruns.loopsRead (List.mem_of_getElem? hr)
    have hstop : Settles n.toGraph ⟨span.stop, precedence, stack⟩ := by
      refine .of_drift fun q hq => ?_
      obtain ⟨frame, rest, hstack, rfl⟩ := Drift.of_stops hlaid.stops hq
      exact hback frame rest hstack
    have hbody : ∀ s : Nat, x.lo ≤ s → s < x.hi → Settles n.toGraph ⟨s, precedence, stack⟩ := by
      refine hlaid.body.settles hloops ?_
        (.of_leadsOn hlaid.leave.leadsOn fun t ht => ⟨span.stop, by simpa using ht, hstop⟩)
      intro name callee span' hindex hspan follow level hcont
      obtain ⟨r', x', hr', rfl, hlaid'⟩ := hruns.laid.rule_of_name hindex hspan
      exact hruns.drift_call (fun _ _ _ _ => Settles.of_drift) hr' hlaid'
        ⟨follow, precedence⟩ [] level hcont
    rcases hcases with rfl | rfl | hin
    · exact .of_leadsOn (.of_shape hlaid.start_shape (by decide)) fun t ht =>
        ⟨x.entry, by simpa using ht, hbody x.entry hmem.1.1 hmem.1.2⟩
    · exact hstop
    · exact hbody s hin.1 hin.2
  · refine .of_drift fun q hq => ?_
    have hnone (s' : State) (hs' : n.state? s = some s') : False :=
      hs (Array.getElem?_eq_some_iff.mp hs').1
    cases hq with
    | pass hs' => exact (hnone _ hs').elim
    | back hs' => exact (hnone _ hs').elim

/-- The network cannot be walked forever without reading a token. -/
theorem settles (hruns : n.Runs v rules) (p : Spot) : Settles n.toGraph p := by
  obtain ⟨s, precedence, stack⟩ := p
  induction stack generalizing s precedence with
  | nil => exact hruns.settles_of_callers (by simp) s precedence
  | cons frame stack ih =>
    refine hruns.settles_of_callers (fun frame' rest hstack => ?_) s precedence
    obtain ⟨rfl, rfl⟩ : frame = frame' ∧ stack = rest := by simpa using hstack
    exact ih _ _

end Network.Runs

end AdaptiveLL
