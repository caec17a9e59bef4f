/-
The tokens that are put in for missing ones.

A token is put in only where the one transition of a state reads.  Its type is the
lowest one that is expected there, and what is expected there is what the transition
accepts.
-/
import AdaptiveLL.Proofs.Intervals
import AdaptiveLL.Proofs.Lookahead.Agreement
import AdaptiveLL.Proofs.Parser.After
import AdaptiveLL.Proofs.Parser.Coverage
import AdaptiveLL.Proofs.Parser.Defects
import AdaptiveLL.Proofs.Parser.Exhaustion
import AdaptiveLL.Proofs.Parser.Spelling
import AdaptiveLL.Proofs.Recovery.Steps

namespace AdaptiveLL

/-- Look-ahead sets are kept in their one representation. -/
theorem Graph.canonical_lookFrom (g : Graph) (atEnd : TokenType) (id : StateId)
    (stack : CallStack) : (g.lookFrom atEnd id stack).Canonical := by
  have hfold (visits : List LookVisit) (types : TypeSet) (h : types.Canonical) :
      (visits.foldl (fun types x => types.union (g.lookTypes atEnd x)) types).Canonical := by
    induction visits generalizing types with
    | nil => exact h
    | cons x visits ih => exact ih _ (h.union _)
  exact hfold _ _ TypeSet.canonical_empty

/-- The transition accepts no lower type, and this one if it accepts any; if it
accepts none, the type is that of the end of the input. -/
structure Transition.Lowest (maxType type : TokenType) (t : Transition) : Prop where
  least : ∀ a, t.accepts maxType a = true → t.accepts maxType type = true ∧ type ≤ a
  none : (∀ a, t.accepts maxType a = false) → type = .eof

namespace Network.Runs

variable {n : Network} {v : Vocabulary} {rules : List Rule} {id : Nat} {s : State} {t : Transition}

/-- A transition that reads is the only one of its state, which has no part to play
but that. -/
theorem single_of_read (hruns : n.Runs v rules) (hs : n.state? id = some s) (ht : t ∈ s.transitions)
    (hreads : t.isEpsilon = false) : s.transitions = [t] ∧ s.role = .basic := by
  obtain ⟨_, _, _, _, _, _, hform⟩ := hruns.laid.form_of_mem hs ht
  exact hform.single_of_read ht hreads

/-- At a state that reads, all that its transition accepts is expected. -/
theorem contains_next_iff_accepts (hruns : n.Runs v rules) (hs : n.state? id = some s)
    (ht : s.transitions = [t]) (hreads : t.isEpsilon = false) (a : TokenType) :
    (n.next id).contains a = true ↔ t.accepts n.maxType a = true := by
  have hmem : t ∈ s.transitions := ht ▸ List.mem_singleton_self t
  refine ⟨hruns.accepts_of_next hs ht hreads, fun ha => ?_⟩
  have hreal : a ≠ .epsilon := by
    rintro rfl
    exact absurd ((hruns.readsTokens _ s hs t hmem).symm.trans ha) Bool.false_ne_true
  obtain ⟨_, _, _, _, _, hrun, _⟩ := hruns.laid.form_of_mem hs hmem
  exact (hruns.orderly.contains_next_iff (Graph.lt_of_state? hs) hreal).mpr
    ⟨_, .refl, s, t, hs, hrun, hmem, ha⟩

/-- At a state that reads, the type of a placeholder is the lowest one that its
transition accepts. -/
theorem lowest_expected (hruns : n.Runs v rules) (hs : n.state? id = some s)
    (ht : s.transitions = [t]) (hreads : t.isEpsilon = false) (stack : CallStack) :
    t.Lowest n.maxType ((n.expected id stack).min?.getD .eof) := by
  rw [hruns.expected_of_read hs ht hreads]
  have hcanonical : (n.next id).Canonical := by
    rw [hruns.next_eq id (Graph.lt_of_state? hs)]
    exact n.canonical_lookFrom .epsilon id []
  have hiff := hruns.contains_next_iff_accepts hs ht hreads
  cases hmin : (n.next id).min? with
  | some lowest =>
    obtain ⟨hmem, hleast⟩ := hcanonical.min?_eq_some hmin
    have haccepts := (hiff lowest).mp hmem
    refine ⟨fun a ha => ⟨haccepts, hleast a ((hiff a).mpr ha)⟩, fun hnone => ?_⟩
    exact absurd ((hnone lowest).symm.trans haccepts) Bool.false_ne_true
  | none =>
    refine ⟨fun a ha => ?_, fun _ => rfl⟩
    exact absurd ((TypeSet.not_contains_of_min? hmin a).symm.trans ((hiff a).mpr ha))
      Bool.false_ne_true

end Network.Runs

namespace Run

def conjured (r : Run) : List Token :=
  r.events.filterMap Event.inserted?

theorem conjured_emit (r : Run) (e : Event) :
    (r.emit e).conjured = r.conjured ++ e.inserted?.toList := by
  rw [conjured, events_emit, List.filterMap_append, filterMap_singleton]
  rfl

/-- Tokens are put in by the notes alone. -/
theorem conjured_of_notes {r r' : Run} (h : r'.notes = r.notes) : r'.conjured = r.conjured :=
  congrArg (List.filterMap Event.inserted?) (events_of_notes h)

theorem conjured_modifyFrame (r : Run) (f : Invocation → Invocation) :
    (r.modifyFrame f).conjured = r.conjured :=
  conjured_of_notes (r.modifyFrame_rest f).2.2.2.1

end Run

def RepairStep.inserted? : RepairStep → Option Token
  | .event e => e.inserted?
  | _ => none

namespace Run

theorem conjured_carryOut_foldl (r : Run) (steps : List RepairStep) :
    (steps.foldl carryOut r).conjured = r.conjured ++ steps.filterMap RepairStep.inserted? := by
  have hstep (step : RepairStep) :
      step.events.filterMap Event.inserted? = step.inserted?.toList := by
    cases step with
    | event e => exact filterMap_singleton _ e
    | consume | report => rfl
  rw [conjured, events_carryOut_foldl, List.filterMap_append, List.filterMap_flatMap,
    List.filterMap_eq_flatMap_toList RepairStep.inserted?]
  simp only [hstep]
  rfl

end Run

/-- A run on these tokens that has put in these ones. -/
structure Run.Quiet (ts tokens : List Token) (r : Run) : Prop where
  stream : ∃ i, r.stream.At ts i
  conjured : r.conjured = tokens

namespace Run.Quiet

variable {ts tokens : List Token} {r r' : Run}

theorem of_same (h : r.Quiet ts tokens) (hstream : r'.stream = r.stream)
    (hnotes : r'.notes = r.notes) : r'.Quiet ts tokens :=
  ⟨hstream ▸ h.stream, (conjured_of_notes hnotes).trans h.conjured⟩

theorem modifyFrame (h : r.Quiet ts tokens) (f : Invocation → Invocation) :
    (r.modifyFrame f).Quiet ts tokens :=
  h.of_same (r.modifyFrame_rest f).1 (r.modifyFrame_rest f).2.2.2.1

theorem emit (h : r.Quiet ts tokens) {e : Event} (he : e.inserted? = none) :
    (r.emit e).Quiet ts tokens :=
  ⟨h.stream, by rw [conjured_emit, he, h.conjured, Option.toList_none, List.append_nil]⟩

/-- Plain steps of a repair put nothing in. -/
theorem repaired (h : r.Quiet ts tokens) {repair : Repair} (hplain : repair.Plain ts) :
    (repair.steps.foldl carryOut
      { r with strategy := repair.strategy, stream := repair.stream }).Quiet ts tokens := by
  refine ⟨(stream_carryOut_foldl _ _).symm ▸ hplain.stream, ?_⟩
  have hnone : repair.steps.filterMap RepairStep.inserted? = [] := by
    refine List.filterMap_eq_nil_iff.mpr fun step hstep => ?_
    have hkind := hplain.steps step hstep
    cases step with
    | event e => cases e <;> first | rfl | cases hkind
    | consume | report => rfl
  rw [conjured_carryOut_foldl, hnone, List.append_nil, ← h.conjured]
  exact conjured_of_notes rfl

theorem enterRule (h : r.Quiet ts tokens) (n : Network) (rule : RuleIndex) (follow : StateId)
    (level : Int) : (r.enterRule n rule follow level).Quiet ts tokens := by
  obtain ⟨i, hat⟩ := h.stream
  have hentered : ({ r with
      stream := r.stream.index.2
      frames := { rule, follow, precedence := level, startIndex := r.stream.index.1
                  node := { rule := n.ruleName rule } } :: r.frames } : Run).Quiet ts tokens :=
    ⟨⟨i, hat.index.2⟩, (conjured_of_notes rfl).trans h.conjured⟩
  have hemitted := hentered.emit (e := .enterRule (n.ruleName rule) r.stream.index.1) rfl
  unfold Run.enterRule
  dsimp only
  split
  · exact hemitted
  · exact hemitted.of_same rfl rfl

theorem exitRule (h : r.Quiet ts tokens) (n : Network) : (r.exitRule n).Quiet ts tokens := by
  unfold Run.exitRule
  split
  · exact h
  · rename_i i outer _
    have hemitted := h.emit (e := .exitRule (n.ruleName i.rule) i.failed) rfl
    dsimp only
    split <;> exact hemitted.of_same rfl rfl

/-- A token is put in by what the strategy does. -/
theorem steady (ts tokens : List Token) : Steady ts (Run.Quiet ts tokens) where
  stream h := h.stream
  of_same h _ _ hnotes hstream :=
    ⟨h.stream.imp hstream, (conjured_of_notes hnotes).trans h.conjured⟩
  emit h he := h.emit he
  modifyFrame h _ := h.modifyFrame _
  enterRule h := h.enterRule

end Run.Quiet

namespace Interpreter

open Running

variable {α : Type} {interp : Interpreter} {ts tokens : List Token}

theorem quiet_consult {work : Site → Repairing α}
    (hwork : ∀ site, (work site).Keeps (Repair.Plain ts)) :
    Keeps (Run.Quiet ts tokens) (ExceptT.lift (interp.consult work)) :=
  fun _ h => ends_lift (h.repaired (hwork _ _ ⟨h.stream, nofun⟩))

theorem quiet_align : (interp.tryRepair Repairing.align).Keeps (Run.Quiet ts tokens) := by
  refine keeps_bind (quiet_consult fun _ => (Repair.stable_plain ts).align.keeps) fun result => ?_
  cases result with
  | ok => exact keeps_pure _
  | error m => exact keeps_throw _

theorem giveUp_quiet {r : Run} (h : r.Quiet ts tokens) (m : Mismatch) :
    ((interp.giveUp m).run r).2.Quiet ts tokens := by
  have habandon := (Run.Quiet.steady ts tokens).abandon h interp
  exact habandon.repaired (Repair.giveUp_plain ts _ m _ ⟨habandon.stream, nofun⟩)

end Interpreter

/-- Reports put nothing in. -/
theorem Strategy.inserted_reportSteps (s : Strategy) (t : Token) (lexical : List LexError)
    (d : Diagnostic) : (s.reportSteps t lexical d).filterMap RepairStep.inserted? = [] := by
  unfold reportSteps
  split <;> rfl

/-- A run that has put in no others than these tokens, or one more of this kind
without moving its stream. -/
def Run.PutsAtMost (ts : List Token) (place : Nat) (tokens : List Token) (P : Token → Prop)
    (r : Run) : Prop :=
  r.Quiet ts tokens ∨ ∃ t, P t ∧ r.stream.At ts place ∧ r.conjured = tokens ++ [t]

theorem Run.PutsAtMost.of_same {ts tokens : List Token} {place : Nat} {P : Token → Prop}
    {r r' : Run} (h : r.PutsAtMost ts place tokens P) (hstream : r'.stream = r.stream)
    (hnotes : r'.notes = r.notes) : r'.PutsAtMost ts place tokens P := by
  refine h.imp (·.of_same hstream hnotes) fun ⟨t, ht, hat, hconjured⟩ => ⟨t, ht, ?_, ?_⟩
  · exact hstream ▸ hat
  · exact (conjured_of_notes hnotes).trans hconjured

/-- The token is a placeholder for the lowest of the types that are expected at the
site. -/
def Site.Replaces (site : Site) (t : Token) : Prop :=
  ∃ current previous, t = site.vocabulary.placeholder site.expected current previous

namespace Interpreter

open Running

variable {interp : Interpreter} {ts tokens : List Token} {i : Nat} {r : Run}

/-- Whatever a label is bound to, the run has put in the same tokens. -/
theorem bindLabel_putsAtMost {P : Token → Prop} {E : Obstacle → Run → Prop}
    (h : r.PutsAtMost ts i tokens P) (s : State) (t : Token) :
    (bindLabel s t).Ends r (fun _ => Run.PutsAtMost ts i tokens P) E := by
  unfold bindLabel
  split
  · exact ends_pure h
  · exact ends_modify (h.of_same (r.modifyFrame_rest _).1 (r.modifyFrame_rest _).2.2.2.1)

/-- An inline repair puts in a placeholder for the lowest of the expected types, or
nothing. -/
theorem repairInline_ends (hat : r.stream.At ts i) (hconjured : r.conjured = tokens) :
    interp.repairInline.Ends r
      (fun _ => Run.PutsAtMost ts i tokens
        (Site.Replaces ⟨interp.network, interp.vocabulary, r.state, r.stack⟩))
      (fun _ => Run.Quiet ts tokens) := by
  have hquiet {repair : Repair} {place : Nat} {strategy : Strategy} {steps : List RepairStep}
      (htook : repair.Took r.stream ts place strategy steps)
      (hnone : steps.filterMap RepairStep.inserted? = []) :
      (repair.steps.foldl Run.carryOut
        { r with strategy := repair.strategy, stream := repair.stream }).Quiet ts tokens := by
    refine ⟨⟨place, (Run.stream_carryOut_foldl _ _).symm ▸ htook.stream⟩, ?_⟩
    rw [Run.conjured_carryOut_foldl, htook.steps, hnone, List.append_nil]
    exact hconjured
  refine ends_bind (ends_bind (ends_consult ((Repair.took_begin hat r.strategy).repairInline
    (fun t next lexical repair _ _ _ _ htook => ?_)
    (fun t previous lexical repair _ _ _ _ htook => ?_)
    fun t repair _ _ _ htook => ?_)))
  · have hdropped := hquiet htook (by
      simp only [Strategy.dropSteps, List.filterMap_append, Strategy.inserted_reportSteps]
      rfl)
    refine ends_pure ?_
    split
    · exact ends_bind (ends_modify (ends_pure (.inl (hdropped.modifyFrame _))))
    · exact .inl hdropped
  · refine ends_pure ?_
    rw [Vocabulary.isPlaceholder_placeholder]
    refine ends_bind (ends_modify (ends_pure (.inr ⟨_, ⟨t, previous, rfl⟩, ?_, ?_⟩)))
    · rw [(Run.modifyFrame_rest _ _).1, Run.stream_carryOut_foldl]
      exact htook.stream
    · rw [Run.conjured_modifyFrame, Run.conjured_carryOut_foldl, htook.steps, ← hconjured]
      simp only [List.filterMap_append, Strategy.inserted_reportSteps]
      rfl
  · exact ends_throw (hquiet htook rfl)

/-- To match a token is to read one, or to repair. -/
theorem matchToken_ends (hat : r.stream.At ts i) (hconjured : r.conjured = tokens) (s : State)
    (t : Transition) :
    (interp.matchToken s t).Ends r
      (fun _ => Run.PutsAtMost ts i tokens
        (Site.Replaces ⟨interp.network, interp.vocabulary, r.state, r.stack⟩))
      (fun _ => Run.Quiet ts tokens) := by
  have hmatched : Keeps (Run.Quiet ts tokens) (ExceptT.lift (interp.consult fun _ => do
      Repairing.matched
      Repairing.consume false)) :=
    quiet_consult fun _ => (Repair.stable_plain ts).eatMatched
  let r₁ : Run := { r with stream := (r.stream.peek 1).2 }
  have hat₁ : r₁.stream.At ts i := hat.peek_one.2
  have hquiet : r₁.Quiet ts tokens := ⟨⟨i, hat₁⟩, hconjured⟩
  have hrepaired : interp.repairInline.Ends r₁ _ _ := repairInline_ends hat₁ hconjured
  refine ends_bind (ends_modifyGet ?_)
  dsimp only
  split
  · exact ends_bind ((hmatched r₁ hquiet).mono fun _ r₂ h₂ => ends_bind (ends_pure
      (bindLabel_putsAtMost (.inl h₂) s _)))
  · exact ends_bind (hrepaired.mono fun matched r₂ h₂ => bindLabel_putsAtMost h₂ s matched)

end Interpreter

/-- From one run to the next a token was put in for what the one transition of the
state reads. -/
structure Run.Conjures (n : Network) (t : Token) (r r' : Run) : Prop where
  conjured : r'.conjured = r.conjured ++ [t]
  /-- The stream is where it was. -/
  index_eq : r'.stream.index.1 = r.stream.index.1
  offsets : t.index = -1 ∧ t.start = -1 ∧ t.stop = -1
  transition : ∃ s tr, n.state? r.state = some s ∧ s.transitions = [tr] ∧ tr.isEpsilon = false ∧
    r'.state = tr.target ∧ tr.Lowest n.maxType t.type

namespace Interpreter

open Running

variable {interp : Interpreter} {v : Vocabulary} {rules : List Rule} {ts : List Token} {i : Nat}
  {r : Run} {s : State}

theorem take_of_read {t : Transition} (hreads : t.isEpsilon = false) :
    interp.take s t = (do
      interp.matchToken s t
      take.goto t.target) := by
  cases t with
  | atom | set | wildcard => rfl
  | _ => cases hreads

/-- A state with one transition is passed by taking it, if the strategy is not asked
there. -/
theorem visit_of_single {t : Transition} (ht : s.transitions = [t]) (halone : alignsAlone s = false)
    (id : StateId) : interp.visit id s = interp.take s t := by
  have hsingle : s.isDecision = false := by simp [State.isDecision, ht]
  have halternative : interp.alternative id s = pure 1 := by
    rw [alternative, hsingle, if_neg Bool.false_ne_true, halone]
    rfl
  have hfirst : s.transitions[1 - 1]? = some t := by rw [ht]; rfl
  rw [visit, halternative, pure_bind, hfirst]

/-- A state that reads is passed by reading, or by a repair. -/
theorem visit_of_read {t : Transition} (ht : s.transitions = [t]) (hreads : t.isEpsilon = false)
    (hrole : s.role = .basic) (id : StateId) : interp.visit id s = (do
      interp.matchToken s t
      take.goto t.target) := by
  have halone : alignsAlone s = false := by simp [alignsAlone, hrole]
  rw [visit_of_single ht halone]
  exact take_of_read hreads

/-- Passing a state puts nothing in, or a token for what its transition reads. -/
theorem visit_ends (hruns : interp.network.Runs v rules)
    (hs : interp.network.state? r.state = some s) (hat : r.stream.At ts i) :
    (interp.visit r.state s).Ends r
      (fun _ r' => r'.Quiet ts r.conjured ∨
        r'.stream.At ts i ∧ ∃ t, r.Conjures interp.network t r')
      (fun _ => Run.Quiet ts r.conjured) := by
  -- A token is only put in where one is read, and there the state has no other
  -- transition.
  by_cases hread : ∃ t ∈ s.transitions, t.isEpsilon = false
  · obtain ⟨t, hmem, hreads⟩ := hread
    obtain ⟨ht, hrole⟩ := hruns.single_of_read hs hmem hreads
    rw [visit_of_read ht hreads hrole]
    refine ends_bind ((matchToken_ends hat rfl s t).mono fun _ r₁ h₁ => ends_modify ?_)
    rcases h₁ with hquiet | ⟨tok, ⟨current, previous, rfl⟩, hat₁, hconjured⟩
    · exact .inl (hquiet.of_same rfl rfl)
    · refine .inr ⟨hat₁, _, hconjured, hat₁.index.1.trans hat.index.1.symm, ⟨rfl, rfl, rfl⟩,
        s, t, hs, ht, hreads, rfl, hruns.lowest_expected hs ht hreads r.stack⟩
  · have hvisit : (interp.visit r.state s).Keeps (Run.Quiet ts r.conjured) :=
      (Run.Quiet.steady ts r.conjured).visit quiet_align fun t hmem hreads =>
        absurd ⟨t, hmem, hreads⟩ hread
    exact (hvisit r ⟨⟨i, hat⟩, rfl⟩).mono fun _ _ h => .inl h

/-- One step puts nothing in, or a token for what the transition that it goes along
reads. -/
theorem step_conjures (hruns : interp.network.Runs v rules) (hat : r.stream.At ts i)
    {ending : StepEnd} {r' : Run} (hstep : interp.step.run r = (ending, r')) :
    r'.Quiet ts r.conjured ∨ r'.stream.At ts i ∧ ∃ t, r.Conjures interp.network t r' := by
  have hquiet : r.Quiet ts r.conjured := ⟨⟨i, hat⟩, rfl⟩
  have hends := interp.step_ends r (P := fun _ r' =>
    r'.Quiet ts r.conjured ∨ r'.stream.At ts i ∧ ∃ t, r.Conjures interp.network t r')
    (fun _ _ => .inl hquiet) (fun _ _ _ => .inl (hquiet.exitRule interp.network))
    fun s hget _ => ⟨_, _, visit_ends hruns (Graph.state?_of_getState hget) hat, fun _ h => h,
      fun _ _ h => .inl h, fun m _ h => .inl (giveUp_quiet h m)⟩
  rwa [hstep] at hends

end Interpreter

/-- Whenever a parse puts a token in, the stream stays where it is, the token has no
place and no offsets, and its type is the lowest one that the transition accepts
which it stands for.  A transition that accepts no type at all, as one for any token
where there are none, is stood for by the end of the input. -/
theorem Definition.conjured_fits {d : Definition} {g : Grammar} (hbuild : d.build = .ok g)
    (source : TokenSource) (hooks : Hooks) (rule : RuleIndex) {span : RuleSpan}
    (hspan : g.network.rule? rule = some span) {r r' : Run} {ending : Interpreter.StepEnd}
    (hreaches : Interpreter.Reaches ⟨g.network, g.vocabulary, hooks⟩
      (Run.enterRule g.network rule span.stop 0 { stream := .ofSource source }) r)
    (hstep : (Interpreter.step ⟨g.network, g.vocabulary, hooks⟩).run r = (ending, r')) :
    r'.conjured = r.conjured ∨ ∃ t, r.Conjures g.network t r' := by
  obtain ⟨rules, _, _, hruns⟩ := Definition.runs_of_build hbuild
  obtain ⟨ts, _, hat⟩ := TokenStream.exists_at_ofSource source
  obtain ⟨steps, hafter⟩ := hreaches
  have hkept (r r' : Run) (h : ∃ i, r.stream.At ts i)
      (hstep : (Interpreter.step ⟨g.network, g.vocabulary, hooks⟩).run r = (.running, r')) :
      ∃ i, r'.stream.At ts i := by
    obtain ⟨i, hat⟩ := h
    exact (Interpreter.step_conjures hruns hat hstep).elim Run.Quiet.stream fun h => ⟨i, h.1⟩
  obtain ⟨i, hi⟩ := Interpreter.after_keeps hkept ⟨_, (Run.is_begin hspan hat).stream⟩ hafter
  exact (Interpreter.step_conjures hruns hi hstep).imp Run.Quiet.conjured And.right

/-- The second token of a pair is put in at the end of the input. -/
theorem conjured_fits_listing :
    let g := listing.grammar isOk_build_listing
    let interp : Interpreter := ⟨g.network, g.vocabulary, .permissive⟩
    ∃ span r t, g.network.rule? 0 = some span ∧
      interp.Reaches (Run.enterRule g.network 0 span.stop 0
        { stream := .ofSource (.ofList [.make 1 "a" 0 0 1 0]) }) r ∧
      r.Conjures g.network t (interp.step.run r).2 ∧ t.type = 2 := by
  intro g interp
  have hstop : (g.network.rule? 0).map RuleSpan.stop = some 1 := by decide +kernel
  obtain ⟨span, hspan, hstop⟩ := Option.map_eq_some_iff.mp hstop
  let begun := Run.enterRule g.network 0 1 0 { stream := .ofSource (.ofList [.make 1 "a" 0 0 1 0]) }
  have htypes : (interp.after 5 begun).map (fun r => (r.conjured.map Token.type,
      (interp.step.run r).2.conjured.map Token.type)) = some ([], [2]) := by decide +kernel
  obtain ⟨r, hr, htypes⟩ := Option.map_eq_some_iff.mp htypes
  obtain ⟨hbefore, hbehind⟩ := Prod.mk.inj htypes
  have hreaches : interp.Reaches (Run.enterRule g.network 0 span.stop 0
      { stream := .ofSource (.ofList [.make 1 "a" 0 0 1 0]) }) r := by
    rw [hstop]
    exact ⟨5, hr⟩
  have hbuild : listing.build = .ok g := listing.build_eq isOk_build_listing
  have hfits := Definition.conjured_fits hbuild (.ofList [.make 1 "a" 0 0 1 0]) .permissive 0 hspan
    hreaches (Prod.eta _).symm
  rcases hfits with hsame | ⟨t, hconjures⟩
  · have hnone := congrArg (List.map Token.type) hsame
    rw [hbefore, hbehind] at hnone
    cases hnone
  · refine ⟨span, r, t, hspan, hreaches, hconjures, ?_⟩
    have hlast := congrArg (List.map Token.type) hconjures.conjured
    rw [hbehind, List.map_append, hbefore] at hlast
    exact (List.cons.inj hlast).1.symm

/-- Any token, and then the end of the input. -/
def anything : Definition where
  name := "Anything"
  rules := [{ name := "s", body := .seq [.wildcard, .eof] }]

/-- Where there are no token types, the end of the input stands for any token, which
no transition of the state accepts. -/
theorem conjured_unfit_anything :
    let g := anything.grammar (by decide +kernel)
    let interp : Interpreter := ⟨g.network, g.vocabulary, .permissive⟩
    ∃ span r t s, g.network.rule? 0 = some span ∧
      interp.Reaches
        (Run.enterRule g.network 0 span.stop 0 { stream := .ofSource (.ofList []) }) r ∧
      (interp.step.run r).2.conjured = r.conjured ++ [t] ∧ g.network.state? r.state = some s ∧
      s.transitions.all (fun tr => !tr.accepts g.network.maxType t.type) = true := by
  intro g interp
  have hstop : (g.network.rule? 0).map RuleSpan.stop = some 1 := by decide +kernel
  obtain ⟨span, hspan, hstop⟩ := Option.map_eq_some_iff.mp hstop
  let begun := Run.enterRule g.network 0 1 0 { stream := .ofSource (.ofList []) }
  let missing := g.vocabulary.placeholder .empty ((Token.endOfInput 0 1 0).atIndex 0) none
  have hfacts : (interp.after 1 begun).map (fun r => (r.state, r.conjured,
      (interp.step.run r).2.conjured)) = some (2, [], [missing]) := by decide +kernel
  obtain ⟨r, hr, hfacts⟩ := Option.map_eq_some_iff.mp hfacts
  simp only [Prod.mk.injEq] at hfacts
  obtain ⟨hstate, hbefore, hbehind⟩ := hfacts
  have hrefuses : (g.network.state? 2).map (fun s => s.transitions.all fun tr =>
      !tr.accepts g.network.maxType missing.type) = some true := by decide +kernel
  obtain ⟨s, hs, hrefuses⟩ := Option.map_eq_some_iff.mp hrefuses
  refine ⟨span, r, missing, s, hspan, ?_, ?_, hstate ▸ hs, hrefuses⟩
  · rw [hstop]
    exact ⟨1, hr⟩
  · rw [hbefore, hbehind]
    rfl

end AdaptiveLL
