/-
What decides how a run goes on.

Labels, events and calls of the host program do not: a run is seen as its place in
the input with the state it is in and the invocations that are pending, each with
the node that is being built for it.
-/
import AdaptiveLL.Parser
import AdaptiveLL.Proofs.Parser.Repair
import AdaptiveLL.Proofs.Outermost

namespace AdaptiveLL

/-- An invocation, without the parts of its node. -/
structure Entry where
  rule : RuleIndex
  follow : StateId
  precedence : Int
  startIndex : Nat
  name : String
  alt : Nat := 0
  failed : Bool := false

/-- An invocation that waits for a call to come back, with the parts of its node so
far. -/
structure Pending extends Entry where
  children : List ParseTree

def Invocation.pending (i : Invocation) : Pending where
  rule := i.rule
  follow := i.follow
  precedence := i.precedence
  startIndex := i.startIndex
  name := i.node.rule
  alt := i.node.alt
  failed := i.node.failed
  children := i.node.children

def callers : Entry → List Pending → CallStack
  | _, [] => []
  | i, caller :: outer => ⟨i.follow, caller.precedence⟩ :: callers caller.toEntry outer

/-- A run as far as it decides how the run goes on and what it builds. -/
structure View extends Standing where
  state : StateId
  current : Entry
  outer : List Pending

namespace View

def stack (x : View) : CallStack :=
  callers x.current x.outer

def spot (x : View) : Spot :=
  ⟨x.state, x.current.precedence, x.stack⟩

def node (x : View) : ParseTree :=
  .node x.current.name x.current.alt x.current.failed x.children

def frames (x : View) : List Pending :=
  ⟨x.current, x.children⟩ :: x.outer

def goto (x : View) (state : StateId) : View :=
  { x with state }

def onto (x : View) (y : Standing) : View :=
  { x with toStanding := y }

def setAlt (x : View) (alt : Nat) : View :=
  { x with current := { x.current with alt } }

def fail (x : View) : View :=
  { x with current := { x.current with failed := true } }

def wrap (x : View) : View :=
  { x with children := [x.node], current := { x.current with failed := false } }

def call (x : View) (name : String) (start : StateId) (rule : RuleIndex) (follow : StateId)
    (level : Int) : View :=
  { x with
    children := []
    state := start
    current := { rule, follow, precedence := level, startIndex := x.place, name }
    outer := ⟨x.current, x.children⟩ :: x.outer }

def back (x : View) (caller : Pending) (outer : List Pending) : View :=
  { x with
    children := caller.children ++ [x.node]
    state := x.current.follow
    current := caller.toEntry
    outer }

end View

/-- What an entry of a record tells of recoveries. -/
def Note.mark? : Note → Option Mark
  | .event e => e.mark?
  | .diagnostic d => d.mark?

def Run.marks (r : Run) : List Mark :=
  r.notes.toList.filterMap Note.mark?

/-- A run is seen like this, on these tokens. -/
structure Run.Is (ts : List Token) (r : Run) (x : View) : Prop where
  stream : r.stream.At ts x.place
  strategy : r.strategy = x.strategy
  errors : r.metrics.errors = x.errors
  marks : r.marks = x.marks
  state : r.state = x.state
  stack : r.stack = x.stack
  frames : r.frames.map Invocation.pending = x.frames

def RepairStep.notes : RepairStep → List Note
  | .event e => [.event e]
  | .consume t skipped => [.event (.consume t skipped)]
  | .report lexical d => lexical.map (fun e => .diagnostic (.ofLexError e)) ++ [.diagnostic d]

def RepairStep.events : RepairStep → List Event
  | .event e => [e]
  | .consume t skipped => [.consume t skipped]
  | .report _ _ => []

/-- The reports of a step of a repair, that of the mismatch last. -/
def RepairStep.reported : RepairStep → List Diagnostic
  | .report lexical d => lexical.map Diagnostic.ofLexError ++ [d]
  | _ => []

def Note.diagnostic? : Note → Option Diagnostic
  | .event _ => none
  | .diagnostic d => some d

theorem Note.diagnostics_lexical (errors : List LexError) :
    (errors.map fun e => .diagnostic (.ofLexError e)).filterMap Note.diagnostic? =
      errors.map Diagnostic.ofLexError := by
  rw [List.filterMap_map]
  exact congrFun List.filterMap_eq_map errors

namespace Run

theorem marks_emit (r : Run) (e : Event) : (r.emit e).marks = r.marks ++ e.mark?.toList := by
  rw [marks, emit, Array.toList_push, List.filterMap_append, filterMap_singleton]
  rfl

/-- What the lexer could not match is noted behind the rest of the record. -/
theorem notes_noteLexErrors (r : Run) (errors : List LexError) :
    (r.noteLexErrors errors).notes.toList =
      r.notes.toList ++ errors.map fun e => .diagnostic (.ofLexError e) := by
  rw [noteLexErrors, List.foldl_push_eq_append, Array.toList_append]

theorem filterMap_noteLexErrors {β : Type} {f : Note → Option β}
    (hf : ∀ e, f (.diagnostic (.ofLexError e)) = none) (r : Run) (errors : List LexError) :
    (r.noteLexErrors errors).notes.toList.filterMap f = r.notes.toList.filterMap f := by
  have hnone : (errors.map fun e => Note.diagnostic (.ofLexError e)).filterMap f = [] := by
    rw [List.filterMap_map]
    exact List.filterMap_eq_nil_iff.mpr fun e _ => hf e
  rw [notes_noteLexErrors, List.filterMap_append, hnone, List.append_nil]

theorem marks_noteLexErrors (r : Run) (errors : List LexError) :
    (r.noteLexErrors errors).marks = r.marks :=
  filterMap_noteLexErrors (fun _ => rfl) r errors

/-- What the lexer could not match up to the end is no mismatch. -/
theorem marks_flushLexErrors (r : Run) : r.flushLexErrors.marks = r.marks :=
  marks_noteLexErrors _ _

/-- A change of the current invocation changes nothing else. -/
theorem modifyFrame_rest (r : Run) (f : Invocation → Invocation) :
    (r.modifyFrame f).stream = r.stream ∧ (r.modifyFrame f).strategy = r.strategy ∧
      (r.modifyFrame f).metrics = r.metrics ∧ (r.modifyFrame f).notes = r.notes ∧
        (r.modifyFrame f).state = r.state ∧ (r.modifyFrame f).stack = r.stack := by
  unfold modifyFrame
  split <;> exact ⟨rfl, rfl, rfl, rfl, rfl, rfl⟩

theorem notes_carryOut (r : Run) (step : RepairStep) :
    (r.carryOut step).notes.toList = r.notes.toList ++ step.notes := by
  cases step with
  | event e => exact Array.toList_push
  | consume t skipped =>
    have hnotes := (r.modifyFrame_rest fun i => i.addToken t skipped).2.2.2.1
    rw [carryOut, emit, Array.toList_push]
    dsimp only
    split <;> rw [hnotes] <;> rfl
  | report lexical d =>
    rw [carryOut, Array.toList_push, notes_noteLexErrors, List.append_assoc]
    rfl

theorem notes_carryOut_foldl (r : Run) (steps : List RepairStep) :
    (steps.foldl carryOut r).notes.toList = r.notes.toList ++ steps.flatMap RepairStep.notes := by
  induction steps generalizing r with
  | nil => exact (List.append_nil _).symm
  | cons step steps ih =>
    rw [List.foldl_cons, ih, notes_carryOut, List.append_assoc, List.flatMap_cons]

/-- Events are told by the notes alone. -/
theorem events_of_notes {r r' : Run} (h : r'.notes = r.notes) : r'.events = r.events := by
  rw [events, h]
  rfl

theorem events_emit (r : Run) (e : Event) : (r.emit e).events = r.events ++ [e] := by
  rw [events, emit, Array.toList_push, List.filterMap_append]
  rfl

theorem events_noteLexErrors (r : Run) (errors : List LexError) :
    (r.noteLexErrors errors).events = r.events :=
  filterMap_noteLexErrors (fun _ => rfl) r errors

theorem events_carryOut (r : Run) (step : RepairStep) :
    (r.carryOut step).events = r.events ++ step.events := by
  rw [events, notes_carryOut, List.filterMap_append]
  refine congrArg (r.events ++ ·) ?_
  cases step with
  | event | consume => rfl
  | report lexical d =>
    rw [RepairStep.notes, List.filterMap_append, List.filterMap_map]
    exact congrArg (· ++ []) (List.filterMap_eq_nil_iff.mpr fun _ _ => rfl)

theorem events_carryOut_foldl (r : Run) (steps : List RepairStep) :
    (steps.foldl carryOut r).events = r.events ++ steps.flatMap RepairStep.events := by
  induction steps generalizing r with
  | nil => exact (List.append_nil _).symm
  | cons step steps ih =>
    rw [List.foldl_cons, ih, events_carryOut, List.append_assoc, List.flatMap_cons]

theorem diagnostics_eq (r : Run) : r.diagnostics = r.notes.toList.filterMap Note.diagnostic? :=
  rfl

/-- The reports are among the notes. -/
theorem diagnostics_of_notes {r r' : Run} (h : r'.notes = r.notes) :
    r'.diagnostics = r.diagnostics := by
  rw [diagnostics, h]
  rfl

/-- An event is no report. -/
theorem diagnostics_emit (r : Run) (e : Event) : (r.emit e).diagnostics = r.diagnostics := by
  rw [diagnostics, emit, Array.toList_push, List.filterMap_append]
  exact List.append_nil _

theorem diagnostics_noteLexErrors (r : Run) (errors : List LexError) :
    (r.noteLexErrors errors).diagnostics = r.diagnostics ++ errors.map Diagnostic.ofLexError := by
  rw [diagnostics_eq, notes_noteLexErrors, List.filterMap_append, Note.diagnostics_lexical]
  rfl

theorem diagnostics_carryOut_foldl (r : Run) (steps : List RepairStep) :
    (steps.foldl carryOut r).diagnostics = r.diagnostics ++ steps.flatMap RepairStep.reported := by
  have hstep (step : RepairStep) : step.notes.filterMap Note.diagnostic? = step.reported := by
    cases step with
    | event | consume => rfl
    | report lexical d =>
      rw [RepairStep.notes, List.filterMap_append, Note.diagnostics_lexical]
      rfl
  rw [diagnostics_eq, notes_carryOut_foldl, List.filterMap_append, List.filterMap_flatMap]
  simp only [hstep]
  rfl

theorem stream_carryOut_foldl (r : Run) (steps : List RepairStep) :
    (steps.foldl carryOut r).stream = r.stream := by
  induction steps generalizing r with
  | nil => rfl
  | cons step steps ih =>
    rw [List.foldl_cons, ih]
    cases step with
    | event | report => rfl
    | consume t skipped =>
      refine Eq.trans ?_ (r.modifyFrame_rest fun i => i.addToken t skipped).1
      rw [carryOut]
      dsimp only
      split <;> rfl

theorem frames_modifyFrame (r : Run) (f : Invocation → Invocation) {i : Invocation}
    {outer : List Invocation} (hframes : r.frames = i :: outer) :
    (r.modifyFrame f).frames = f i :: outer := by
  rw [modifyFrame, hframes]

/-- Entering a rule looks where it begins, and tells so. -/
theorem enterRule_rest (r : Run) (n : Network) (rule : RuleIndex) (follow : StateId) (level : Int) :
    (r.enterRule n rule follow level).stream = r.stream.index.2 ∧
      (r.enterRule n rule follow level).frames ≠ [] ∧
      (r.enterRule n rule follow level).events =
        r.events ++ [.enterRule (n.ruleName rule) r.stream.index.1] ∧
      (r.enterRule n rule follow level).diagnostics = r.diagnostics := by
  unfold enterRule
  dsimp only
  split <;> exact ⟨rfl, List.cons_ne_nil _ _, events_emit _ _, diagnostics_emit _ _⟩

/-- Leaving a rule is no report, and it does not touch the stream. -/
theorem exitRule_rest (r : Run) (n : Network) :
    (r.exitRule n).stream = r.stream ∧ (r.exitRule n).diagnostics = r.diagnostics := by
  unfold exitRule
  split
  · exact ⟨rfl, rfl⟩
  · dsimp only
    split <;> exact ⟨rfl, (diagnostics_of_notes rfl).trans (r.diagnostics_emit _)⟩

/-- Leaving a rule tells whether a mismatch was met in it. -/
theorem events_exitRule (r : Run) (n : Network) {i : Invocation} {outer : List Invocation}
    (hframes : r.frames = i :: outer) : (r.exitRule n).events =
      r.events ++ [.exitRule (n.ruleName i.rule) i.failed] := by
  rw [exitRule, hframes]
  cases outer <;> exact events_emit _ _

end Run

/-- Entering a rule puts its invocation in front of the others. -/
theorem Run.is_enterRule {ts : List Token} {r : Run} {n : Network} {rule : RuleIndex}
    {follow : StateId} {level : Int} {span : RuleSpan} {i : Nat} {outer : List Pending}
    (hat : r.stream.At ts i) (hspan : n.rule? rule = some span)
    (hframes : r.frames.map Invocation.pending = outer)
    (hstack : r.stack =
      callers
        { rule, follow, precedence := level, startIndex := i, name := n.ruleName rule } outer) :
    (r.enterRule n rule follow level).Is ts
      { place := i
        strategy := r.strategy
        errors := r.metrics.errors
        marks := r.marks
        children := []
        state := span.start
        current := { rule, follow, precedence := level, startIndex := i, name := n.ruleName rule }
        outer } := by
  obtain ⟨hindex, hat'⟩ := hat.index
  have henter : r.enterRule n rule follow level =
      { ({ r with
            stream := r.stream.index.2
            frames := { rule, follow, precedence := level, startIndex := r.stream.index.1
                        node := { rule := n.ruleName rule } } :: r.frames } : Run).emit
          (.enterRule (n.ruleName rule) r.stream.index.1) with state := span.start } := by
    simp only [enterRule, hspan]
  rw [henter]
  refine ⟨hat', rfl, rfl, (Run.marks_emit _ _).trans (List.append_nil _), rfl, hstack, ?_⟩
  rw [View.frames, ← hframes, ← hindex]
  rfl

theorem Invocation.pending_bindLabel (i : Invocation) (name : String) (t : Token) :
    (i.bindLabel name t).pending = i.pending := by
  unfold bindLabel
  split <;> rfl

namespace Run.Is

variable {ts : List Token} {r : Run} {x : View}

/-- The first invocation of a run is the current one. -/
theorem exists_frame (h : r.Is ts x) : ∃ i outer, r.frames = i :: outer ∧
    i.pending = ⟨x.current, x.children⟩ ∧ outer.map Invocation.pending = x.outer := by
  have hframes := h.frames
  rw [View.frames] at hframes
  obtain ⟨i, outer, heq, hi, houter⟩ := List.map_eq_cons_iff.mp hframes
  exact ⟨i, outer, heq, hi, houter⟩

/-- Changing the current invocation changes what is seen of it. -/
theorem modifyFrame (h : r.Is ts x) {f : Invocation → Invocation} {current : Entry}
    {children : List ParseTree}
    (hf : ∀ i : Invocation, i.pending = ⟨x.current, x.children⟩ →
      (f i).pending = ⟨current, children⟩)
    (hstack : current.follow = x.current.follow) :
    (r.modifyFrame f).Is ts { x with current, children } := by
  obtain ⟨i, outer, heq, hi, houter⟩ := h.exists_frame
  have hcallers : callers current x.outer = x.stack := by
    unfold View.stack
    cases x.outer with
    | nil => rfl
    | cons caller outer => simp only [callers, hstack]
  have hframes := r.frames_modifyFrame f heq
  obtain ⟨hstream, hstrategy, hmetrics, hnotes, hstate, hstack'⟩ := r.modifyFrame_rest f
  refine ⟨hstream ▸ h.stream, hstrategy.trans h.strategy, ?_, ?_, hstate.trans h.state, ?_, ?_⟩
  · rw [hmetrics]
    exact h.errors
  · rw [Run.marks, hnotes]
    exact h.marks
  · rw [hstack', h.stack]
    exact hcallers.symm
  · rw [hframes, List.map_cons, hf i hi, houter]
    rfl

/-- What is not seen of the current invocation can change. -/
theorem modifyHidden (h : r.Is ts x) {f : Invocation → Invocation}
    (hf : ∀ i, (f i).pending = i.pending) : (r.modifyFrame f).Is ts x :=
  h.modifyFrame (fun i hi => (hf i).trans hi) rfl

/-- A token becomes a leaf of the current node. -/
theorem addToken (h : r.Is ts x) (t : Token) (skipped : Bool) :
    (r.modifyFrame fun i => i.addToken t skipped).Is ts
      { x with children := x.children ++ [t.leaf skipped] } := by
  refine h.modifyFrame (fun i hi => ?_) rfl
  have hadd : (i.addToken t skipped).pending =
      { i.pending with children := i.pending.children ++ [t.leaf skipped] } := rfl
  rw [hadd, hi]

theorem emit (h : r.Is ts x) (e : Event) :
    (r.emit e).Is ts (x.onto { x.toStanding with marks := x.marks ++ e.mark?.toList }) :=
  ⟨h.stream, h.strategy, h.errors, (r.marks_emit e).trans (by rw [h.marks]; rfl), h.state, h.stack,
    h.frames⟩

/-- An event that tells of no recovery does not show. -/
theorem emit_silent (h : r.Is ts x) {e : Event} (he : e.mark? = none) : (r.emit e).Is ts x := by
  have h' := h.emit e
  rwa [he, Option.toList_none, List.append_nil] at h'

/-- A step of a repair is carried out. -/
theorem carryOut (h : r.Is ts x) (step : RepairStep) :
    (r.carryOut step).Is ts (x.onto { x.toStanding with
      errors := x.errors + [step].countP RepairStep.isReport
      marks := x.marks ++ [step].filterMap RepairStep.mark?
      children := x.children ++ [step].filterMap RepairStep.leaf? }) := by
  rw [filterMap_singleton, filterMap_singleton]
  cases step with
  | event e =>
    simp only [RepairStep.leaf?, Option.toList_none, List.append_nil]
    exact h.emit e
  | consume t skipped =>
    have h' := h.addToken t skipped
    refine Run.Is.emit (x := { x with children := x.children ++ [t.leaf skipped] }) ?_
      (.consume t skipped)
    dsimp only
    split
    · exact h'
    · exact ⟨h'.stream, h'.strategy, h'.errors, h'.marks, h'.state, h'.stack, h'.frames⟩
  | report lexical d =>
    refine ⟨h.stream, h.strategy, congrArg (· + 1) h.errors, ?_, h.state, h.stack, ?_⟩
    · have hpush : (r.carryOut (.report lexical d)).marks =
          (r.noteLexErrors lexical).marks ++ d.mark?.toList := by
        rw [Run.carryOut, Run.marks, Array.toList_push, List.filterMap_append, filterMap_singleton]
        rfl
      rw [hpush, Run.marks_noteLexErrors, h.marks]
      rfl
    · simp only [RepairStep.leaf?, Option.toList_none, List.append_nil]
      exact h.frames

theorem carryOut_foldl (steps : List RepairStep) (h : r.Is ts x) :
    (steps.foldl Run.carryOut r).Is ts (x.onto { x.toStanding with
      errors := x.errors + steps.countP RepairStep.isReport
      marks := x.marks ++ steps.filterMap RepairStep.mark?
      children := x.children ++ steps.filterMap RepairStep.leaf? }) := by
  induction steps generalizing r x with
  | nil =>
    rw [List.filterMap_nil, List.filterMap_nil, List.append_nil, List.append_nil]
    exact h
  | cons step steps ih =>
    have h' := ih (h.carryOut step)
    rw [← List.singleton_append, List.countP_append, List.filterMap_append, List.filterMap_append,
      ← Nat.add_assoc, ← List.append_assoc, ← List.append_assoc]
    exact h'

/-- What the strategy does is carried out in full. -/
theorem consult {α : Type} {Q : α → Run → Prop} (h : r.Is ts x) (interp : Interpreter)
    (work : Site → Repairing α)
    (hwork : ∀ repair : Repair, repair.Is ts x.toStanding x.toStanding →
      (work ⟨interp.network, interp.vocabulary, x.state, x.stack⟩).Yields repair fun a repair' =>
        ∃ y, repair'.Is ts x.toStanding y ∧ ∀ r', r'.Is ts (x.onto y) → Q a r') :
    Q ((interp.consult work).run r).1 ((interp.consult work).run r).2 := by
  obtain ⟨y, hy, hQ⟩ := hwork { strategy := r.strategy, stream := r.stream }
    ⟨h.stream, h.strategy, rfl, List.append_nil _, List.append_nil _⟩
  rw [← h.state, ← h.stack] at hy hQ
  refine hQ _ ?_
  generalize hsite : (⟨interp.network, interp.vocabulary, r.state, r.stack⟩ : Site) = site at hy
  generalize hrepair : ((work site).run { strategy := r.strategy, stream := r.stream }).2 = repair
    at hy
  have hrun : ((interp.consult work).run r).2 = repair.steps.foldl Run.carryOut
      { r with strategy := repair.strategy, stream := repair.stream } := by
    rw [← hrepair, ← hsite]
    rfl
  have hmoved : ({ r with strategy := repair.strategy, stream := repair.stream } : Run).Is ts
      (x.onto { y with errors := x.errors, marks := x.marks, children := x.children }) :=
    ⟨hy.stream, hy.strategy, h.errors, h.marks, h.state, h.stack, h.frames⟩
  have hfold := hmoved.carryOut_foldl repair.steps
  rw [hrun]
  have hy' : y = { y with
      errors := x.errors + repair.steps.countP RepairStep.isReport
      marks := x.marks ++ repair.steps.filterMap RepairStep.mark?
      children := x.children ++ repair.steps.filterMap RepairStep.leaf? } := by
    have herrors : x.errors + repair.steps.countP RepairStep.isReport = y.errors := hy.errors
    have hmarks : x.marks ++ repair.steps.filterMap RepairStep.mark? = y.marks := hy.marks
    have hchildren : x.children ++ repair.steps.filterMap RepairStep.leaf? = y.children :=
      hy.children
    rw [herrors, hmarks, hchildren]
  rw [hy']
  exact hfold

end Run.Is

end AdaptiveLL
