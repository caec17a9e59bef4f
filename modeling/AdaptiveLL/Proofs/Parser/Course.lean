/-
Runs that take one course.

Runs that are alike make the same step and are alike behind it: neither the way the
tokens were supplied, nor what was told, nor the nodes that are being built have a
part in what a run does next.
-/
import AdaptiveLL.Proofs.Parser.Alike
import AdaptiveLL.Proofs.Parser.Begin

namespace AdaptiveLL

namespace Likeness

variable (L : Likeness)

/-- Invocations that differ in what was built for them at most. -/
structure Invocations (i i' : Invocation) : Prop where
  rest : i' = { i with node := i'.node }
  node : L.oneTree → i.node = i'.node

/-- Runs that differ in what they have fetched, told and built at most. -/
structure Runs (r r' : Run) : Prop where
  stream : L.Streams r.stream r'.stream
  state : r.state = r'.state
  stack : r.stack = r'.stack
  frames : List.Forall₂ L.Invocations r.frames r'.frames
  strategy : r.strategy = r'.strategy
  metrics : r.metrics = r'.metrics
  notes : L.notes r.notes r'.notes
  calls : r.calls = r'.calls
  tree : L.oneTree → r.tree = r'.tree

variable {L}

namespace Invocations

variable {i i' : Invocation}

/-- A change that is made to both, of the node or beside it. -/
theorem change (h : L.Invocations i i') {f : Invocation → Invocation}
    (hrest : ∀ i node, f { i with node } = { f i with node := (f { i with node }).node })
    (hnode : i.node = i'.node → (f i).node = (f i').node) : L.Invocations (f i) (f i') := by
  refine ⟨?_, fun hone => hnode (h.node hone)⟩
  have hf := hrest i i'.node
  rwa [← h.rest] at hf

theorem eq_of_oneTree (h : L.Invocations i i') (hone : L.oneTree) : i = i' := by
  rw [h.rest, ← h.node hone]

theorem rule (h : L.Invocations i i') : i.rule = i'.rule := by rw [h.rest]

theorem follow (h : L.Invocations i i') : i.follow = i'.follow := by rw [h.rest]

theorem precedence (h : L.Invocations i i') : i.precedence = i'.precedence := by rw [h.rest]

theorem failed (h : L.Invocations i i') : i.failed = i'.failed := by rw [h.rest]

theorem startIndex (h : L.Invocations i i') : i.startIndex = i'.startIndex := by rw [h.rest]

theorem addToken (h : L.Invocations i i') (t : Token) (isError : Bool) :
    L.Invocations (i.addToken t isError) (i'.addToken t isError) :=
  h.change (f := fun i => i.addToken t isError) (fun _ _ => rfl)
    fun hnode => by rw [Invocation.addToken, Invocation.addToken, hnode]

theorem wrap (h : L.Invocations i i') : L.Invocations i.wrap i'.wrap :=
  h.change (f := Invocation.wrap) (fun _ _ => rfl)
    fun hnode => by rw [Invocation.wrap, Invocation.wrap, hnode]

theorem bindLabel (h : L.Invocations i i') (name : String) (t : Token) :
    L.Invocations (i.bindLabel name t) (i'.bindLabel name t) := by
  have hnode (i : Invocation) : (i.bindLabel name t).node = i.node := by
    unfold Invocation.bindLabel
    split <;> rfl
  refine h.change (f := fun i => i.bindLabel name t) (fun i node => ?_) fun hsame => ?_
  · dsimp only [Invocation.bindLabel]
    split <;> rfl
  · rw [hnode, hnode, hsame]

theorem setAlt (h : L.Invocations i i') (alt : Nat) :
    L.Invocations { i with node := i.node.setAlt alt } { i' with node := i'.node.setAlt alt } :=
  h.change (f := fun i => { i with node := i.node.setAlt alt }) (fun _ _ => rfl)
    fun hnode => by rw [hnode]

theorem fail (h : L.Invocations i i') : L.Invocations i.fail i'.fail :=
  h.change (f := Invocation.fail) (fun _ _ => rfl)
    fun hnode => by rw [Invocation.fail, Invocation.fail, hnode]

end Invocations

namespace Runs

variable {r r' : Run}

/-- What no difference between invocations touches is the same of the current ones. -/
theorem current (h : L.Runs r r') {β : Type} {f : Invocation → β}
    (hf : ∀ {i i' : Invocation}, L.Invocations i i' → f i = f i') :
    r.frames.head?.map f = r'.frames.head?.map f := by
  have hframes := h.frames
  generalize r.frames = frames at hframes
  generalize r'.frames = frames' at hframes
  cases hframes with
  | nil => rfl
  | cons hi _ => exact congrArg some (hf hi)

theorem precedence (h : L.Runs r r') : r.precedence = r'.precedence :=
  congrArg (Option.getD · 0) (h.current Invocations.precedence)

theorem modifyFrame (h : L.Runs r r') {f : Invocation → Invocation}
    (hf : ∀ i i', L.Invocations i i' → L.Invocations (f i) (f i')) :
    L.Runs (r.modifyFrame f) (r'.modifyFrame f) := by
  unfold Run.modifyFrame
  have hframes := h.frames
  generalize r.frames = frames at hframes
  generalize r'.frames = frames' at hframes
  cases hframes with
  | nil => exact h
  | cons hi hrest => exact { h with frames := .cons (hf _ _ hi) hrest }

theorem emit (h : L.Runs r r') (e : Event) : L.Runs (r.emit e) (r'.emit e) :=
  { h with notes := L.push _ h.notes }

/-- Both runs count the same. -/
theorem count (h : L.Runs r r') (f : Metrics → Metrics) :
    L.Runs { r with metrics := f r.metrics } { r' with metrics := f r'.metrics } :=
  { h with metrics := congrArg f h.metrics }

theorem noteLexErrors (h : L.Runs r r') {errors errors' : List LexError}
    (herrors : L.supply.Errors errors errors') :
    L.Runs (r.noteLexErrors errors) (r'.noteLexErrors errors') :=
  { h with notes := L.lexical herrors h.notes }

theorem flushLexErrors (h : L.Runs r r') : L.Runs r.flushLexErrors r'.flushLexErrors := by
  obtain ⟨herrors, hstream⟩ := h.stream.takeErrors
  have htaken : L.Runs { r with stream := r.stream.takeErrors.2 }
      { r' with stream := r'.stream.takeErrors.2 } := { h with stream := hstream }
  exact htaken.noteLexErrors herrors

/-- Steps of repairs that are alike are carried out alike. -/
theorem carryOut (h : L.Runs r r') {step step' : RepairStep} (hstep : L.Steps step step') :
    L.Runs (r.carryOut step) (r'.carryOut step') := by
  cases hstep with
  | event e => exact h.emit e
  | consume t skipped =>
    have h' := h.modifyFrame fun i i' hi => hi.addToken t skipped
    unfold Run.carryOut
    dsimp only
    split
    · exact h'.emit _
    · exact (h'.count fun m => { m with tokens := m.tokens + 1 }).emit _
  | report hlexical d =>
    have h' := h.noteLexErrors hlexical
    exact { h' with
      notes := L.push _ h'.notes
      metrics := congrArg (fun m : Metrics => { m with errors := m.errors + 1 }) h.metrics }

theorem carryOutAll (h : L.Runs r r') {steps steps' : List RepairStep}
    (hsteps : List.Forall₂ L.Steps steps steps') :
    L.Runs (steps.foldl Run.carryOut r) (steps'.foldl Run.carryOut r') := by
  induction hsteps generalizing r r' with
  | nil => exact h
  | cons hstep _ ih => exact ih (h.carryOut hstep)

/-- A repair is carried out: the strategy and the stream are those that it leaves. -/
theorem repaired (h : L.Runs r r') {x x' : Repair} (hx : L.Repairs x x') :
    L.Runs (x.steps.foldl Run.carryOut { r with strategy := x.strategy, stream := x.stream })
      (x'.steps.foldl Run.carryOut { r' with strategy := x'.strategy, stream := x'.stream }) := by
  have hleft : L.Runs { r with strategy := x.strategy, stream := x.stream }
      { r' with strategy := x'.strategy, stream := x'.stream } :=
    { h with strategy := hx.strategy, stream := hx.stream }
  exact hleft.carryOutAll hx.steps

theorem enterRule (h : L.Runs r r') (n : Network) (rule : RuleIndex) (follow : StateId)
    (precedence : Int) :
    L.Runs (r.enterRule n rule follow precedence) (r'.enterRule n rule follow precedence) := by
  obtain ⟨hindex, hstream⟩ := reads_index r.stream r'.stream h.stream
  have hopened : L.Runs
      { r with
        stream := r.stream.index.2
        frames := { rule, follow, precedence, startIndex := r.stream.index.1
                    node := { rule := n.ruleName rule } } :: r.frames }
      { r' with
        stream := r'.stream.index.2
        frames := { rule, follow, precedence, startIndex := r'.stream.index.1
                    node := { rule := n.ruleName rule } } :: r'.frames } :=
    { h with
      stream := hstream
      frames := .cons ⟨by rw [hindex], fun _ => rfl⟩ h.frames }
  have hentered := hopened.emit (.enterRule (n.ruleName rule) r.stream.index.1)
  unfold Run.enterRule
  dsimp only
  rw [← hindex] at hentered ⊢
  split
  · exact hentered
  · exact { hentered with state := rfl }

theorem exitRule (h : L.Runs r r') (n : Network) : L.Runs (r.exitRule n) (r'.exitRule n) := by
  have hframes := h.frames
  unfold Run.exitRule
  generalize r.frames = frames at hframes
  generalize r'.frames = frames' at hframes
  cases hframes with
  | nil => exact h
  | @cons i i' rest rest' hi hrest =>
    have h' := h.emit (.exitRule (n.ruleName i.rule) i.failed)
    dsimp only
    rw [← hi.rule, ← hi.failed]
    cases hrest with
    | nil =>
      exact { h' with
        frames := .nil
        tree := fun hone => congrArg (fun node => some (NodeDraft.close node)) (hi.node hone) }
    | @cons caller caller' others others' hcaller hothers =>
      refine { h' with
        frames := .cons ?_ hothers
        stack := congrArg List.tail h.stack
        state := hi.follow }
      refine ⟨?_, fun hone => ?_⟩
      · rw [hcaller.rest]
      · rw [hi.node hone, hcaller.node hone]

theorem frames_length (h : L.Runs r r') : r.frames.length = r'.frames.length :=
  h.frames.length_eq

end Runs

end Likeness

namespace Repairing

variable {α β : Type} {site : Site}

/-- A mismatch that the work returns is in order, whatever the repair. -/
def FailsInOrder (w : Repairing (Except Mismatch α)) : Prop :=
  ∀ r m, (w.run r).1 = .error m → m.InOrder

theorem failsInOrder_bind {w : Repairing β} {f : β → Repairing (Except Mismatch α)}
    (hf : ∀ b, (f b).FailsInOrder) : FailsInOrder (w >>= f) :=
  fun _ m hm => hf _ _ m hm

theorem failsInOrder_ok (a : α) : FailsInOrder (pure (.ok a)) := fun _ _ => nofun

theorem failsInOrder_unexpected :
    FailsInOrder (α := α) (unexpected site >>= fun m => pure (.error m)) := by
  intro r m hm
  cases hm
  trivial

theorem failsInOrder_repairInline : (repairInline site).FailsInOrder := by
  refine failsInOrder_bind fun next => ?_
  cases next with
  | some t => exact failsInOrder_bind fun _ => failsInOrder_ok t
  | none =>
    refine failsInOrder_bind fun inserts => ?_
    cases inserts with
    | true =>
      exact failsInOrder_bind fun _ => failsInOrder_bind fun _ => failsInOrder_bind fun _ =>
        failsInOrder_ok _
    | false => exact failsInOrder_unexpected

theorem failsInOrder_dropBefore : (dropBefore site).FailsInOrder := by
  refine failsInOrder_bind fun next => ?_
  cases next with
  | some => exact failsInOrder_ok ()
  | none => exact failsInOrder_unexpected

theorem failsInOrder_align : (align site).FailsInOrder := by
  refine failsInOrder_bind fun recovering => ?_
  split
  · exact failsInOrder_ok ()
  · refine failsInOrder_bind fun current => ?_
    split
    · exact failsInOrder_ok ()
    · split
      · exact failsInOrder_dropBefore
      · exact failsInOrder_dropBefore
      · exact failsInOrder_dropBefore
      · exact failsInOrder_dropBefore
      · exact failsInOrder_bind fun _ => failsInOrder_bind fun _ => failsInOrder_ok ()
      · exact failsInOrder_bind fun _ => failsInOrder_bind fun _ => failsInOrder_ok ()
      · exact failsInOrder_ok ()

end Repairing

namespace Running

variable {α β : Type} {L : Likeness} {w w' : Running α} {f f' : α → Running β} {r r' : Run}

/-- From two runs the works come to one result and to runs that are alike, and a
mismatch that stops them is in order. -/
def Agrees (L : Likeness) (w w' : Running α) (r r' : Run) : Prop :=
  Agree L.Runs w.run w'.run r r' ∧
    ∀ m, ((ExceptT.run w).run r).1 = .error (.mismatch m) → m.InOrder

/-- A work that comes to one result and to runs that are alike from all runs that
are alike. -/
def Repeats (L : Likeness) (w : Running α) : Prop :=
  ∀ r r', L.Runs r r' → w.Agrees L w r r'

/-- A work that gives a result meets no mismatch. -/
theorem inOrder_of_ok {a : α} {m : Mismatch} (h : Except.ok a = .error (Obstacle.mismatch m)) :
    m.InOrder := by
  cases h

theorem agrees_pure (h : L.Runs r r') (a : α) : Agrees L (pure a) (pure a) r r' :=
  ⟨agree_pure h _, fun _ hm => inOrder_of_ok hm⟩

theorem agrees_throw (h : L.Runs r r') {o : Obstacle} (ho : ∀ m, o = .mismatch m → m.InOrder) :
    Agrees L (throw o : Running α) (throw o) r r' :=
  ⟨agree_pure h _, fun m hm => ho m (Except.error.inj hm)⟩

theorem agrees_bind (h : w.Agrees L w' r r')
    (hf : ∀ a s s', ((ExceptT.run w).run r).1 = .ok a → L.Runs s s' → (f a).Agrees L (f' a) s s') :
    Agrees L (w >>= f) (w' >>= f') r r' := by
  have hrun {w : Running α} {f : α → Running β} (r : Run) :
      (ExceptT.run (w >>= f)).run r =
        (ExceptT.bindCont f ((ExceptT.run w).run r).1).run ((ExceptT.run w).run r).2 := rfl
  obtain ⟨⟨hresult, hruns⟩, horder⟩ := h
  rw [Agrees, Agree, hrun, hrun]
  generalize hx : (ExceptT.run w).run r = x at hresult hruns horder
  generalize (ExceptT.run w').run r' = x' at hresult hruns
  obtain ⟨_ | a, s⟩ := x
  · obtain ⟨o, s'⟩ := x'
    obtain rfl : Except.error _ = o := hresult
    exact ⟨⟨rfl, hruns⟩, fun m hm => horder m (congrArg _ (Except.error.inj hm))⟩
  · obtain ⟨o, s'⟩ := x'
    obtain rfl : Except.ok a = o := hresult
    exact hf a s s' (by rw [hx]) hruns

theorem agrees_get {f f' : Run → Running β} (h : (f r).Agrees L (f' r') r r') :
    Agrees L (get >>= f) (get >>= f') r r' :=
  h

theorem agrees_set {s s' : Run} (h : L.Runs s s') :
    Agrees L (set s : Running PUnit) (set s') r r' :=
  ⟨⟨rfl, h⟩, fun _ hm => inOrder_of_ok hm⟩

theorem agrees_lift {w w' : StateM Run α} (h : Agree L.Runs w w' r r') :
    Agrees L (ExceptT.lift w) (ExceptT.lift w') r r' :=
  ⟨⟨congrArg Except.ok h.1, h.2⟩, fun _ hm => inOrder_of_ok hm⟩

theorem repeats_pure (a : α) : Repeats L (pure a : Running α) := fun _ _ h => agrees_pure h a

theorem repeats_bind (hw : w.Repeats L) (hf : ∀ a, (f a).Repeats L) : Repeats L (w >>= f) :=
  fun r r' h => agrees_bind (hw r r' h) fun a s s' _ h' => hf a s s' h'

theorem repeats_throw_defect (d : NetworkDefect) : Repeats L (throw (.defect d) : Running α) :=
  fun _ _ h => agrees_throw h fun _ hm => by cases hm

theorem repeats_modify {g : Run → Run} (hg : ∀ r r', L.Runs r r' → L.Runs (g r) (g r')) :
    Repeats L (modify g : Running PUnit) :=
  fun r r' h => ⟨⟨rfl, hg r r' h⟩, fun _ hm => inOrder_of_ok hm⟩

theorem repeats_modifyGet {g : Run → α × Run}
    (hg : ∀ r r', L.Runs r r' → (g r).1 = (g r').1 ∧ L.Runs (g r).2 (g r').2) :
    Repeats L (modifyGet g : Running α) := by
  intro r r' h
  obtain ⟨hresult, hruns⟩ := hg r r' h
  exact ⟨⟨congrArg Except.ok hresult, hruns⟩, fun _ hm => inOrder_of_ok hm⟩

end Running

namespace Interpreter

open Likeness Running

variable {L : Likeness} {interp : Interpreter} {α : Type}

theorem repeats_onStream {f : TokenStream → α × TokenStream} (hf : L.Reads f) :
    (onStream f).Repeats L := by
  refine repeats_modifyGet fun r r' h => ?_
  obtain ⟨hanswer, hstream⟩ := hf r.stream r'.stream h.stream
  exact ⟨hanswer, { h with stream := hstream }⟩

/-- The strategy sees the same of both runs, and what it does is carried out alike. -/
theorem uniform_consult {work : Site → Repairing α}
    (hwork : ∀ site, Uniform L.Repairs (work site)) : Uniform L.Runs (interp.consult work) := by
  intro r r' h
  obtain ⟨hresult, hrepairs⟩ := hwork ⟨interp.network, interp.vocabulary, r.state, r.stack⟩
    { strategy := r.strategy, stream := r.stream } { strategy := r'.strategy, stream := r'.stream }
    ⟨h.strategy, h.stream, .nil⟩
  have hruns := h.repaired hrepairs
  have hconsult (r : Run) : (interp.consult work).run r =
      let x := (work ⟨interp.network, interp.vocabulary, r.state, r.stack⟩).run
        { strategy := r.strategy, stream := r.stream }
      (x.1, x.2.steps.foldl Run.carryOut
        { r with strategy := x.2.strategy, stream := x.2.stream }) := rfl
  rw [Agree, hconsult, hconsult]
  have hsite : (⟨interp.network, interp.vocabulary, r'.state, r'.stack⟩ : Site) =
      ⟨interp.network, interp.vocabulary, r.state, r.stack⟩ := by rw [h.state, h.stack]
  rw [hsite]
  exact ⟨hresult, hruns⟩

theorem repeats_tryRepair {work : Site → Repairing (Except Mismatch α)}
    (hwork : ∀ site, Uniform L.Repairs (work site)) (hfails : ∀ site, (work site).FailsInOrder) :
    (interp.tryRepair work).Repeats L := by
  intro r r' h
  refine agrees_bind (agrees_lift (uniform_consult hwork r r' h)) fun result s s' hresult hs => ?_
  cases result with
  | ok a => exact agrees_pure hs a
  | error m =>
    refine agrees_throw hs fun m' hm => ?_
    cases hm
    exact hfails _ _ m (Except.ok.inj hresult)

theorem repeats_failedPredicate (rule : RuleIndex) (predicate : String) :
    (interp.failedPredicate rule predicate : Running α).Repeats L := by
  refine repeats_bind (repeats_onStream (reads_peek 1)) fun t r r' h => agrees_get ?_
  rw [h.state, h.stack]
  exact agrees_throw h fun m hm => by cases hm; trivial

theorem runs_notePrediction {r r' : Run} (h : L.Runs r r') (id : StateId) (p : Prediction) :
    L.Runs (interp.notePrediction id p r) (interp.notePrediction id p r') := by
  have hseen := h.count fun m => { m with lookahead := max m.lookahead p.lookahead }
  have hambiguous := (hseen.count fun m => { m with ambiguities := m.ambiguities + 1 }).emit
    (.ambiguity ((interp.network.decisionOf? id).getD 0) p.conflicting p.alt)
  have hpredicted {r r' : Run} (h : L.Runs r r') (e : Event) : L.Runs
      (if interp.isRuleBody id then
        (r.emit e).modifyFrame fun i => { i with node := i.node.setAlt p.alt } else r.emit e)
      (if interp.isRuleBody id then
        (r'.emit e).modifyFrame fun i =>
          { i with node := i.node.setAlt p.alt } else r'.emit e) := by
    split
    · exact (h.emit e).modifyFrame fun i i' hi => hi.setAlt p.alt
    · exact h.emit e
  unfold notePrediction
  dsimp only
  by_cases hmany : p.isAmbiguous = true
  · rw [if_pos hmany, if_pos hmany]
    exact hpredicted hambiguous _
  · rw [if_neg hmany, if_neg hmany]
    exact hpredicted hseen _

theorem repeats_choose (id : StateId) (s : State) : (interp.choose id s).Repeats L := by
  intro r r' h
  refine agrees_get ?_
  dsimp only
  have hdecides := reads_decide ⟨id, r.stack, r.precedence⟩ interp.network interp.hooks r.calls
    r.stream r'.stream h.stream
  dsimp only at hdecides
  have hcalls := (h.stream.place.elim fun i hat => (Decision.decide_eq_of_at
    ⟨id, r.stack, r.precedence⟩ interp.network interp.hooks r.calls hat.1 hat.2).2)
  have horder : ∀ m, (Decision.decide interp.network interp.hooks ⟨id, r.stack, r.precedence⟩
      r.stream r.calls).1.1 = .error (.mismatch m) → m.InOrder := fun m hm =>
    h.stream.place.elim fun i hat => Decision.decide_inOrder _ _ _ _ hat.1 L.numbered hm
  have hdecision : (⟨id, r'.stack, r'.precedence⟩ : Decision) = ⟨id, r.stack, r.precedence⟩ := by
    rw [h.stack, h.precedence]
  rw [hdecision, ← h.calls]
  generalize Decision.decide interp.network interp.hooks ⟨id, r.stack, r.precedence⟩ r.stream
    r.calls = d at hdecides hcalls horder
  generalize Decision.decide interp.network interp.hooks ⟨id, r.stack, r.precedence⟩ r'.stream
    r.calls = d' at hdecides hcalls
  obtain ⟨⟨outcome, stream⟩, calls⟩ := d
  obtain ⟨⟨outcome', stream'⟩, calls'⟩ := d'
  obtain ⟨rfl, hstream⟩ := hdecides
  obtain rfl : calls = calls' := hcalls
  have hset : L.Runs
      { r with stream, calls, metrics.decisions := r.metrics.decisions + 1 }
      { r' with stream := stream', calls, metrics.decisions := r'.metrics.decisions + 1 } :=
    { h with
      stream := hstream
      calls := rfl
      metrics := congrArg (fun m : Metrics => { m with decisions := m.decisions + 1 }) h.metrics }
  refine agrees_bind (agrees_set hset) fun _ r₁ r₁' _ h₁ => ?_
  cases outcome with
  | ok p =>
    exact repeats_bind (repeats_modify fun r r' h => runs_notePrediction h id p)
      (fun _ => repeats_pure _) r₁ r₁' h₁
  | error failure =>
    cases failure with
    | defect defect => exact repeats_throw_defect defect r₁ r₁' h₁
    | mismatch m =>
      dsimp only
      split
      · exact agrees_pure h₁ _
      · exact agrees_throw h₁ fun m' hm => by
          cases hm
          exact horder m rfl

theorem repeats_repairInline : interp.repairInline.Repeats L := by
  refine repeats_bind (repeats_tryRepair (fun _ => Repairing.uniform_repairInline)
    fun _ => Repairing.failsInOrder_repairInline) fun t => ?_
  dsimp only
  split
  · have hinsert : (modify fun r => r.modifyFrame (·.addToken t true) : Running Unit).Repeats L :=
      repeats_modify fun r r' h => h.modifyFrame fun i i' hi => hi.addToken t true
    exact repeats_bind hinsert fun _ => repeats_pure t
  · exact repeats_pure t

theorem repeats_bindLabel (s : State) (matched : Token) : (bindLabel s matched).Repeats L := by
  unfold bindLabel
  split
  · exact repeats_pure ()
  · exact repeats_modify fun r r' h => h.modifyFrame fun i i' hi => hi.bindLabel _ matched

theorem repeats_matchToken (s : State) (t : Transition) : (interp.matchToken s t).Repeats L := by
  refine repeats_bind (repeats_onStream (reads_peek 1)) fun current => ?_
  dsimp only
  split
  · have hconsult : Uniform L.Runs (interp.consult fun _ => do
        Repairing.matched
        Repairing.consume false) :=
      uniform_consult fun _ => uniform_bind Repairing.uniform_matched fun _ =>
        Repairing.uniform_consume false
    exact repeats_bind (fun r r' h => agrees_lift (hconsult r r' h)) fun _ =>
      repeats_bind (repeats_pure current) fun _ => repeats_bindLabel s _
  · exact repeats_bind repeats_repairInline fun matched => repeats_bindLabel s matched

/-- The same rules are pending at the same places in both runs. -/
theorem any_frames {r r' : Run} (h : L.Runs r r') (rule : RuleIndex) (index : Nat)
    (precedence : Int) :
    (r.frames.any fun i => i.rule == rule && i.startIndex == index && i.precedence == precedence) =
      r'.frames.any fun i =>
        i.rule == rule && i.startIndex == index && i.precedence == precedence := by
  have hframes := h.frames
  generalize r.frames = frames at hframes
  generalize r'.frames = frames' at hframes
  induction hframes with
  | nil => rfl
  | cons hi _ ih => rw [List.any_cons, List.any_cons, ih, hi.rule, hi.startIndex, hi.precedence]

theorem repeats_callRule (rule : RuleIndex) (follow : StateId) (precedence : Int) :
    (interp.callRule rule follow precedence).Repeats L := by
  refine repeats_bind (repeats_onStream reads_index) fun index r r' h => agrees_get ?_
  dsimp only
  rw [any_frames h]
  split
  · exact repeats_throw_defect _ r r' h
  · refine agrees_set (Runs.enterRule ?_ interp.network rule follow precedence)
    exact { h with stack := by rw [h.stack, h.precedence] }

theorem repeats_invocationText : invocationText.Repeats L := by
  intro r r' h
  refine agrees_get ?_
  dsimp only
  rw [h.current Invocations.startIndex]
  refine agrees_bind (repeats_onStream (reads_previous 1) r r' h) fun t? s s' _ hs => ?_
  cases t? with
  | none => exact agrees_pure hs ""
  | some t =>
    dsimp only
    split
    · rename_i hplace
      exact repeats_onStream (reads_text (by simp at hplace; omega)) s s' hs
    · exact agrees_pure hs ""

theorem runs_callAction {r r' : Run} (h : L.Runs r r') (text read : String) :
    L.Runs (interp.callAction text read r) (interp.callAction text read r') := by
  obtain ⟨stream, state, stack, frames, strategy, metrics, notes, calls, tree⟩ := r
  obtain ⟨stream', state', stack', frames', strategy', metrics', notes', calls', tree'⟩ := r'
  obtain rfl : state = state' := h.state
  obtain rfl : stack = stack' := h.stack
  have hframes : List.Forall₂ L.Invocations frames frames' := h.frames
  cases hframes with
  | nil => exact h
  | cons hi hrest =>
    refine { h with calls := ?_ }
    change calls.push _ = calls'.push _
    rw [hi.rest, show calls = calls' from h.calls]

theorem repeats_performAction (text : String) : (interp.performAction text).Repeats L :=
  repeats_bind repeats_invocationText fun read =>
    repeats_modify fun _ _ h => runs_callAction h text read

theorem repeats_askPredicate (rule : RuleIndex) (text : String) :
    (interp.askPredicate rule text).Repeats L := by
  refine repeats_modifyGet fun r r' h => ?_
  have hask := congrArg (interp.hooks.ask (interp.network.ruleName rule) text).run h.calls
  exact ⟨congrArg (fun x => x.1) hask, { h with calls := congrArg (fun x => x.2) hask }⟩

theorem repeats_goto (target : StateId) : (take.goto target).Repeats L :=
  repeats_modify fun _ _ h => { h with state := rfl }

theorem repeats_take (s : State) (t : Transition) : (interp.take s t).Repeats L := by
  cases t with
  | epsilon target =>
    unfold take
    dsimp only
    split
    · exact repeats_bind (repeats_modify fun r r' h => h.modifyFrame fun i i' hi => hi.wrap)
        fun _ => repeats_goto target
    · exact repeats_goto target
  | atom target => exact repeats_bind (repeats_matchToken s _) fun _ => repeats_goto target
  | set target => exact repeats_bind (repeats_matchToken s _) fun _ => repeats_goto target
  | wildcard target => exact repeats_bind (repeats_matchToken s _) fun _ => repeats_goto target
  | call target rule follow precedence => exact repeats_callRule rule follow precedence
  | predicate target rule index =>
    refine repeats_bind (repeats_askPredicate rule _) fun holds => ?_
    cases holds with
    | true => exact repeats_goto target
    | false => exact repeats_bind (repeats_failedPredicate rule _) fun _ => repeats_goto target
  | precedence target level =>
    intro r r' h
    refine agrees_get ?_
    dsimp only
    rw [h.precedence]
    split
    · exact repeats_bind (repeats_failedPredicate s.rule _) (fun _ => repeats_goto target) r r' h
    · exact repeats_goto target r r' h
  | action target rule index =>
    exact repeats_bind (repeats_performAction _) fun _ => repeats_goto target

theorem repeats_alternative (id : StateId) (s : State) : (interp.alternative id s).Repeats L := by
  have halign : (interp.tryRepair Repairing.align).Repeats L :=
    repeats_tryRepair (fun _ => Repairing.uniform_align) fun _ => Repairing.failsInOrder_align
  unfold alternative
  split
  · exact repeats_bind halign fun _ => repeats_choose id s
  · dsimp only
    split
    · exact repeats_bind halign fun _ => repeats_pure 1
    · exact repeats_pure 1

theorem repeats_visit (id : StateId) (s : State) : (interp.visit id s).Repeats L := by
  refine repeats_bind (repeats_alternative id s) fun alt => ?_
  split
  · exact repeats_throw_defect _
  · exact repeats_take s _

theorem runs_abandon {r r' : Run} (h : L.Runs r r') :
    L.Runs (interp.abandon r) (interp.abandon r') := by
  have hfailed := h.modifyFrame fun i i' hi => hi.fail
  have hrule : ((r.modifyFrame Invocation.fail).frames.head?.bind fun i =>
      interp.network.rule? i.rule) =
        ((r'.modifyFrame Invocation.fail).frames.head?.bind fun i =>
          interp.network.rule? i.rule) := by
    have hcurrent := congrArg (Option.bind · interp.network.rule?)
      (hfailed.current Invocations.rule)
    rwa [Option.bind_map, Option.bind_map] at hcurrent
  unfold abandon
  dsimp only
  rw [hrule]
  split
  · exact hfailed
  · exact { hfailed with state := rfl }

theorem uniform_giveUp {m : Mismatch} (hm : m.InOrder) : Uniform L.Runs (interp.giveUp m) :=
  uniform_bind (uniform_modify fun _ _ h => runs_abandon h) fun _ =>
    uniform_consult fun _ => uniform_bind (Repairing.uniform_reportMismatch hm) fun _ =>
      Repairing.uniform_resynchronize

/-- Runs that are alike make the same step. -/
theorem uniform_step (interp : Interpreter) : Uniform L.Runs interp.step := by
  intro r r' h
  refine agree_get ?_
  rw [← h.state]
  cases hstate : interp.network.getState r.state with
  | error d => exact agree_pure h _
  | ok s =>
    dsimp only
    split
    · rw [h.frames_length]
      exact ⟨rfl, h.exitRule interp.network⟩
    · have hagrees : (interp.visit r.state s).Agrees L _ r r' := repeats_visit r.state s r r' h
      obtain ⟨hvisit, horder⟩ := hagrees
      refine agree_bind hvisit fun h₁ => ?_
      generalize ((ExceptT.run (interp.visit r.state s)).run r).1 = outcome at horder ⊢
      cases outcome with
      | ok => exact agree_pure h₁ _
      | error o =>
        cases o with
        | defect d => exact agree_pure h₁ _
        | mismatch m =>
          exact uniform_bind (uniform_giveUp (horder m rfl)) (fun _ => uniform_pure _) _ _ h₁

/-- Runs that are alike take one course: they end in one way, and are alike where
they end. -/
theorem loop_alike {r r' : Run} (h : L.Runs r r') (steps : Nat) :
    (interp.loop steps r).1 = (interp.loop steps r').1 ∧
      L.Runs (interp.loop steps r).2 (interp.loop steps r').2 := by
  induction steps generalizing r r' with
  | zero => exact ⟨rfl, h⟩
  | succ steps ih =>
    obtain ⟨hend, hruns⟩ := interp.uniform_step r r' h
    rw [loop, loop]
    generalize interp.step.run r = x at hend hruns
    generalize interp.step.run r' = x' at hend hruns
    obtain ⟨ending, s⟩ := x
    obtain ⟨ending', s'⟩ := x'
    obtain rfl : ending = ending' := hend
    cases ending with
    | running => exact ih hruns
    | finished => exact ⟨rfl, hruns.flushLexErrors⟩
    | defect d => exact ⟨rfl, hruns⟩

end Interpreter

/-- Two parses end in one way, count the same, and come to the same events and the
same calls of the host program. -/
structure ParseReport.SameCourse (report report' : ParseReport) : Prop where
  halt : report.halt = report'.halt
  metrics : report.result.metrics = report'.result.metrics
  events : report.run.events = report'.run.events
  calls : report.run.calls = report'.run.calls

section

variable {L : Likeness} {p p' : Parser}

/-- The options say what is handed out of a run. -/
theorem Parser.result_parse (p : Parser) (hooks : Hooks) (steps : Nat) (start : String) :
    (p.parse hooks steps start).result =
      { tree := if p.options.buildTree then
            (p.parse hooks steps start).run.tree.map ParseTree.asRoot else none
        diagnostics := (p.parse hooks steps start).run.diagnostics.take p.options.maxErrors
        metrics := (p.parse hooks steps start).run.metrics } := by
  rw [ParseReport.result, p.parser_parse]
  rfl

/-- Parses with one grammar on streams that are alike take one course. -/
theorem Parser.parse_alike (p p' : Parser) (hgrammar : p.grammar = p'.grammar)
    (hstream : L.Streams p.stream p'.stream) (hnotes : L.notes #[] #[]) (hooks : Hooks)
    (steps : Nat) (start : String) :
    (p.parse hooks steps start).halt = (p'.parse hooks steps start).halt ∧
      L.Runs (p.parse hooks steps start).run (p'.parse hooks steps start).run := by
  have hbegin : L.Runs { stream := p.stream } { stream := p'.stream } :=
    ⟨hstream, rfl, rfl, .nil, rfl, rfl, hnotes, rfl, fun _ => rfl⟩
  cases hstart : (p.grammar.network.ruleIndex? start).bind fun i =>
      (p.grammar.network.rule? i).map fun info => (i, info) with
  | none =>
    have hstart' := hstart
    rw [hgrammar] at hstart'
    simp only [Parser.parse, hstart, hstart']
    exact ⟨rfl, hbegin⟩
  | some found =>
    obtain ⟨rule, hindex, hfound⟩ := Option.bind_eq_some_iff.mp hstart
    obtain ⟨span, hspan, _⟩ := Option.map_eq_some_iff.mp hfound
    have hentered := hbegin.enterRule p.grammar.network rule span.stop 0
    rw [Parser.parse_eq hindex hspan]
    rw [hgrammar] at hindex hspan hentered ⊢
    rw [Parser.parse_eq hindex hspan]
    exact Interpreter.loop_alike hentered steps

end

end AdaptiveLL
