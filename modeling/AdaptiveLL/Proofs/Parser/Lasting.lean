/-
What lasts through a run.

A run asks its stream, calls the host program, notes events, and goes from state to
state and from rule to rule.  A property that each of these keeps lasts until the
strategy is asked.  If all that the strategy can do keeps it as well, it lasts
through whole steps, and through the loop of the parser.
-/
import AdaptiveLL.Proofs.Parser.Begin
import AdaptiveLL.Proofs.Parser.TreeCalls
import AdaptiveLL.Proofs.Prediction.Choice
import AdaptiveLL.Proofs.Prediction.Streams

namespace AdaptiveLL

/-- The token that does not fit has been fetched, if that is what stops a work. -/
def Obstacle.Seen (s : TokenStream) : Obstacle → Prop
  | .mismatch m => m.Seen s
  | .defect _ => True

namespace Running

variable {α β : Type} {P : Run → Prop} {E : Obstacle → Run → Prop}

/-- What holds of a run before the work holds of it behind the work, unless
something stops it. -/
def Within (P : Run → Prop) (E : Obstacle → Run → Prop) (w : Running α) : Prop :=
  ∀ r, P r → w.Ends r (fun _ => P) E

theorem within_pure (a : α) : Within P E (pure a) := fun _ h => ends_pure h

theorem within_bind {w : Running α} {f : α → Running β} (hw : w.Within P E)
    (hf : ∀ a, (f a).Within P E) : Within P E (w >>= f) :=
  fun r h => ends_bind ((hw r h).mono fun a r' h' => hf a r' h')

theorem within_modify {g : Run → Run} (hg : ∀ r, P r → P (g r)) : Within P E (modify g) :=
  fun r h => ends_modify (hg r h)

end Running

/-- A property of runs on these tokens that lasts while the strategy is not asked. -/
structure Run.Lasting (ts : List Token) (P : Run → Prop) : Prop where
  placed : ∀ {r}, P r → ∃ i, r.stream.At ts i
  stream : ∀ {r s}, P r → r.stream.Fetches s → (∀ i, r.stream.At ts i → s.At ts i) →
    P { r with stream := s }
  of_same : ∀ {r r'}, P r → r'.stream = r.stream → r'.frames = r.frames →
    r'.metrics.tokens = r.metrics.tokens → r'.notes = r.notes → r'.tree = r.tree → P r'
  emit : ∀ {r e}, P r → e.treeCall? = none → P (r.emit e)
  hidden : ∀ {r} {f : Invocation → Invocation}, P r → (∀ i, (f i).node = i.node) →
    (∀ i, (f i).failed = i.failed) → P (r.modifyFrame f)
  setAlt : ∀ {r}, P r → ∀ alt, P (r.modifyFrame fun i => { i with node := i.node.setAlt alt })
  fail : ∀ {r}, P r → P (r.modifyFrame Invocation.fail)
  enterRule : ∀ {r}, P r → ∀ n rule follow level, P (r.enterRule n rule follow level)

namespace Run.Lasting

open Running Interpreter

section

variable {interp : Interpreter} {ts : List Token} {P : Run → Prop} {r : Run}

theorem notePrediction (hP : Lasting ts P) (h : P r) (interp : Interpreter) (id : StateId)
    (p : Prediction) : P (interp.notePrediction id p r) := by
  have hsetAlt (r' : Run) (h' : P r') : P (if interp.isRuleBody id then
      r'.modifyFrame fun i => { i with node := i.node.setAlt p.alt } else r') := by
    split
    · exact hP.setAlt h' p.alt
    · exact h'
  unfold Interpreter.notePrediction
  dsimp only
  refine hsetAlt _ (hP.emit ?_ rfl)
  split
  · have hcounted : P { r with metrics :=
        { r.metrics with
          lookahead := max r.metrics.lookahead p.lookahead
          ambiguities := r.metrics.ambiguities + 1 } } := hP.of_same h rfl rfl rfl rfl rfl
    exact hP.emit hcounted rfl
  · exact hP.of_same h rfl rfl rfl rfl rfl

theorem abandon (hP : Lasting ts P) (h : P r) (interp : Interpreter) : P (interp.abandon r) := by
  have hfail := hP.fail h
  unfold Interpreter.abandon
  dsimp only
  split
  · exact hfail
  · exact hP.of_same hfail rfl rfl rfl rfl rfl

end

section

variable {α : Type} {interp : Interpreter} {ts : List Token} {P : Run → Prop} {r : Run}
  {E : Obstacle → Run → Prop}

theorem onStream (hP : Lasting ts P) {f : TokenStream → α × TokenStream}
    (hfetches : ∀ s : TokenStream, s.Fetches (f s).2)
    (hf : ∀ s i, s.At ts i → (f s).2.At ts i) : (Interpreter.onStream f).Within P E :=
  fun r h => ends_modifyGet (hP.stream h (hfetches r.stream) fun i => hf r.stream i)

theorem peek (hP : Lasting ts P) : (Interpreter.onStream fun s => s.peek 1).Within P E :=
  hP.onStream (fun s => s.fetches_peek 1) fun _ _ hat => hat.peek_one.2

theorem bindLabel (hP : Lasting ts P) (s : State) (t : Token) :
    (Interpreter.bindLabel s t).Within P E := by
  unfold Interpreter.bindLabel
  split
  · exact within_pure _
  · refine within_modify fun r h => hP.hidden h (fun i => ?_) fun i => ?_
    all_goals
      unfold Invocation.bindLabel
      split <;> rfl

theorem goto (hP : Lasting ts P) (target : StateId) : (Interpreter.take.goto target).Within P E :=
  within_modify fun _ h => hP.of_same h rfl rfl rfl rfl rfl

theorem performAction (hP : Lasting ts P) (text : String) :
    (interp.performAction text).Within P E := by
  have hcall (read : String) :
      (modify (interp.callAction text read) : Running Unit).Within P E := by
    refine within_modify fun r h => ?_
    unfold callAction
    split
    · exact h
    · exact hP.of_same h rfl rfl rfl rfl rfl
  have hread : invocationText.Within P E := fun r h => by
    refine ends_bind (ends_get (within_bind (hP.onStream (fun s => s.fetches_previous 1)
      fun _ _ hat => hat.previous 1) ?_ r h))
    intro t
    split
    · exact within_pure _
    · split
      · exact hP.onStream (fun s => s.fetches_text _ _) fun _ _ hat => hat.text _ _
      · exact within_pure _
  exact within_bind hread hcall

theorem askPredicate (hP : Lasting ts P) (rule : RuleIndex) (text : String) :
    (interp.askPredicate rule text).Within P E :=
  fun _ h => ends_modifyGet (hP.of_same h rfl rfl rfl rfl rfl)

variable (hE : ∀ {o r}, P r → o.Seen r.stream → E o r)

include hE in
theorem failedPredicate (hP : Lasting ts P) (rule : RuleIndex) (predicate : String) :
    (interp.failedPredicate rule predicate : Running α).Within P E := by
  intro r h
  obtain ⟨i, hat⟩ := hP.placed h
  have hpeek : P { r with stream := (r.stream.peek 1).2 } :=
    hP.stream h (r.stream.fetches_peek 1) fun _ hat => hat.peek_one.2
  exact ends_bind (ends_modifyGet (ends_bind (ends_get (ends_throw (hE hpeek (hat.peek_mem 1))))))

include hE in
theorem callRule (hP : Lasting ts P) (rule : RuleIndex) (follow : StateId) (precedence : Int) :
    (interp.callRule rule follow precedence).Within P E := by
  refine within_bind (hP.onStream (fun s => s.fetches_index) fun _ _ hat => hat.index.2)
    fun index r h => ?_
  refine ends_bind (ends_get ?_)
  have hcalled : P { r with stack := ⟨follow, r.precedence⟩ :: r.stack } :=
    hP.of_same h rfl rfl rfl rfl rfl
  dsimp only
  split
  · exact ends_bind (ends_throw (hE h trivial))
  · exact ends_set (hP.enterRule hcalled interp.network rule follow precedence)

include hE in
/-- Only a loop over operators puts what was built into a new node. -/
theorem take (hP : Lasting ts P) {s : State} {t : Transition}
    (hmatch : t.isEpsilon = false → (interp.matchToken s t).Within P E)
    (hwrap : s.role = .starLoopEntry true → ∀ r, P r → P (r.modifyFrame Invocation.wrap)) :
    (interp.take s t).Within P E := by
  cases t with
  | epsilon target =>
    simp only [Interpreter.take]
    split
    · rename_i hloop
      have hrole : s.role = .starLoopEntry true := by
        simpa using (Bool.and_eq_true_iff.mp hloop).1
      exact within_bind (within_modify (hwrap hrole)) fun _ => hP.goto target
    · exact hP.goto target
  | atom | set | wildcard => exact within_bind (hmatch rfl) fun _ => hP.goto _
  | call _ rule follow level => exact hP.callRule hE rule follow level
  | predicate target rule index =>
    refine within_bind (hP.askPredicate rule _) fun value => ?_
    dsimp only
    split
    · exact hP.goto target
    · exact within_bind (hP.failedPredicate hE rule _) fun _ => hP.goto target
  | precedence target level =>
    refine fun r h => ends_bind (ends_get ?_)
    dsimp only
    split
    · exact within_bind (hP.failedPredicate hE s.rule _) (fun _ => hP.goto target) r h
    · exact hP.goto target r h
  | action target rule index => exact within_bind (hP.performAction _) fun _ => hP.goto target

include hE in
theorem choose (hP : Lasting ts P) (id : StateId) (s : State) :
    (interp.choose id s).Within P E := by
  refine fun r h => ends_bind (ends_get ?_)
  let d : Decision := ⟨id, r.stack, r.precedence⟩
  obtain ⟨i, hi⟩ := hP.placed h
  have hfetches := d.fetches_decide interp.network interp.hooks r.stream r.calls
  have hat (i : Nat) (hi : r.stream.At ts i) := d.decide_at interp.network interp.hooks r.calls hi
  have hseen (m : Mismatch) := d.decide_seen interp.network interp.hooks r.calls hi (m := m)
  dsimp only
  generalize d.decide interp.network interp.hooks r.stream r.calls = result at hfetches hat hseen ⊢
  obtain ⟨⟨outcome, stream⟩, calls⟩ := result
  have hmoved : P { r with stream } := hP.stream h hfetches hat
  have hset : P { r with stream, calls, metrics.decisions := r.metrics.decisions + 1 } :=
    hP.of_same hmoved rfl rfl rfl rfl rfl
  refine ends_bind (ends_set ?_)
  cases outcome with
  | ok p =>
    refine within_bind (within_modify fun r' h' => ?_) (fun _ => within_pure p.alt) _ hset
    exact hP.notePrediction h' interp id p
  | error failure =>
    cases failure with
    | defect d => exact ends_throw (hE hset trivial)
    | mismatch m =>
      dsimp only
      split
      · exact ends_pure hset
      · exact ends_throw (hE hset (hseen m rfl))

include hE in
/-- A property lasts through a visit if it does through the work before a decision
and the reading of a token. -/
theorem visit (hP : Lasting ts P) {id : StateId} {s : State}
    (halign : (interp.tryRepair Repairing.align).Within P E)
    (hmatch : ∀ t ∈ s.transitions, t.isEpsilon = false → (interp.matchToken s t).Within P E)
    (hwrap : s.role = .starLoopEntry true → ∀ r, P r → P (r.modifyFrame Invocation.wrap)) :
    (interp.visit id s).Within P E := by
  refine within_bind ?_ fun alt => ?_
  · unfold alternative
    split
    · exact within_bind halign fun _ => hP.choose hE id s
    · split
      · exact within_bind halign fun _ => within_pure 1
      · exact within_pure 1
  · split
    · exact fun r h => ends_throw (hE h trivial)
    · exact hP.take hE (hmatch _ (List.mem_of_getElem? ‹_›)) hwrap

end

end Run.Lasting

/-- No token stands for one that is missing. -/
def Genuine (ts : List Token) : Prop :=
  ∀ t ∈ ts, t.isPlaceholder = false

theorem Numbered.genuine {ts : List Token} (h : Numbered ts) : Genuine ts := by
  intro t ht
  obtain ⟨i, hi⟩ := List.mem_iff_getElem?.mp ht
  exact h.not_placeholder hi

/-- A property of runs on these tokens that lasts when the strategy is asked, too:
some property of repairs that the strategy keeps says what is carried out. -/
structure Run.Enduring (ts : List Token) (P : Run → Prop) : Prop extends Lasting ts P where
  repair : ∀ {r}, P r → ∃ Q, Repair.Stable ts Q ∧ Q { strategy := r.strategy, stream := r.stream } ∧
    ∀ x, Q x → P (x.steps.foldl Run.carryOut { r with strategy := x.strategy, stream := x.stream })
  insert : ∀ {r}, P r → ∀ t, P ((r.emit (.insert t)).modifyFrame fun i => i.addToken t true)
  exitRule : ∀ {r}, P r → 1 < r.frames.length → ∀ n, P (r.exitRule n)

namespace Interpreter

open Running

variable {α : Type} {interp : Interpreter} {ts : List Token} {P : Run → Prop} {r : Run}
  {E : Obstacle → Run → Prop}

/-- What the strategy does is carried out when it has ended. -/
theorem ends_consult {work : Site → Repairing α} {Q : α → Run → Prop} {E : Obstacle → Run → Prop}
    (h : (work ⟨interp.network, interp.vocabulary, r.state, r.stack⟩).Yields
      { strategy := r.strategy, stream := r.stream } fun a repair =>
        Q a (repair.steps.foldl Run.carryOut
          { r with strategy := repair.strategy, stream := repair.stream })) :
    Ends (ExceptT.lift (interp.consult work)) r Q E :=
  ends_lift h

end Interpreter

namespace Run.Enduring

open Running Interpreter

variable {α : Type} {interp : Interpreter} {ts : List Token} {P : Run → Prop}

/-- Where a work is stopped the property holds, and a token that does not fit has
been fetched. -/
def Stops (P : Run → Prop) (o : Obstacle) (r : Run) : Prop :=
  P r ∧ o.Seen r.stream

theorem stops {o : Obstacle} {r : Run} (h : P r) (hseen : o.Seen r.stream) : Stops P o r :=
  ⟨h, hseen⟩

theorem align (hP : Enduring ts P) : (interp.tryRepair Repairing.align).Within P (Stops P) := by
  intro r h
  obtain ⟨Q, hQ, hbegin, hcarried⟩ := hP.repair h
  refine ends_bind (ends_consult ((hQ.align _ hbegin).mono fun result x hx => ?_))
  have hP' := hcarried x hx.1
  cases result with
  | ok a => exact ends_pure hP'
  | error m =>
    refine ends_throw ⟨hP', ?_⟩
    rw [stream_carryOut_foldl]
    exact hx.2 m rfl

/-- A placeholder is told of by the strategy, and it becomes a leaf behind that. -/
theorem repairInline (hP : Enduring ts P) (hgenuine : Genuine ts) :
    interp.repairInline.Within P (Stops P) := by
  intro r h
  obtain ⟨Q, hQ, hbegin, hcarried⟩ := hP.repair h
  refine ends_bind (ends_bind (ends_consult ?_))
  refine (hQ.repairInline hbegin).mono fun result x hx => ?_
  rcases hx with ⟨hx, hreal, hseen⟩ | ⟨t, x₀, rfl, hplaceholder, hx₀, rfl⟩
  · have hP' := hcarried x hx
    cases result with
    | error m =>
      refine ends_throw ⟨hP', ?_⟩
      rw [stream_carryOut_foldl]
      exact hseen m rfl
    | ok t =>
      refine ends_pure ?_
      rw [hgenuine t (hreal t rfl)]
      exact ends_pure hP'
  · refine ends_pure ?_
    rw [hplaceholder, List.foldl_append]
    exact ends_bind (ends_modify (ends_pure (hP.insert (hcarried x₀ hx₀) t)))

theorem matchToken (hP : Enduring ts P) (hgenuine : Genuine ts) (s : State) (t : Transition) :
    (interp.matchToken s t).Within P (Stops P) := by
  have hlasting := hP.toLasting
  have hmatched : Within P (Stops P) (ExceptT.lift (interp.consult fun _ => do
      Repairing.matched
      Repairing.consume false)) := by
    intro r h
    obtain ⟨Q, hQ, hbegin, hcarried⟩ := hP.repair h
    exact ends_consult ((hQ.eatMatched _ hbegin).mono fun _ x hx => hcarried x hx)
  refine within_bind hlasting.peek fun current => ?_
  dsimp only
  split
  · exact within_bind hmatched fun _ => within_bind (within_pure current) fun _ =>
      hlasting.bindLabel s _
  · exact within_bind (hP.repairInline hgenuine) fun _ => hlasting.bindLabel s _

theorem visit (hP : Enduring ts P) (hgenuine : Genuine ts) {id : StateId} {s : State}
    (hwrap : s.role = .starLoopEntry true → ∀ r, P r → P (r.modifyFrame Invocation.wrap)) :
    (interp.visit id s).Within P (Stops P) :=
  hP.toLasting.visit stops hP.align (fun t _ _ => hP.matchToken hgenuine s t) hwrap

theorem giveUp {r : Run} (hP : Enduring ts P) (h : P r) {m : Mismatch} (hseen : m.Seen r.stream) :
    P ((interp.giveUp m).run r).2 := by
  have habandon := hP.toLasting.abandon h interp
  have hstream : (interp.abandon r).stream = r.stream := by
    unfold Interpreter.abandon
    dsimp only
    split <;> exact (r.modifyFrame_rest _).1
  obtain ⟨Q, hQ, hbegin, hcarried⟩ := hP.repair habandon
  exact hcarried _ (hQ.giveUp hbegin (hstream.symm ▸ hseen))

end Run.Enduring

/-- What a step keeps holds behind it if the run goes on, and the last step leaves
the outermost rule. -/
def Interpreter.StepEnd.Lasts (n : Network) (P : Run → Prop) (r r' : Run) : StepEnd → Prop
  | .running => P r'
  | .finished => r.frames.length ≤ 1 ∧ r' = r.exitRule n
  | .defect _ => True

namespace Run.Enduring

open Interpreter

variable {interp : Interpreter} {ts : List Token} {P : Run → Prop} {r : Run}

/-- A property lasts through a step if it does when a loop over operators puts what
was built into a new node. -/
theorem step (hP : Enduring ts P) (hgenuine : Genuine ts)
    (hwrap : ∀ id s, interp.network.state? id = some s → s.role = .starLoopEntry true →
      ∀ r, P r → P (r.modifyFrame Invocation.wrap)) (h : P r) :
    (interp.step.run r).1.Lasts interp.network P r (interp.step.run r).2 := by
  refine interp.step_ends r (P := fun ending r' => ending.Lasts interp.network P r r')
    (fun _ _ => trivial) (fun s _ _ => ?_) fun s hget _ => ?_
  · split
    · exact ⟨‹_›, rfl⟩
    · exact hP.exitRule h (by omega) interp.network
  · refine ⟨_, _, hP.visit hgenuine (hwrap _ s (Graph.state?_of_getState hget)) r h, fun _ h' => h',
      fun _ _ _ => trivial, fun m _ h' => hP.giveUp h'.1 h'.2⟩

/-- A property lasts until the run finishes, and what is left then is to leave the
outermost rule. -/
theorem finished (hP : Enduring ts P) (hgenuine : Genuine ts)
    (hwrap : ∀ id s, interp.network.state? id = some s → s.role = .starLoopEntry true →
      ∀ r, P r → P (r.modifyFrame Invocation.wrap)) (h : P r) {steps : Nat}
    (hhalt : (interp.loop steps r).1 = .finished) :
    ∃ r', P r' ∧ r'.frames.length ≤ 1 ∧
      (interp.loop steps r).2 = (r'.exitRule interp.network).flushLexErrors := by
  induction steps generalizing r with
  | zero => cases hhalt
  | succ steps ih =>
    have hstep := hP.step hgenuine hwrap h
    rw [loop] at hhalt ⊢
    generalize interp.step.run r = result at hstep hhalt ⊢
    obtain ⟨ending, r'⟩ := result
    cases ending with
    | running => exact ih hstep hhalt
    | finished => exact ⟨r, h, hstep.1, congrArg Run.flushLexErrors hstep.2⟩
    | defect d => cases hhalt

end Run.Enduring

end AdaptiveLL
