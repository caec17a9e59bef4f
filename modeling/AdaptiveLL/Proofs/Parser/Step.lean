/-
What one step can do to a run.

Before a decision the input may be made to fit.  Then a transition is taken, or a
mismatch ends the rule.  A step is defective only where a rule is called that is
being parsed from the same place with the same precedence.
-/
import AdaptiveLL.Proofs.Parser.View
import AdaptiveLL.Proofs.Prediction.Choice

namespace AdaptiveLL

namespace Running

variable {α β : Type} {w : Running α} {f : α → Running β} {r : Run} {E : Obstacle → Run → Prop}

/-- The work ends with a result or an obstacle, and a run of some kind. -/
def Ends (w : Running α) (r : Run) (Q : α → Run → Prop) (E : Obstacle → Run → Prop) : Prop :=
  match (ExceptT.run w).run r with
  | (.ok a, r') => Q a r'
  | (.error o, r') => E o r'

theorem Ends.mono {Q Q' : α → Run → Prop} (h : w.Ends r Q E) (hQ : ∀ a r', Q a r' → Q' a r') :
    w.Ends r Q' E := by
  unfold Ends at h ⊢
  split at h
  · exact hQ _ _ h
  · exact h

theorem ends_pure {a : α} {Q : α → Run → Prop} (h : Q a r) : Ends (pure a : Running α) r Q E :=
  h

theorem ends_throw {o : Obstacle} {Q : α → Run → Prop} (h : E o r) :
    Ends (throw o : Running α) r Q E :=
  h

theorem ends_bind {Q : β → Run → Prop} (h : w.Ends r (fun a r' => (f a).Ends r' Q E) E) :
    Ends (w >>= f) r Q E := by
  have hrun : (ExceptT.run (w >>= f)).run r = match (ExceptT.run w).run r with
      | (.ok a, r') => (ExceptT.run (f a)).run r'
      | (.error o, r') => (.error o, r') := by
    change (match (ExceptT.run w).run r with
      | (x, r') => (ExceptT.bindCont f x).run r') = _
    rcases (ExceptT.run w).run r with ⟨_ | _, _⟩ <;> rfl
  unfold Ends at h ⊢
  rw [hrun]
  rcases hw : (ExceptT.run w).run r with ⟨_ | _, _⟩ <;> rw [hw] at h <;> exact h

theorem ends_lift {w : StateM Run α} {Q : α → Run → Prop} (h : Q (w.run r).1 (w.run r).2) :
    Ends (ExceptT.lift w) r Q E :=
  h

theorem ends_get {Q : Run → Run → Prop} (h : Q r r) : Ends (get : Running Run) r Q E :=
  h

theorem ends_set {r' : Run} {Q : PUnit → Run → Prop} (h : Q ⟨⟩ r') :
    Ends (set r' : Running PUnit) r Q E :=
  h

theorem ends_modify {g : Run → Run} {Q : PUnit → Run → Prop} (h : Q ⟨⟩ (g r)) :
    Ends (modify g : Running PUnit) r Q E :=
  h

theorem ends_modifyGet {g : Run → α × Run} {Q : α → Run → Prop} (h : Q (g r).1 (g r).2) :
    Ends (modifyGet g : Running α) r Q E :=
  h

end Running

namespace View

def decision (x : View) : Decision :=
  ⟨x.state, x.stack, x.current.precedence⟩

/-- Some invocation of the rule with this precedence began at the place of the run. -/
def Pends (x : View) (rule : RuleIndex) (precedence : Int) : Prop :=
  ∃ i ∈ x.frames, i.rule = rule ∧ i.startIndex = x.place ∧ i.precedence = precedence

/-- The token at the place of a run is of a type with this property. -/
def Sees (ts : List Token) (x : View) (P : TokenType → Prop) : Prop :=
  ∃ t, ts[x.place]? = some t ∧ P t.type

end View

/-- Each token knows its place. -/
def Numbered (ts : List Token) : Prop :=
  ∀ (i : Nat) t, ts[i]? = some t → t.index = i

theorem Numbered.not_placeholder {ts : List Token} (h : Numbered ts) {i : Nat} {t : Token}
    (ht : ts[i]? = some t) : t.isPlaceholder = false := by
  have hindex : ¬t.index < 0 := by
    rw [h i t ht]
    exact Int.not_lt.mpr (Int.natCast_nonneg i)
  rw [Token.isPlaceholder, decide_eq_false hindex, Bool.false_and]

namespace Interpreter

def site (interp : Interpreter) (x : View) : Site :=
  ⟨interp.network, interp.vocabulary, x.state, x.stack⟩

/-- Whether an empty transition begins another round of the operators of a rule. -/
def beginsRound (interp : Interpreter) (s : State) (t : Transition) : Bool :=
  s.role == .starLoopEntry true && !interp.endsLoop t

def hop (interp : Interpreter) (s : State) (target : StateId) (x : View) : View :=
  (if interp.beginsRound s (.epsilon target) then x.wrap else x).goto target

end Interpreter

/-- The input is made to fit before a state is passed. -/
inductive Ready (interp : Interpreter) (ts : List Token) (x : View) : View → Prop where
  | fits : Ready interp ts x x
  | drop (hunfit : (interp.site x).Unfit ts x.toStanding) :
      Ready interp ts x (x.onto ((x.report ts).eat ts true).matched)
  | skip {set y} (hunfit : (interp.site x).Unfit ts x.toStanding)
      (hskips : Skips ts set (x.report ts) y) : Ready interp ts x (x.onto y)

/-- A prediction from the state of the run can have this outcome. -/
def Predicts (interp : Interpreter) (ts : List Token) (x : View)
    (outcome : Except PredictionFailure Prediction) : Prop :=
  ∃ (stream : TokenStream) (calls : Array HookCall), stream.At ts x.place ∧
    (x.decision.decide interp.network interp.hooks stream calls).1.1 = outcome

/-- How an alternative of a state comes to be taken. -/
inductive Chosen (interp : Interpreter) (ts : List Token) (s : State) (x : View) : Nat → Prop where
  | predicted {p : Prediction} (hdecision : s.isDecision = true)
    (h : Predicts interp ts x (.ok p)) :
      Chosen interp ts s x p.alt
  | left {alt : Nat} {m : Mismatch} (hdecision : s.isDecision = true)
      (hout : interp.wayOut? s = some alt) (h : Predicts interp ts x (.error (.mismatch m))) :
      Chosen interp ts s x alt
  | only (hsingle : s.isDecision = false) : Chosen interp ts s x 1

/-- A transition out of a state is taken. -/
inductive Takes (interp : Interpreter) (ts : List Token) (s : State) (x : View) :
    Transition → View → Prop where
  | hop {target} : Takes interp ts s x (.epsilon target) (interp.hop s target x)
  | pass {t : Transition} (hsilent : t.isEpsilon = true) (hcall : t.call? = none)
      (hpass : x.spot.admits t = true) (hhop : ∀ target, t ≠ .epsilon target) :
      Takes interp ts s x t (x.goto t.target)
  | call {start rule follow level} (hfresh : ¬x.Pends rule level) :
      Takes interp ts s x (.call start rule follow level)
        (x.call (interp.network.ruleName rule) start rule follow level)
  | read {t : Transition} {tok : Token} (htok : ts[x.place]? = some tok)
      (ha : t.accepts interp.network.maxType tok.type = true) :
      Takes interp ts s x t ((x.onto (x.matched.eat ts false)).goto t.target)
  | drop {t : Transition} {tok : Token} (hreads : t.isEpsilon = false)
      (ha : x.Sees ts fun a => t.accepts interp.network.maxType a = false)
      (htok : ts[nextPlace ts x.place]? = some tok)
      (hexpected : (interp.site x).expected.contains tok.type = true) :
      Takes interp ts s x t
        ((x.onto (((x.report ts).eat ts true).matched.eat ts false)).goto t.target)
  | insert {t : Transition} {tok : Token} (hreads : t.isEpsilon = false)
      (ha : x.Sees ts fun a => t.accepts interp.network.maxType a = false)
      (hbridges : (interp.site x).Bridges ts x.place) (htok : tok.isPlaceholder = true) :
      Takes interp ts s x t ((x.onto ((x.report ts).add tok)).goto t.target)

inductive Refuses (interp : Interpreter) (ts : List Token) (x : View) (t : Transition) : Prop where
  | unread (hreads : t.isEpsilon = false)
      (ha : x.Sees ts fun a => t.accepts interp.network.maxType a = false)
  | predicate {target rule index calls} (ht : t = .predicate target rule index)
      (hfails : interp.hooks.holds calls (interp.network.ruleName rule)
        (interp.network.predicateText index) = false)
  | precedence (hpass : x.spot.admits t = false)

inductive GivesUp (n : Network) (ts : List Token) (x : View) : View → Prop where
  | at {span : RuleSpan} {y : Standing} (hspan : n.rule? x.current.rule = some span)
      (hskips : Skips ts (n.recoverySet x.stack)
        (((x.report ts).force ts span.stop).note span.stop) y) :
      GivesUp n ts x ((x.fail.goto span.stop).onto y)

/-- One step of a run. -/
inductive Step (interp : Interpreter) (ts : List Token) (x : View) : View → Prop where
  | back {s caller outer} (hs : interp.network.state? x.state = some s) (hstop : s.isStop = true)
      (houter : x.outer = caller :: outer) : Step interp ts x (x.back caller outer)
  | branch {s y alt mark target} (hs : interp.network.state? x.state = some s)
      (hready : Ready interp ts x y) (hchosen : Chosen interp ts s y alt)
      (ht : s.transitions[alt - 1]? = some (.epsilon target)) :
      Step interp ts x (interp.hop s target (y.setAlt mark))
  | unfit {s y} (hs : interp.network.state? x.state = some s)
      (hunfit : (interp.site x).Unfit ts x.toStanding) (hup : GivesUp interp.network ts x y) :
      Step interp ts x y
  | undecided {s y z m} (hs : interp.network.state? x.state = some s)
      (hdecision : s.isDecision = true) (hready : Ready interp ts x y)
      (hundecided : Predicts interp ts y (.error (.mismatch m)))
      (hup : GivesUp interp.network ts y z) : Step interp ts x z
  | take {s t y} (hs : interp.network.state? x.state = some s) (ht : s.transitions = [t])
      (htakes : Takes interp ts s x t y) : Step interp ts x y
  | refused {s t y} (hs : interp.network.state? x.state = some s) (ht : s.transitions = [t])
      (hrefuses : Refuses interp ts x t) (hup : GivesUp interp.network ts x y) : Step interp ts x y

namespace Run.Is

open Running

variable {α : Type} {interp : Interpreter} {ts : List Token} {r : Run} {x : View}
  {E : Obstacle → Run → Prop}

theorem onStream {f : TokenStream → α × TokenStream} {Q : α → Run → Prop} (h : r.Is ts x)
    (hf : (f r.stream).2.At ts x.place)
    (hQ : ∀ r', r'.Is ts x → Q (f r.stream).1 r') : (Interpreter.onStream f).Ends r Q E :=
  ends_modifyGet (hQ _ ⟨hf, h.strategy, h.errors, h.marks, h.state, h.stack, h.frames⟩)

theorem peek {Q : Token → Run → Prop} (h : r.Is ts x)
    (hQ : ∀ t r', ts[x.place]? = some t → r'.Is ts x → Q t r') :
    (Interpreter.onStream fun s => s.peek 1).Ends r Q E := by
  obtain ⟨ht, hat⟩ := h.stream.peek_one
  exact h.onStream hat fun r' h' => hQ _ r' ht h'

/-- What does not show in the view can change. -/
theorem with_calls (h : r.Is ts x) (calls : Array HookCall) : ({ r with calls } : Run).Is ts x :=
  ⟨h.stream, h.strategy, h.errors, h.marks, h.state, h.stack, h.frames⟩

theorem goto (h : r.Is ts x) (target : StateId) :
    ({ r with state := target } : Run).Is ts (x.goto target) :=
  ⟨h.stream, h.strategy, h.errors, h.marks, rfl, h.stack, h.frames⟩

theorem precedence (h : r.Is ts x) : r.precedence = x.current.precedence := by
  obtain ⟨i, outer, heq, hi, _⟩ := h.exists_frame
  rw [Run.precedence, heq]
  exact congrArg (fun p => p.toEntry.precedence) hi

theorem lift_consult {work : Site → Repairing α} {Q : α → Run → Prop} (h : r.Is ts x)
    (hwork : ∀ repair : Repair, repair.Is ts x.toStanding x.toStanding →
      (work (interp.site x)).Yields repair fun a repair' =>
        ∃ y, repair'.Is ts x.toStanding y ∧ ∀ r', r'.Is ts (x.onto y) → Q a r') :
    Ends (ExceptT.lift (interp.consult work)) r Q E :=
  ends_lift (h.consult interp work hwork)

theorem tryRepair {work : Site → Repairing (Except Mismatch α)} {Q : α → Run → Prop}
    (h : r.Is ts x)
    (hwork : ∀ repair : Repair, repair.Is ts x.toStanding x.toStanding →
      (work (interp.site x)).Yields repair fun result repair' =>
        ∃ y, repair'.Is ts x.toStanding y ∧ ∀ r', r'.Is ts (x.onto y) →
          (∀ a, result = .ok a → Q a r') ∧ ∀ m, result = .error m → E (.mismatch m) r') :
    (interp.tryRepair work).Ends r Q E := by
  refine ends_bind (h.lift_consult fun repair hrepair => ?_)
  obtain ⟨y, hy, hQ⟩ := hwork repair hrepair
  refine ⟨y, hy, fun r' h' => ?_⟩
  obtain ⟨hok, herror⟩ := hQ r' h'
  split
  · exact ends_pure (hok _ ‹_›)
  · exact ends_throw (herror _ ‹_›)

/-- Before a decision the input fits, or it is made to fit, or the decision is given
up. -/
theorem align {Q : Unit → Run → Prop} (h : r.Is ts x)
    (hready : ∀ y r', Ready interp ts x y → r'.Is ts y → Q () r')
    (hunfit : ∀ m r', (interp.site x).Unfit ts x.toStanding → r'.Is ts x → E (.mismatch m) r') :
    (interp.tryRepair Repairing.align).Ends r Q E := by
  refine h.tryRepair fun repair hrepair => hrepair.align ?_ ?_ ?_ ?_
  · exact fun repair' h' =>
      ⟨_, h', fun r' hr' => ⟨fun _ _ => hready x r' .fits hr', fun _ h => nomatch h⟩⟩
  · exact fun repair' hu h' =>
      ⟨_, h', fun r' hr' => ⟨fun _ _ => hready _ r' (.drop hu) hr', fun _ h => nomatch h⟩⟩
  · exact fun set y repair' hu hskips h' =>
      ⟨_, h', fun r' hr' => ⟨fun _ _ => hready _ r' (.skip hu hskips) hr', fun _ h => nomatch h⟩⟩
  · exact fun m repair' hu h' =>
      ⟨_, h', fun r' hr' => ⟨fun _ h => (nomatch h), fun _ _ => hunfit _ r' hu hr'⟩⟩

/-- A token that did not match is repaired, or it is not. -/
theorem repairInline {Q : Token → Run → Prop} (h : r.Is ts x) (hnumbered : Numbered ts)
    (hdrop : ∀ t r', ts[nextPlace ts x.place]? = some t →
      (interp.site x).expected.contains t.type = true →
      r'.Is ts (x.onto (((x.report ts).eat ts true).matched.eat ts false)) → Q t r')
    (hinsert : ∀ t r', t.isPlaceholder = true → (interp.site x).Bridges ts x.place →
      r'.Is ts (x.onto ((x.report ts).add t)) → Q t r')
    (hfail : ∀ m r', r'.Is ts x → E (.mismatch m) r') : interp.repairInline.Ends r Q E := by
  refine ends_bind (h.tryRepair fun repair hrepair => hrepair.repairInline ?_ ?_ ?_)
  · intro t repair' ht hexpected h'
    refine ⟨_, h', fun r' hr' => ⟨fun t' ht' => ?_, fun _ h => nomatch h⟩⟩
    obtain rfl := Except.ok.inj ht'
    rw [hnumbered.not_placeholder ht]
    exact hdrop t r' ht hexpected hr'
  · intro t repair' hplaceholder hbridges h'
    refine ⟨_, h', fun r' hr' => ⟨fun t' ht' => ?_, fun _ h => nomatch h⟩⟩
    obtain rfl := Except.ok.inj ht'
    rw [hplaceholder]
    exact ends_bind (ends_modify (hinsert t _ hplaceholder hbridges (hr'.addToken t true)))
  · exact fun m repair' h' =>
      ⟨_, h', fun r' hr' => ⟨fun _ h => (nomatch h), fun _ _ => hfail _ r' hr'⟩⟩

/-- A transition that reads is taken, or its token is missing. -/
theorem matchToken {Q : Unit → Run → Prop} {s : State} {t : Transition} (h : r.Is ts x)
    (hnumbered : Numbered ts) (hreads : t.isEpsilon = false)
    (htakes : ∀ y r', Takes interp ts s x t (y.goto t.target) → r'.Is ts y → Q () r')
    (hrefuses : ∀ m r', Refuses interp ts x t → r'.Is ts x → E (.mismatch m) r') :
    (interp.matchToken s t).Ends r Q E := by
  have hlabel {y : View} (htaken : Takes interp ts s x t (y.goto t.target))
    (matched : Token) (r' : Run)
      (h' : r'.Is ts y) : (Interpreter.bindLabel s matched).Ends r' Q E := by
    unfold Interpreter.bindLabel
    split
    · exact htakes y r' htaken h'
    · exact ends_modify (htakes y _ htaken (h'.modifyHidden fun i => i.pending_bindLabel _ matched))
  refine ends_bind (h.peek fun current r₁ hcurrent h₁ => ?_)
  dsimp only
  by_cases ha : t.accepts interp.network.maxType current.type = true
  · rw [if_pos ha]
    refine ends_bind (h₁.lift_consult fun repair hrepair => ?_)
    refine Repairing.yields_bind
      (hrepair.matched fun repair' h' => h'.consume fun repair'' h'' => ?_)
    refine ⟨_, h'', fun r₂ h₂ => ends_bind (ends_pure ?_)⟩
    exact hlabel (.read hcurrent ha) current r₂ h₂
  · have hsees : x.Sees ts fun a => t.accepts interp.network.maxType a = false :=
      ⟨current, hcurrent, by simpa using ha⟩
    rw [if_neg ha]
    refine ends_bind (h₁.repairInline hnumbered ?_ ?_ ?_)
    · exact fun tok r' htok hexpected h' => hlabel (.drop hreads hsees htok hexpected) tok r' h'
    · exact fun tok r' htok hbridges h' => hlabel (.insert hreads hsees hbridges htok) tok r' h'
    · exact fun m r' h' => hrefuses m r' (.unread hreads hsees) h'

/-- A rule is called, unless it is pending from the same place with the same
precedence. -/
theorem callRule {Q : Unit → Run → Prop} {rule : RuleIndex} {follow : StateId} {level : Int}
    {span : RuleSpan} (h : r.Is ts x) (hspan : interp.network.rule? rule = some span)
    (hcall : ∀ r', ¬x.Pends rule level →
      r'.Is ts (x.call (interp.network.ruleName rule) span.start rule follow level) → Q () r')
    (hpends : x.Pends rule level → ∀ r', r'.Is ts x →
      E (.defect (.recursionCycle (interp.network.ruleName rule) x.place)) r') :
    (interp.callRule rule follow level).Ends r Q E := by
  obtain ⟨hindex, hat⟩ := h.stream.index
  refine ends_bind (h.onStream hat fun r₁ h₁ => ends_bind (ends_get ?_))
  rw [hindex]
  have hiff : (r₁.frames.any fun i =>
      i.rule == rule && i.startIndex == x.place && i.precedence == level) = true ↔
        x.Pends rule level := by
    rw [View.Pends, ← h₁.frames, List.any_eq_true]
    simp [Invocation.pending, and_assoc]
  dsimp only
  by_cases hpend : x.Pends rule level
  · rw [if_pos (hiff.mpr hpend)]
    exact ends_bind (ends_throw (hpends hpend r₁ h₁))
  · rw [if_neg fun hany => hpend (hiff.mp hany)]
    have hstack : (⟨follow, r₁.precedence⟩ :: r₁.stack : CallStack) =
        callers { rule, follow, precedence := level, startIndex := x.place
                  name := interp.network.ruleName rule } x.frames := by
      rw [h₁.precedence, h₁.stack]
      rfl
    have henter := Run.is_enterRule (r := { r₁ with stack := ⟨follow, r₁.precedence⟩ :: r₁.stack })
      h₁.stream hspan h₁.frames hstack
    exact ends_set (hcall _ hpend ⟨henter.stream, henter.strategy.trans h₁.strategy,
      henter.errors.trans h₁.errors, henter.marks.trans h₁.marks, henter.state, henter.stack,
      henter.frames⟩)

/-- One more level of the current node is begun. -/
theorem wrap (h : r.Is ts x) : (r.modifyFrame Invocation.wrap).Is ts x.wrap := by
  refine h.modifyFrame (fun i hi => ?_) rfl
  have hwrap : i.wrap.pending = { i.pending with
      failed := false
      children := [.node i.pending.name i.pending.alt i.pending.failed i.pending.children] } := rfl
  rw [hwrap, hi]
  rfl

/-- An action does not show in the view. -/
theorem performAction {Q : Unit → Run → Prop} {text : String} (h : r.Is ts x)
    (hQ : ∀ r', r'.Is ts x → Q () r') : (interp.performAction text).Ends r Q E := by
  have hcall (read : String) (r₁ : Run) (h₁ : r₁.Is ts x) :
      Ends (modify (interp.callAction text read)) r₁ Q E := by
    refine ends_modify (hQ _ ?_)
    unfold Interpreter.callAction
    split
    · exact h₁
    · exact h₁.with_calls _
  refine ends_bind (ends_bind (ends_get (ends_bind (h.onStream (h.stream.previous 1)
    fun r₁ h₁ => ?_))))
  split
  · exact hcall _ r₁ h₁
  · split
    · exact h₁.onStream (h₁.stream.text _ _) fun r₂ h₂ => hcall _ r₂ h₂
    · exact hcall _ r₁ h₁

theorem askPredicate {Q : Bool → Run → Prop} {rule : RuleIndex} {text : String} (h : r.Is ts x)
    (hQ : ∀ value r', value = interp.hooks.holds r.calls (interp.network.ruleName rule) text →
      r'.Is ts x → Q value r') : (interp.askPredicate rule text).Ends r Q E :=
  ends_modifyGet (hQ _ _ rfl (h.with_calls _))

/-- A predicate that does not hold is a mismatch. -/
theorem failedPredicate {Q : α → Run → Prop} {rule : RuleIndex} {predicate : String}
    (h : r.Is ts x) (hfails : ∀ m r', r'.Is ts x → E (.mismatch m) r') :
    (interp.failedPredicate rule predicate).Ends r Q E :=
  ends_bind (h.peek fun _ r' _ h' => ends_bind (ends_get (ends_throw (hfails _ r' h'))))

/-- An empty transition is passed. -/
theorem takeEpsilon {Q : Unit → Run → Prop} {s : State} {target : StateId} (h : r.Is ts x)
    (hQ : ∀ r', r'.Is ts (interp.hop s target x) → Q () r') :
    (interp.take s (.epsilon target)).Ends r Q E := by
  simp only [Interpreter.take]
  split
  · rename_i hround
    have hhop : interp.hop s target x = x.wrap.goto target :=
      congrArg (fun y => View.goto y target) (if_pos hround)
    exact ends_bind (ends_modify (ends_modify (hQ _ (hhop ▸ h.wrap.goto target))))
  · rename_i hround
    have hhop : interp.hop s target x = x.goto target :=
      congrArg (fun y => View.goto y target) (if_neg hround)
    exact ends_modify (hQ _ (hhop ▸ h.goto target))

/-- A transition is taken, or refused, or it calls a rule that is pending already. -/
theorem take {v : Vocabulary} {rules : List Rule} {Q : Unit → Run → Prop} {s : State}
    {t : Transition} (hruns : interp.network.Runs v rules) (hnumbered : Numbered ts) (h : r.Is ts x)
    (hs : interp.network.state? x.state = some s) (ht : t ∈ s.transitions)
    (htakes : ∀ y r', Takes interp ts s x t y → r'.Is ts y → Q () r')
    (hrefuses : ∀ m r', Refuses interp ts x t → r'.Is ts x → E (.mismatch m) r')
    (hpends : ∀ start rule follow level, t = .call start rule follow level → x.Pends rule level →
      ∀ r', r'.Is ts x →
        E (.defect (.recursionCycle (interp.network.ruleName rule) x.place)) r') :
    (interp.take s t).Ends r Q E := by
  have hgoto {y : View} {target : StateId} (htaken : Takes interp ts s x t (y.goto target))
      (r' : Run) (h' : r'.Is ts y) : (Interpreter.take.goto target).Ends r' Q E :=
    ends_modify (htakes _ _ htaken (h'.goto target))
  cases t with
  | epsilon target => exact h.takeEpsilon fun r' h' => htakes _ r' .hop h'
  | atom | set | wildcard =>
    exact ends_bind (h.matchToken hnumbered rfl (fun y r' htaken h' => hgoto htaken r' h')
      fun m r' hrefused h' => hrefuses m r' hrefused h')
  | call start rule follow level =>
    obtain ⟨_, span, _, _, hlaid, rfl⟩ := hruns.laid.call_target hs ht
    exact h.callRule hlaid.span_eq (fun r' hfresh h' => htakes _ r' (.call hfresh) h')
      fun hpend => hpends _ rule follow level rfl hpend
  | predicate target rule index =>
    refine ends_bind (h.askPredicate fun value r₁ hvalue h₁ => ?_)
    dsimp only
    split
    · exact hgoto (.pass rfl rfl rfl nofun) r₁ h₁
    · rename_i hfails
      rw [Bool.not_eq_true, hvalue] at hfails
      exact ends_bind (h₁.failedPredicate fun m r₂ h₂ => hrefuses m r₂ (.predicate rfl hfails) h₂)
  | precedence target level =>
    refine ends_bind (ends_get ?_)
    rw [h.precedence]
    dsimp only
    split
    · rename_i hlevel
      have hpass : x.spot.admits (.precedence target level) = false :=
        decide_eq_false (Int.not_le.mpr hlevel)
      exact ends_bind (h.failedPredicate fun m r₁ h₁ => hrefuses m r₁ (.precedence hpass) h₁)
    · rename_i hlevel
      have hpass : x.spot.admits (.precedence target level) = true :=
        decide_eq_true (Int.not_lt.mp hlevel)
      exact hgoto (.pass rfl rfl hpass nofun) r h
  | action target rule index =>
    exact ends_bind (h.performAction fun r' h' => hgoto (.pass rfl rfl rfl nofun) r' h')

end Run.Is

end AdaptiveLL
