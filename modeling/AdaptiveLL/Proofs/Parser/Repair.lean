/-
What the strategy can do to a parse.

The strategy moves the stream forward, reports mismatches and puts tokens in.  It
reports nothing while it is recovering, and it only stops to recover when a token
has been dropped so that the next one fits.  What it moves over becomes a leaf of
the node that is being built, and what it tells of its recoveries is marked.
-/
import AdaptiveLL.ParseTree
import AdaptiveLL.Proofs.Stream
import AdaptiveLL.Recovery

namespace AdaptiveLL

/-- What is told of recoveries while a parse goes on. -/
inductive Mark where
  /-- Recovery began at a token. -/
  | began (token : Token)
  /-- A mismatch was reported. -/
  | reported
  /-- A token was matched again. -/
  | ended
  /-- The end of the input was matched. -/
  | closed
deriving DecidableEq

/-- What an event tells of recoveries. -/
def Event.mark? : Event → Option Mark
  | .beginRecovery t => some (.began t)
  | .endRecovery => some .ended
  | .consume t skipped => if t.isEof && !skipped then some .closed else none
  | _ => none

/-- Text that the lexer could not match is no mismatch. -/
def Diagnostic.mark? (d : Diagnostic) : Option Mark :=
  if d.kind = .tokenRecognition then none else some .reported

/-- Where a parse stands with its input: the place of the stream, what the strategy
remembers, the mismatches reported so far, what was told of recoveries, and the
parts of the node that is being built. -/
structure Standing where
  place : Nat
  strategy : Strategy
  errors : Nat
  marks : List Mark
  children : List ParseTree

/-- The leaf of a token that is matched or skipped. -/
def Token.leaf (t : Token) (skipped : Bool) : ParseTree :=
  if skipped then .error t else .leaf t

namespace RepairStep

def isReport : RepairStep → Bool
  | .report _ _ => true
  | _ => false

/-- What a step tells of recoveries. -/
def mark? : RepairStep → Option Mark
  | .event e => e.mark?
  | .consume t skipped => (Event.consume t skipped).mark?
  | .report _ d => d.mark?

/-- The leaf of the token that is consumed. -/
def leaf? : RepairStep → Option ParseTree
  | .consume t skipped => some (t.leaf skipped)
  | _ => none

end RepairStep

theorem filterMap_singleton {α β : Type} (f : α → Option β) (a : α) :
    [a].filterMap f = (f a).toList := by
  rw [List.filterMap_cons]
  cases f a <;> rfl

/-- A repair that began with the standing `before` has this one now. -/
structure Repair.Is (ts : List Token) (before : Standing) (r : Repair) (x : Standing) : Prop where
  stream : r.stream.At ts x.place
  strategy : r.strategy = x.strategy
  errors : before.errors + r.steps.countP RepairStep.isReport = x.errors
  marks : before.marks ++ r.steps.filterMap RepairStep.mark? = x.marks
  children : before.children ++ r.steps.filterMap RepairStep.leaf? = x.children

namespace Standing

/-- The strategy begins to recover, with a report unless it is recovering already. -/
def report (ts : List Token) (x : Standing) : Standing :=
  if x.strategy.recovering then x
  else
    { x with
      strategy := { x.strategy with recovering := true }
      errors := x.errors + 1
      marks := x.marks ++ (ts[x.place]?).toList.map .began ++ [.reported] }

/-- The token at the place of the stream was consumed. -/
def eat (ts : List Token) (skipped : Bool) (x : Standing) : Standing :=
  { x with
    place := nextPlace ts x.place
    marks := x.marks ++ (ts[x.place]?).toList.filterMap fun t => (Event.consume t skipped).mark?
    children := x.children ++ (ts[x.place]?).toList.map fun t => t.leaf skipped }

def matched (x : Standing) : Standing :=
  { x with
    strategy := {}
    marks := x.marks ++ if x.strategy.recovering then [.ended] else [] }

def add (t : Token) (x : Standing) : Standing :=
  { x with children := x.children ++ [.error t] }

/-- If a rule ended in this state at this place before, the token there is skipped. -/
def force (ts : List Token) (x : Standing) (state : StateId) : Standing :=
  if x.strategy.lastIndex = some x.place && x.strategy.lastStates.contains state then
    x.eat ts true
  else x

/-- A rule ended in a state because of a mismatch. -/
def note (x : Standing) (state : StateId) : Standing :=
  { x with strategy := { x.strategy with
      lastIndex := some x.place
      lastStates := if x.strategy.lastStates.contains state then x.strategy.lastStates
        else x.strategy.lastStates ++ [state] } }

theorem report_place (ts : List Token) (x : Standing) : (x.report ts).place = x.place := by
  unfold report
  split <;> rfl

theorem report_recovering (ts : List Token) (x : Standing) :
    (x.report ts).strategy.recovering = true := by
  unfold report
  split
  · assumption
  · rfl

theorem force_recovering (ts : List Token) (x : Standing) (state : StateId) :
    (x.force ts state).strategy = x.strategy := by
  unfold force
  split <;> rfl

end Standing

def Stopped (ts : List Token) (set : TypeSet) (x : Standing) : Prop :=
  ∃ t, ts[x.place]? = some t ∧ (t.isEof = true ∨ set.contains t.type = true)

inductive Skips (ts : List Token) (set : TypeSet) : Standing → Standing → Prop where
  | stop {x} (hstop : Stopped ts set x) : Skips ts set x x
  | more {x y t} (ht : ts[x.place]? = some t) (hrun : t.isEof = false)
      (hrest : Skips ts set (x.eat ts true) y) : Skips ts set x y

theorem Skips.stopped {ts : List Token} {set : TypeSet} {x y : Standing} (h : Skips ts set x y) :
    Stopped ts set y := by
  induction h with
  | stop hstop => exact hstop
  | more _ _ _ ih => exact ih

theorem Skips.strategy {ts : List Token} {set : TypeSet} {x y : Standing} (h : Skips ts set x y) :
    y.strategy = x.strategy ∧ y.errors = x.errors := by
  induction h with
  | stop => exact ⟨rfl, rfl⟩
  | more _ _ _ ih => exact ih

/-- The current token does not fit, and nothing was reported since the last match. -/
def Site.Unfit (site : Site) (ts : List Token) (x : Standing) : Prop :=
  x.strategy.recovering = false ∧ ∃ t, ts[x.place]? = some t ∧ t.isEof = false ∧
    site.network.expects site.state site.stack t.type = false

/-- The token of a place could be read behind the transition out of the site. -/
def Site.Bridges (site : Site) (ts : List Token) (place : Nat) : Prop :=
  ∃ t s tr, ts[place]? = some t ∧ site.network.state? site.state = some s ∧
    s.transitions.head? = some tr ∧
      (site.network.lookInContext tr.target site.stack).contains t.type = true

theorem Vocabulary.isPlaceholder_placeholder (v : Vocabulary) (expected : TypeSet)
    (current : Token) (previous : Option Token) :
    (v.placeholder expected current previous).isPlaceholder = true :=
  rfl

namespace Repairing

variable {α β : Type} {w : Repairing α} {f : α → Repairing β} {r : Repair}

/-- The work ends with a result and a repair of some kind. -/
def Yields (w : Repairing α) (r : Repair) (Q : α → Repair → Prop) : Prop :=
  Q (w.run r).1 (w.run r).2

theorem yields_bind {Q : β → Repair → Prop} (h : w.Yields r fun a r' => (f a).Yields r' Q) :
    Yields (w >>= f) r Q :=
  h

theorem yields_get {Q : Repair → Repair → Prop} (h : Q r r) : Yields (get : Repairing Repair) r Q :=
  h

end Repairing

namespace Repair.Is

open Repairing

variable {α : Type} {ts : List Token} {before : Standing} {r : Repair} {x : Standing} {site : Site}
  {Q : α → Repair → Prop}

theorem pushed (h : r.Is ts before x) (step : RepairStep) :
    ({ r with steps := r.steps ++ [step] } : Repair).Is ts before
      { x with errors := x.errors + [step].countP RepairStep.isReport
               marks := x.marks ++ [step].filterMap RepairStep.mark?
               children := x.children ++ [step].filterMap RepairStep.leaf? } :=
  ⟨h.stream, h.strategy, by rw [List.countP_append, ← Nat.add_assoc, h.errors],
    by rw [List.filterMap_append, ← List.append_assoc, h.marks],
    by rw [List.filterMap_append, ← List.append_assoc, h.children]⟩

theorem push {Q : Unit → Repair → Prop} {e : Event} (h : r.Is ts before x)
    (hQ : ∀ r', r'.Is ts before { x with marks := x.marks ++ e.mark?.toList } → Q () r') :
    (Repairing.push (.event e)).Yields r Q := by
  have h' := h.pushed (.event e)
  simp only [filterMap_singleton, RepairStep.leaf?, Option.toList_none, List.append_nil] at h'
  exact hQ _ h'

theorem onStream {f : TokenStream → α × TokenStream} (h : r.Is ts before x)
    (hf : (f r.stream).2.At ts x.place)
    (hQ : ∀ r', r'.Is ts before x → Q (f r.stream).1 r') :
    (Repairing.onStream f).Yields r Q :=
  hQ _ ⟨hf, h.strategy, h.errors, h.marks, h.children⟩

theorem peek {Q : Token → Repair → Prop} (h : r.Is ts before x) (k : Nat)
    (hQ : ∀ t r', ts[(nextPlace ts)^[k - 1] x.place]? = some t → r'.Is ts before x → Q t r') :
    (Repairing.peek k).Yields r Q := by
  obtain ⟨ht, hat⟩ := h.stream.peek k
  exact h.onStream hat fun r' h' => hQ _ r' ht h'

theorem isRecovering {Q : Bool → Repair → Prop} (h : r.Is ts before x)
    (hQ : Q x.strategy.recovering r) : Repairing.isRecovering.Yields r Q := by
  rw [← h.strategy] at hQ
  exact hQ

theorem consume {Q : Unit → Repair → Prop} {skipped : Bool} (h : r.Is ts before x)
    (hQ : ∀ r', r'.Is ts before (x.eat ts skipped) → Q () r') :
    (Repairing.consume skipped).Yields r Q := by
  refine yields_bind (h.peek 1 fun t r' ht h' => ?_)
  have h'' := h'.pushed (.consume t skipped)
  have heat : x.eat ts skipped =
      { x with
        place := nextPlace ts x.place
        marks := x.marks ++ [RepairStep.consume t skipped].filterMap RepairStep.mark?
        children := x.children ++ [t.leaf skipped] } := by
    rw [Standing.eat, show ts[x.place]? = some t from ht]
    rfl
  refine hQ _ ?_
  rw [heat]
  exact ⟨h''.stream.consume, h''.strategy, h''.errors, h''.marks, h''.children⟩

theorem report {Q : Unit → Repair → Prop} {kind : DiagnosticKind} {t : Token} {message : String}
    (h : r.Is ts before x) (hkind : kind ≠ .tokenRecognition)
    (hQ : ∀ r', r'.Is ts before
      { x with errors := x.errors + 1, marks := x.marks ++ [.reported] } → Q () r') :
    (Repairing.report kind t message).Yields r Q := by
  refine yields_bind (h.onStream h.stream.takeErrors fun r' h' => ?_)
  have h'' := h'.pushed (.report r.stream.takeErrors.1 (.atToken kind t message))
  have hmark : (Diagnostic.atToken kind t message).mark? = some .reported := if_neg hkind
  simp only [filterMap_singleton, RepairStep.mark?, hmark, RepairStep.leaf?, Option.toList_some,
    Option.toList_none, List.append_nil] at h''
  exact hQ _ h''

theorem begin {Q : Unit → Repair → Prop} (h : r.Is ts before x)
    (hQ : ∀ r', r'.Is ts before
      { x with
        strategy := { x.strategy with recovering := true }
        marks := x.marks ++ (ts[x.place]?).toList.map .began } → Q () r') :
    Repairing.begin.Yields r Q := by
  have h' : ({ r with strategy := { r.strategy with recovering := true } } : Repair).Is ts before
      { x with strategy := { x.strategy with recovering := true } } :=
    ⟨h.stream, by rw [h.strategy], h.errors, h.marks, h.children⟩
  refine yields_bind (yields_bind (h'.peek 1 fun t r' ht h'' => ?_))
  rw [show ts[x.place]? = some t from ht] at hQ
  exact h''.push hQ

theorem matched {Q : Unit → Repair → Prop} (h : r.Is ts before x)
    (hQ : ∀ r', r'.Is ts before x.matched → Q () r') : Repairing.matched.Yields r Q := by
  have hclear (r' : Repair) (marks : List Mark) (h' : r'.Is ts before { x with marks })
      (hmarks : marks = x.matched.marks) :
      ({ r' with strategy := {} } : Repair).Is ts before x.matched :=
    ⟨h'.stream, rfl, h'.errors, h'.marks.trans hmarks, h'.children⟩
  refine yields_bind (h.isRecovering ?_)
  split
  · rename_i hrecovering
    refine yields_bind (h.push fun r' h' => hQ _ (hclear r' _ h' ?_))
    rw [Standing.matched, if_pos hrecovering]
    rfl
  · rename_i hrecovering
    refine hQ _ (hclear r _ h ?_)
    rw [Standing.matched, if_neg hrecovering, List.append_nil]

theorem unexpected {Q : Mismatch → Repair → Prop} (h : r.Is ts before x)
    (hQ : ∀ m r', r'.Is ts before x → Q m r') : (Repairing.unexpected site).Yields r Q :=
  yields_bind (h.peek 1 fun _ r' _ h' => hQ _ r' h')

/-- The strategy reports a mismatch unless it is recovering. -/
theorem reportUnwanted {Q : Unit → Repair → Prop} (h : r.Is ts before x)
    (hQ : ∀ r', r'.Is ts before (x.report ts) → Q () r') :
    (Repairing.reportUnwanted site).Yields r Q := by
  refine yields_bind (h.isRecovering ?_)
  cases hrecovering : x.strategy.recovering with
  | true => exact hQ _ (by rwa [Standing.report, if_pos hrecovering])
  | false =>
    refine yields_bind (h.begin fun r' h' => yields_bind (h'.peek 1 fun t r'' _ h'' => ?_))
    refine h''.report nofun fun r₃ h₃ => hQ _ ?_
    rwa [Standing.report, if_neg (by simp [hrecovering])]

theorem reportMissing {Q : Unit → Repair → Prop} (h : r.Is ts before x)
    (hQ : ∀ r', r'.Is ts before (x.report ts) → Q () r') :
    (Repairing.reportMissing site).Yields r Q := by
  refine yields_bind (h.isRecovering ?_)
  cases hrecovering : x.strategy.recovering with
  | true => exact hQ _ (by rwa [Standing.report, if_pos hrecovering])
  | false =>
    refine yields_bind (h.begin fun r' h' => yields_bind (h'.peek 1 fun t r'' _ h'' => ?_))
    refine h''.report nofun fun r₃ h₃ => hQ _ ?_
    rwa [Standing.report, if_neg (by simp [hrecovering])]

theorem viableText {Q : String → Repair → Prop} {start offending : Token} (h : r.Is ts before x)
    (hQ : ∀ text r', r'.Is ts before x → Q text r') :
    (Repairing.viableText start offending).Yields r Q := by
  unfold Repairing.viableText
  split
  · exact hQ _ _ h
  · exact h.onStream (h.stream.text _ _) fun r' h' => hQ _ r' h'

theorem reportMismatch {Q : Unit → Repair → Prop} {m : Mismatch} (h : r.Is ts before x)
    (hQ : ∀ r', r'.Is ts before (x.report ts) → Q () r') :
    (Repairing.reportMismatch site m).Yields r Q := by
  refine yields_bind (h.isRecovering ?_)
  cases hrecovering : x.strategy.recovering with
  | true => exact hQ _ (by rwa [Standing.report, if_pos hrecovering])
  | false =>
    have hreport : x.report ts =
        { x with
          strategy := { x.strategy with recovering := true }
          errors := x.errors + 1
          marks := x.marks ++ (ts[x.place]?).toList.map .began ++ [.reported] } :=
      if_neg (by simp [hrecovering])
    rw [hreport] at hQ
    refine yields_bind (h.begin fun r' h' => ?_)
    cases m with
    | noViable start offending state stack =>
      exact yields_bind (h'.viableText fun text r'' h'' => h''.report nofun hQ)
    | unexpected | failedPredicate => exact h'.report nofun hQ

/-- The types that the site expects are met by the token behind the current one. -/
theorem dropOne {Q : Option Token → Repair → Prop} (h : r.Is ts before x)
    (hnone : ∀ r', r'.Is ts before x → Q none r')
    (hsome : ∀ t r', ts[nextPlace ts x.place]? = some t → site.expected.contains t.type = true →
      r'.Is ts before ((x.report ts).eat ts true).matched → Q (some t) r') :
    (Repairing.dropOne site).Yields r Q := by
  refine yields_bind (h.peek 2 fun next r' hnext h' => ?_)
  cases hcontains : site.expected.contains next.type with
  | false => exact hnone _ h'
  | true =>
    refine yields_bind (h'.reportUnwanted fun r₁ h₁ => yields_bind (h₁.consume fun r₂ h₂ => ?_))
    refine yields_bind (h₂.peek 1 fun t r₃ ht h₃ => yields_bind (h₃.matched fun r₄ h₄ => ?_))
    have ht' : ts[nextPlace ts x.place]? = some t := by
      rw [← x.report_place ts]
      exact ht
    obtain rfl := Option.some.inj (hnext.symm.trans ht')
    exact hsome _ r₄ ht' hcontains h₄

theorem canInsert {Q : Bool → Repair → Prop} (h : r.Is ts before x)
    (hfalse : ∀ r', r'.Is ts before x → Q false r')
    (htrue : ∀ r', site.Bridges ts x.place → r'.Is ts before (x.report ts) → Q true r') :
    (Repairing.canInsert site).Yields r Q := by
  refine yields_bind (h.peek 1 fun current r' hcurrent h' => ?_)
  split
  · exact hfalse _ h'
  · rename_i tr htr
    split
    · rename_i hcontains
      obtain ⟨s, hs, hhead⟩ := Option.bind_eq_some_iff.mp htr
      have hbridges : site.Bridges ts x.place := ⟨current, s, tr, hcurrent, hs, hhead, hcontains⟩
      exact yields_bind (h'.reportMissing fun r'' h'' => htrue _ hbridges h'')
    · exact hfalse _ h'

/-- A token that did not match is repaired by dropping it or by putting another one
in front of it, or it is not repaired. -/
theorem repairInline {Q : Except Mismatch Token → Repair → Prop} (h : r.Is ts before x)
    (hdrop : ∀ t r', ts[nextPlace ts x.place]? = some t → site.expected.contains t.type = true →
      r'.Is ts before (((x.report ts).eat ts true).matched.eat ts false) → Q (.ok t) r')
    (hinsert : ∀ t r', t.isPlaceholder = true → site.Bridges ts x.place →
      r'.Is ts before (x.report ts) → Q (.ok t) r')
    (hfail : ∀ m r', r'.Is ts before x → Q (.error m) r') :
    (Repairing.repairInline site).Yields r Q := by
  refine yields_bind (h.dropOne (fun r₁ h₁ => ?_) fun t r₁ ht hcontains h₁ => ?_)
  · refine yields_bind (h₁.canInsert (fun r₂ h₂ => ?_) fun r₂ hbridges h₂ => ?_)
    · exact yields_bind (h₂.unexpected hfail)
    · refine yields_bind (h₂.peek 1 fun current r₃ _ h₃ => ?_)
      refine yields_bind (h₃.onStream (h₃.stream.previous 1) fun r₄ h₄ => ?_)
      refine yields_bind (h₄.push fun r₅ h₅ => ?_)
      rw [show Event.mark? (.insert _) = none from rfl, Option.toList_none, List.append_nil] at h₅
      exact hinsert _ _ (Vocabulary.isPlaceholder_placeholder ..) hbridges h₅
  · exact yields_bind (h₁.consume fun r₂ h₂ => hdrop t r₂ ht hcontains h₂)

/-- While the strategy is recovering, what it moves over becomes error leaves. -/
theorem skipIn {Q : Nat → Repair → Prop} {set : TypeSet} {count : Nat} (h : r.Is ts before x)
    (hrecovering : x.strategy.recovering = true) (hcount : ts.length ≤ x.place + count)
    (hQ : ∀ skipped y r', Skips ts set x y → r'.Is ts before y → Q skipped r') :
    (Repairing.skipIn set count).Yields r Q := by
  obtain ⟨t, ht, hcases⟩ := h.stream.token
  induction count generalizing r x Q t with
  | zero => exact absurd hcount (Nat.not_le.mpr (List.getElem?_eq_some_iff.mp ht).1)
  | succ count ih =>
    refine yields_bind (h.peek 1 fun t' r₁ ht' h₁ => ?_)
    obtain rfl := Option.some.inj (ht.symm.trans ht')
    split
    · rename_i hstop
      exact hQ 0 x r₁ (.stop ⟨t, ht, by simpa using hstop⟩) h₁
    · rename_i hgo
      have hrun : t.isEof = false := by
        simp only [Bool.or_eq_true, not_or, Bool.not_eq_true] at hgo
        exact hgo.1
      have hlt : x.place < nextPlace ts x.place := by
        rcases hcases with ⟨heof, _⟩ | ⟨_, _, hlt⟩
        · exact absurd (hrun.symm.trans heof) Bool.false_ne_true
        · exact hlt
      refine yields_bind (h₁.isRecovering (yields_bind (h₁.consume fun r₂ h₂ => ?_)))
      rw [hrecovering] at h₂
      obtain ⟨t₂, ht₂, hcases₂⟩ := h₂.stream.token
      have hcount' : ts.length ≤ nextPlace ts x.place + count := by omega
      refine yields_bind
        (ih h₂ hrecovering hcount' (fun skipped y r₃ hskips h₃ => ?_) t₂ ht₂ hcases₂)
      exact hQ _ y r₃ (.more ht hrun hskips) h₃

theorem skipTo {Q : Unit → Repair → Prop} {set : TypeSet} (h : r.Is ts before x)
    (hrecovering : x.strategy.recovering = true)
    (hQ : ∀ y r', Skips ts set x y → r'.Is ts before y → Q () r') :
    (Repairing.skipTo set).Yields r Q := by
  have hcount : ts.length ≤ x.place + (r.stream.horizon + 1) := by
    have := h.stream.shows.length_le
    omega
  refine yields_bind (yields_bind (h.skipIn hrecovering hcount fun skipped y r' hskips h' => ?_))
  split
  · refine h'.push fun r'' h'' => hQ y r'' hskips ?_
    rwa [show Event.mark? (.resync skipped) = none from rfl, Option.toList_none,
      List.append_nil] at h''
  · exact hQ y r' hskips h'

/-- A token that does not fit is dropped before a block or a loop begins, and tokens are
skipped where a loop goes round. -/
theorem align {Q : Except Mismatch Unit → Repair → Prop} (h : r.Is ts before x)
    (hstay : ∀ r', r'.Is ts before x → Q (.ok ()) r')
    (hdrop : ∀ r', site.Unfit ts x →
      r'.Is ts before ((x.report ts).eat ts true).matched → Q (.ok ()) r')
    (hskip : ∀ set y r', site.Unfit ts x → Skips ts set (x.report ts) y →
      r'.Is ts before y → Q (.ok ()) r')
    (hfail : ∀ m r', site.Unfit ts x → r'.Is ts before x → Q (.error m) r') :
    (Repairing.align site).Yields r Q := by
  refine yields_bind (h.isRecovering ?_)
  split
  · exact hstay _ h
  · rename_i hclear
    refine yields_bind (h.peek 1 fun t r₁ ht h₁ => ?_)
    split
    · exact hstay _ h₁
    · rename_i hfits
      have hunfit : site.Unfit ts x := by
        refine ⟨by simpa using hclear, t, ht, ?_⟩
        simpa using hfits
      have hdropped : Yields (Repairing.dropBefore site) r₁ Q :=
        yields_bind (h₁.dropOne (fun r₂ h₂ => yields_bind (h₂.unexpected fun m r₃ h₃ =>
          hfail m r₃ hunfit h₃)) fun _ r₂ _ _ h₂ => hdrop r₂ hunfit h₂)
      have hskipped : Yields (do
          Repairing.reportUnwanted site
          Repairing.skipTo (site.expected.union (site.network.recoverySet site.stack))
          return .ok ()) r₁ Q := by
        refine yields_bind (h₁.reportUnwanted fun r₂ h₂ => ?_)
        exact yields_bind (h₂.skipTo (x.report_recovering ts) fun y r₃ hskips h₃ =>
          hskip _ y r₃ hunfit hskips h₃)
      split
      · exact hdropped
      · exact hdropped
      · exact hdropped
      · exact hdropped
      · exact hskipped
      · exact hskipped
      · exact hstay _ h₁

theorem resynchronize {Q : Unit → Repair → Prop} (h : r.Is ts before x)
    (hrecovering : x.strategy.recovering = true)
    (hQ : ∀ y r', Skips ts (site.network.recoverySet site.stack)
      ((x.force ts site.state).note site.state) y → r'.Is ts before y → Q () r') :
    (Repairing.resynchronize site).Yields r Q := by
  obtain ⟨hindex, hat⟩ := h.stream.index
  have hrest (y : Standing) (r' : Repair) (h' : r'.Is ts before y) (hy : y.strategy = x.strategy)
      (hQ : ∀ z r', Skips ts (site.network.recoverySet site.stack) (y.note site.state) z →
        r'.Is ts before z → Q () r') : Yields (do
      let index ← Repairing.onStream TokenStream.index
      modify fun r' : Repair => { r' with strategy := { r'.strategy with
        lastIndex := some index
        lastStates := if r.strategy.lastStates.contains site.state then r.strategy.lastStates
          else r.strategy.lastStates ++ [site.state] } }
      Repairing.skipTo (site.network.recoverySet site.stack)) r' Q := by
    obtain ⟨hindex, hat⟩ := h'.stream.index
    refine yields_bind (h'.onStream hat fun r₁ h₁ => ?_)
    rw [hindex]
    have hnote : ({ r₁ with strategy := { r₁.strategy with
        lastIndex := some y.place
        lastStates := if r.strategy.lastStates.contains site.state then r.strategy.lastStates
          else r.strategy.lastStates ++ [site.state] } } : Repair).Is ts before
        (y.note site.state) := by
      refine ⟨h₁.stream, ?_, h₁.errors, h₁.marks, h₁.children⟩
      rw [h₁.strategy, h.strategy, ← hy]
      rfl
    have hrecovering' : (y.note site.state).strategy.recovering = true := by
      rw [← hrecovering, ← hy]
      rfl
    exact yields_bind (hnote.skipTo hrecovering' hQ)
  refine yields_bind (yields_get (yields_bind (h.onStream hat fun r₁ h₁ => ?_)))
  dsimp only
  rw [hindex, h.strategy]
  unfold Standing.force at hQ
  split
  · rename_i hforce
    rw [if_pos hforce] at hQ
    refine yields_bind (h₁.consume fun r₂ h₂ => ?_)
    rw [← h.strategy]
    exact hrest (x.eat ts true) r₂ h₂ rfl hQ
  · rename_i hfree
    rw [if_neg hfree] at hQ
    rw [← h.strategy]
    exact hrest x r₁ h₁ rfl hQ

end Repair.Is

end AdaptiveLL
