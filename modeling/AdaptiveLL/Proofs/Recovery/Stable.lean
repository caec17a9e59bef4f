/-
What a repair keeps, whichever it is.

The strategy has few means: it asks the stream, remembers something, reports a
mismatch at a token that it has seen, tells that recovery begins or ends, and
consumes tokens.  A property of repairs that each of these keeps is kept by all that
the strategy does, except that a placeholder is put in, which is the last step of
its repair.
-/
import AdaptiveLL.Proofs.Parser.Repair
import AdaptiveLL.Proofs.Stream.Fetching

namespace AdaptiveLL

def Event.IsRecovery : Event → Prop
  | .beginRecovery _ | .endRecovery | .resync _ => True
  | _ => False

/-- The token that does not fit has been fetched. -/
def Mismatch.Seen (m : Mismatch) (s : TokenStream) : Prop :=
  m.offending ∈ s.buffer

namespace Repairing

variable {α β : Type} {P : Repair → Prop}

/-- What holds of a repair before the work holds of it behind the work. -/
def Keeps (P : Repair → Prop) (w : Repairing α) : Prop :=
  ∀ r, P r → w.Yields r fun _ => P

theorem Yields.mono {w : Repairing α} {r : Repair} {Q Q' : α → Repair → Prop} (h : w.Yields r Q)
    (hQ : ∀ a r', Q a r' → Q' a r') : w.Yields r Q' :=
  hQ _ _ h

theorem keeps_pure (a : α) : Keeps P (pure a) := fun _ h => h

theorem keeps_bind {w : Repairing α} {f : α → Repairing β} (hw : w.Keeps P)
    (hf : ∀ a, (f a).Keeps P) : Keeps P (w >>= f) := fun r h => hf _ _ (hw r h)

theorem keeps_modify {g : Repair → Repair} (hg : ∀ r, P r → P (g r)) : Keeps P (modify g) :=
  fun r h => hg r h

theorem keeps_get : Keeps P get := fun _ h => h

theorem keeps_isRecovering : isRecovering.Keeps P := fun _ h => h

/-- What holds of a repair before the work holds of it behind the work, and a
mismatch that the work comes to is at a token that has been fetched. -/
def Meets (P : Repair → Prop) (w : Repairing (Except Mismatch α)) : Prop :=
  ∀ r, P r → w.Yields r fun result r' => P r' ∧ ∀ m, result = .error m → m.Seen r'.stream

theorem Meets.keeps {w : Repairing (Except Mismatch α)} (h : w.Meets P) : w.Keeps P :=
  fun r hr => (h r hr).1

/-- A work that gives a result comes to no mismatch. -/
theorem seen_of_ok {a : α} {m : Mismatch} {s : TokenStream} (h : Except.ok a = .error m) :
    m.Seen s := by
  cases h

theorem meets_ok (a : α) : Meets P (pure (.ok a)) := fun _ h => ⟨h, fun _ hm => seen_of_ok hm⟩

theorem meets_bind {w : Repairing β} {f : β → Repairing (Except Mismatch α)} (hw : w.Keeps P)
    (hf : ∀ b, (f b).Meets P) : Meets P (w >>= f) := fun r h => hf _ _ (hw r h)

end Repairing

/-- A property of repairs on these tokens that all means of the strategy keep. -/
structure Repair.Stable (ts : List Token) (P : Repair → Prop) : Prop where
  placed : ∀ {r}, P r → ∃ i, r.stream.At ts i
  stream : ∀ {r s}, P r → r.stream.Fetches s → (∃ i, s.At ts i) → P { r with stream := s }
  remember : ∀ {r}, P r → ∀ strategy, P { r with strategy }
  tell : ∀ {r e}, P r → e.IsRecovery → P { r with steps := r.steps ++ [.event e] }
  eat : ∀ {r}, P r → ∀ t skipped, P { r with steps := r.steps ++ [.consume t skipped] }
  report : ∀ {r kind t}, P r → kind ≠ .tokenRecognition → t ∈ r.stream.buffer →
    ∀ message, P ((Repairing.report kind t message).run r).2

namespace Repair.Stable

open Repairing

variable {α : Type} {ts : List Token} {P : Repair → Prop} {site : Site}

/-- That a token has been fetched is stable. -/
theorem and_mem (hP : Stable ts P) (t : Token) : Stable ts fun r => P r ∧ t ∈ r.stream.buffer where
  placed h := hP.placed h.1
  stream h hfetches hat := ⟨hP.stream h.1 hfetches hat, hfetches.mem_buffer h.2⟩
  remember h strategy := ⟨hP.remember h.1 strategy, h.2⟩
  tell h he := ⟨hP.tell h.1 he, h.2⟩
  eat h t skipped := ⟨hP.eat h.1 t skipped, h.2⟩
  report h hkind ht message := ⟨hP.report h.1 hkind ht message, h.2⟩

theorem onStream (hP : Stable ts P) {f : TokenStream → α × TokenStream}
    (hf : ∀ s i, s.At ts i → s.Fetches (f s).2 ∧ ∃ j, (f s).2.At ts j) :
    (Repairing.onStream f).Keeps P := by
  intro r h
  obtain ⟨i, hat⟩ := hP.placed h
  obtain ⟨hfetches, hat'⟩ := hf r.stream i hat
  exact hP.stream h hfetches hat'

/-- A token that is looked at has been fetched. -/
theorem peek_mem (hP : Stable ts P) (k : Nat) {r : Repair} (h : P r) :
    (peek k).Yields r fun t r' => (P r' ∧ t ∈ r'.stream.buffer) ∧ t ∈ ts := by
  obtain ⟨i, hat⟩ := hP.placed h
  have hpeek := hat.peek k
  exact ⟨⟨hP.stream h (TokenStream.fetches_peek _ k) ⟨i, hpeek.2⟩, hat.peek_mem k⟩,
    List.mem_of_getElem? hpeek.1⟩

theorem peek (hP : Stable ts P) (k : Nat) : (Repairing.peek k).Keeps P :=
  fun _ h => (hP.peek_mem k h).1.1

theorem index (hP : Stable ts P) : (Repairing.onStream TokenStream.index).Keeps P :=
  hP.onStream fun s i hat => ⟨s.fetches_index, i, hat.index.2⟩

theorem consume (hP : Stable ts P) (skipped : Bool) : (Repairing.consume skipped).Keeps P :=
  keeps_bind (hP.peek 1) fun t => keeps_bind (keeps_modify fun _ h => hP.eat h t skipped) fun _ =>
    hP.onStream fun s _ hat => ⟨s.fetches_consume, _, hat.consume⟩

theorem push (hP : Stable ts P) {e : Event} (he : e.IsRecovery) :
    (Repairing.push (.event e)).Keeps P :=
  keeps_modify fun _ h => hP.tell h he

theorem begin (hP : Stable ts P) : Repairing.begin.Keeps P :=
  keeps_bind (keeps_modify fun _ h => hP.remember h _) fun _ =>
    keeps_bind (hP.peek 1) fun _ => hP.push trivial

theorem matched (hP : Stable ts P) : Repairing.matched.Keeps P := by
  have hclear : (modify fun r => { r with strategy := {} } : Repairing Unit).Keeps P :=
    keeps_modify fun _ h => hP.remember h {}
  refine keeps_bind keeps_isRecovering fun recovering => ?_
  dsimp only
  split
  · exact keeps_bind (hP.push trivial) fun _ => hclear
  · exact hclear

theorem unexpected (hP : Stable ts P) :
    Meets (α := α) P (Repairing.unexpected site >>= fun m => pure (.error m)) := by
  intro r h
  obtain ⟨⟨hkept, hmem⟩, _⟩ := hP.peek_mem 1 h
  refine ⟨hkept, ?_⟩
  rintro _ ⟨⟩
  exact hmem

theorem skipIn (hP : Stable ts P) (set : TypeSet) (count : Nat) :
    (Repairing.skipIn set count).Keeps P := by
  induction count with
  | zero => exact keeps_pure 0
  | succ count ih =>
    refine keeps_bind (hP.peek 1) fun t => ?_
    split
    · exact keeps_pure 0
    · exact keeps_bind keeps_isRecovering fun skipped => keeps_bind (hP.consume skipped)
        fun _ => keeps_bind ih fun _ => keeps_pure _

theorem skipTo (hP : Stable ts P) (set : TypeSet) : (Repairing.skipTo set).Keeps P := by
  refine keeps_bind keeps_get fun r => keeps_bind (hP.skipIn set _) fun skipped => ?_
  split
  · exact hP.push trivial
  · exact keeps_pure _

/-- A report at a token that has been fetched. -/
theorem reportAt (hP : Stable ts P) (t : Token) (kind : DiagnosticKind)
    (hkind : kind ≠ .tokenRecognition) (message : String) :
    (Repairing.report kind t message).Keeps fun r => P r ∧ t ∈ r.stream.buffer :=
  fun _ h => ⟨hP.report h.1 hkind h.2 message, h.2⟩

/-- A report at the token where the cursor stands. -/
theorem reportHere (hP : Stable ts P) (kind : DiagnosticKind) (hkind : kind ≠ .tokenRecognition)
    (message : Token → String) :
    Keeps P (do
      let t ← Repairing.peek 1
      Repairing.report kind t (message t)) := by
  intro r h
  exact (hP.reportAt _ kind hkind _ _ (hP.peek_mem 1 h).1).1

theorem reportUnwanted (hP : Stable ts P) : (Repairing.reportUnwanted site).Keeps P := by
  refine keeps_bind keeps_isRecovering fun recovering => ?_
  cases recovering with
  | true => exact keeps_pure _
  | false => exact keeps_bind hP.begin fun _ => hP.reportHere .extraneousInput nofun _

theorem reportMissing (hP : Stable ts P) : (Repairing.reportMissing site).Keeps P := by
  refine keeps_bind keeps_isRecovering fun recovering => ?_
  cases recovering with
  | true => exact keeps_pure _
  | false => exact keeps_bind hP.begin fun _ => hP.reportHere .missingToken nofun _

theorem viableText (hP : Stable ts P) (start offending : Token) :
    (Repairing.viableText start offending).Keeps P := by
  unfold Repairing.viableText
  split
  · exact keeps_pure _
  · exact hP.onStream fun s i hat => ⟨s.fetches_text _ _, i, hat.text _ _⟩

/-- A mismatch is reported at the token that it was met at. -/
theorem reportMismatch (hP : Stable ts P) (m : Mismatch)
    (hreport : ∀ kind message, kind ≠ .tokenRecognition →
      (Repairing.report kind m.offending message).Keeps P) :
    (Repairing.reportMismatch site m).Keeps P := by
  refine keeps_bind keeps_isRecovering fun recovering => ?_
  cases recovering with
  | true => exact keeps_pure _
  | false =>
    refine keeps_bind hP.begin fun _ => ?_
    cases m with
    | noViable start offending =>
      exact keeps_bind (hP.viableText start offending) fun _ =>
        hreport .noViableAlternative _ nofun
    | unexpected => exact hreport .mismatchedInput _ nofun
    | failedPredicate => exact hreport .failedPredicate _ nofun

theorem canInsert (hP : Stable ts P) : (Repairing.canInsert site).Keeps P := by
  refine keeps_bind (hP.peek 1) fun current => ?_
  split
  · exact keeps_pure false
  · split
    · exact keeps_bind hP.reportMissing fun _ => keeps_pure true
    · exact keeps_pure false

/-- Behind a dropped token is a token of the input. -/
theorem dropOne (hP : Stable ts P) {r : Repair} (h : P r) :
    (Repairing.dropOne site).Yields r fun next r' => P r' ∧ ∀ t, next = some t → t ∈ ts := by
  refine yields_bind ((hP.peek 2 r h).mono fun next r₁ h₁ => ?_)
  split
  · refine yields_bind ((hP.reportUnwanted r₁ h₁).mono fun _ r₂ h₂ => ?_)
    refine yields_bind ((hP.consume true r₂ h₂).mono fun _ r₃ h₃ => ?_)
    refine yields_bind ((hP.peek_mem 1 h₃).mono fun t r₄ h₄ => ?_)
    refine yields_bind ((hP.matched r₄ h₄.1.1).mono fun _ r₅ h₅ => ⟨h₅, ?_⟩)
    rintro _ ⟨⟩
    exact h₄.2
  · exact ⟨h₁, nofun⟩

theorem dropBefore (hP : Stable ts P) : (Repairing.dropBefore site).Meets P := by
  intro r h
  refine yields_bind ((hP.dropOne h).mono fun next r₁ h₁ => ?_)
  cases next with
  | some => exact ⟨h₁.1, fun _ hm => seen_of_ok hm⟩
  | none => exact hP.unexpected r₁ h₁.1

theorem align (hP : Stable ts P) : (Repairing.align site).Meets P := by
  have hskip : Meets P (do
      Repairing.reportUnwanted site
      Repairing.skipTo (site.expected.union (site.network.recoverySet site.stack))
      return (.ok () : Except Mismatch Unit)) :=
    meets_bind hP.reportUnwanted fun _ => meets_bind (hP.skipTo _) fun _ => meets_ok ()
  refine meets_bind keeps_isRecovering fun recovering => ?_
  split
  · exact meets_ok ()
  · refine meets_bind (hP.peek 1) fun current => ?_
    split
    · exact meets_ok ()
    · split
      · exact hP.dropBefore
      · exact hP.dropBefore
      · exact hP.dropBefore
      · exact hP.dropBefore
      · exact hskip
      · exact hskip
      · exact meets_ok ()

theorem resynchronize (hP : Stable ts P) : (Repairing.resynchronize site).Keeps P := by
  refine keeps_bind keeps_get fun last => keeps_bind hP.index fun index => ?_
  have hrest (last : Strategy) : Keeps P (do
      let index ← Repairing.onStream TokenStream.index
      modify fun r => { r with strategy := { r.strategy with
        lastIndex := some index
        lastStates := if last.lastStates.contains site.state then last.lastStates
          else last.lastStates ++ [site.state] } }
      Repairing.skipTo (site.network.recoverySet site.stack)) :=
    keeps_bind hP.index fun _ => keeps_bind (keeps_modify fun _ h => hP.remember h _)
      fun _ => hP.skipTo _
  dsimp only
  split
  · exact keeps_bind (hP.consume true) fun _ => hrest last.strategy
  · exact hrest last.strategy

/-- A rule that is given up is reported, and tokens are skipped behind it. -/
theorem giveUp (hP : Stable ts P) {m : Mismatch} {r : Repair} (h : P r) (hseen : m.Seen r.stream) :
    Yields (do
      Repairing.reportMismatch site m
      Repairing.resynchronize site) r fun _ => P := by
  have hreported : (Repairing.reportMismatch site m).Keeps fun r => P r ∧ m.Seen r.stream :=
    (hP.and_mem m.offending).reportMismatch m fun kind message hkind =>
      hP.reportAt m.offending kind hkind message
  exact yields_bind ((hreported r ⟨h, hseen⟩).mono fun _ r₁ h₁ => hP.resynchronize r₁ h₁.1)

/-- A token that was read is matched, and consumed. -/
theorem eatMatched (hP : Stable ts P) : Keeps P (do
    Repairing.matched
    Repairing.consume false) :=
  keeps_bind hP.matched fun _ => hP.consume false

/-- An inline repair gives a token of the input, or a placeholder, of which its last
step tells. -/
theorem repairInline (hP : Stable ts P) {r : Repair} (h : P r) :
    (Repairing.repairInline site).Yields r fun result r' =>
      (P r' ∧ (∀ t, result = .ok t → t ∈ ts) ∧ ∀ m, result = .error m → m.Seen r'.stream) ∨
        ∃ (t : Token) (r₀ : Repair), result = .ok t ∧ t.isPlaceholder = true ∧ P r₀ ∧
          r' = { r₀ with steps := r₀.steps ++ [.event (.insert t)] } := by
  refine yields_bind ((hP.dropOne h).mono fun next r₁ h₁ => ?_)
  cases next with
  | some t =>
    refine yields_bind ((hP.consume false r₁ h₁.1).mono fun _ r₂ h₂ =>
      .inl ⟨h₂, ?_, fun _ hm => seen_of_ok hm⟩)
    rintro _ ⟨⟩
    exact h₁.2 t rfl
  | none =>
    refine yields_bind ((hP.canInsert r₁ h₁.1).mono fun inserts r₂ h₂ => ?_)
    cases inserts with
    | true =>
      refine yields_bind ((hP.peek 1 r₂ h₂).mono fun current r₃ h₃ => ?_)
      have hprevious : (Repairing.onStream fun s => s.previous 1).Keeps P :=
        hP.onStream fun s i hat => ⟨s.fetches_previous 1, i, hat.previous 1⟩
      refine yields_bind ((hprevious r₃ h₃).mono fun previous r₄ h₄ => .inr ?_)
      exact ⟨_, r₄, rfl, Vocabulary.isPlaceholder_placeholder .., h₄, rfl⟩
    | false =>
      have hmet : (Repairing.unexpected site >>= fun m => pure (.error m)).Meets P :=
        hP.unexpected (α := Token)
      obtain ⟨hkept, hseen⟩ := hmet r₂ h₂
      exact .inl ⟨hkept, nofun, hseen⟩

end Repair.Stable

end AdaptiveLL
