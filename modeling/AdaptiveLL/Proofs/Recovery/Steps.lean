/-
What the strategy does, step by step.

A repair is a list of steps.  Each piece of the strategy's work adds steps that the
site and the tokens at hand fix.  Only the text that the lexer could not match comes
from elsewhere, and a list of tokens has none.
-/
import AdaptiveLL.Proofs.Parser.Leaves
import AdaptiveLL.Proofs.Stream.Listed

namespace AdaptiveLL

namespace Site

def unwanted (site : Site) (t : Token) : Diagnostic :=
  .atToken .extraneousInput t ("extraneous input " ++ quoted t.text ++ " expecting "
    ++ site.vocabulary.displaySet site.expected)

def missing (site : Site) (t : Token) : Diagnostic :=
  .atToken .missingToken t ("missing " ++ site.vocabulary.displaySet site.expected ++ " at "
    ++ quoted t.text)

end Site

namespace Strategy

def alert (s : Strategy) : Strategy :=
  { s with recovering := true }

/-- The steps of a report, which is only made if the strategy is not recovering yet. -/
def reportSteps (s : Strategy) (t : Token) (lexical : List LexError) (d : Diagnostic) :
    List RepairStep :=
  if s.recovering then [] else [.event (.beginRecovery t), .report lexical d]

def dropSteps (s : Strategy) (site : Site) (t : Token) (lexical : List LexError) :
    List RepairStep :=
  s.reportSteps t lexical (site.unwanted t) ++ [.consume t true, .event .endRecovery]

end Strategy

/-- A repair that began on the stream `origin` is at a place of these tokens, and it
has taken these steps. -/
structure Repair.Took (origin : TokenStream) (ts : List Token) (r : Repair) (place : Nat)
    (strategy : Strategy) (steps : List RepairStep) : Prop where
  stream : r.stream.At ts place
  listed : origin.Listed → r.stream.Listed
  strategy : r.strategy = strategy
  steps : r.steps = steps

theorem Repair.took_begin {stream : TokenStream} {ts : List Token} {place : Nat}
    (hat : stream.At ts place) (strategy : Strategy) :
    Repair.Took stream ts { strategy, stream } place strategy [] :=
  ⟨hat, id, rfl, rfl⟩

/-- The token behind the current one is expected. -/
def Site.Drops (site : Site) (ts : List Token) (place : Nat) : Prop :=
  ∃ next, ts[nextPlace ts place]? = some next ∧ site.expected.contains next.type = true

namespace Repair.Took

open Repairing

variable {α : Type} {origin : TokenStream} {ts : List Token} {r : Repair} {place : Nat}
  {strategy : Strategy} {steps : List RepairStep} {site : Site} {Q : α → Repair → Prop}

theorem onStream {f : TokenStream → α × TokenStream} (h : r.Took origin ts place strategy steps)
    (hat : (f r.stream).2.At ts place) (hlisted : r.stream.Listed → (f r.stream).2.Listed)
    (hQ : ∀ r', r'.Took origin ts place strategy steps → Q (f r.stream).1 r') :
    (Repairing.onStream f).Yields r Q :=
  hQ _ ⟨hat, fun ho => hlisted (h.listed ho), h.strategy, h.steps⟩

theorem peek {Q : Token → Repair → Prop} (h : r.Took origin ts place strategy steps) (k : Nat)
    (hQ : ∀ t r', ts[(nextPlace ts)^[k - 1] place]? = some t →
      r'.Took origin ts place strategy steps → Q t r') : (Repairing.peek k).Yields r Q := by
  obtain ⟨ht, hat⟩ := h.stream.peek k
  exact h.onStream hat (·.peek k) fun r' h' => hQ _ r' ht h'

theorem push {Q : Unit → Repair → Prop} (h : r.Took origin ts place strategy steps)
    (step : RepairStep)
    (hQ : ∀ r', r'.Took origin ts place strategy (steps ++ [step]) → Q () r') :
    (Repairing.push step).Yields r Q :=
  hQ _ ⟨h.stream, h.listed, h.strategy, congrArg (· ++ [step]) h.steps⟩

theorem isRecovering {Q : Bool → Repair → Prop} (h : r.Took origin ts place strategy steps)
    (hQ : Q strategy.recovering r) : Repairing.isRecovering.Yields r Q := by
  rw [← h.strategy] at hQ
  exact hQ

theorem consume {Q : Unit → Repair → Prop} {skipped : Bool}
    (h : r.Took origin ts place strategy steps)
    (hQ : ∀ t r', ts[place]? = some t →
      r'.Took origin ts (nextPlace ts place) strategy (steps ++ [.consume t skipped]) → Q () r') :
    (Repairing.consume skipped).Yields r Q :=
  yields_bind (h.peek 1 fun t _ ht h₁ => yields_bind (h₁.push _ fun _ h₂ =>
    hQ t _ ht ⟨h₂.stream.consume, fun ho => (h₂.listed ho).consume, h₂.strategy, h₂.steps⟩))

theorem report {Q : Unit → Repair → Prop} {kind : DiagnosticKind} {t : Token} {message : String}
    (h : r.Took origin ts place strategy steps)
    (hQ : ∀ lexical r', (origin.Listed → lexical = []) →
      r'.Took origin ts place strategy (steps ++ [.report lexical (.atToken kind t message)]) →
        Q () r') : (Repairing.report kind t message).Yields r Q :=
  yields_bind (h.onStream h.stream.takeErrors (·.takeErrors.2) fun _ h₁ =>
    h₁.push _ fun r₂ h₂ => hQ _ r₂ (fun ho => (h.listed ho).takeErrors.1) h₂)

theorem begin {Q : Unit → Repair → Prop} (h : r.Took origin ts place strategy steps)
    (hQ : ∀ t r', ts[place]? = some t →
      r'.Took origin ts place strategy.alert (steps ++ [.event (.beginRecovery t)]) → Q () r') :
    Repairing.begin.Yields r Q := by
  have h' : ({ r with strategy := { r.strategy with recovering := true } } : Repair).Took origin ts
      place strategy.alert steps :=
    ⟨h.stream, h.listed, congrArg Strategy.alert h.strategy, h.steps⟩
  exact yields_bind (yields_bind (h'.peek 1 fun t r₁ ht h₁ => h₁.push _ fun r₂ h₂ => hQ t r₂ ht h₂))

theorem matched {Q : Unit → Repair → Prop} (h : r.Took origin ts place strategy steps)
    (hQ : ∀ r', r'.Took origin ts place {}
      (steps ++ if strategy.recovering then [.event .endRecovery] else []) → Q () r') :
    Repairing.matched.Yields r Q := by
  refine yields_bind (h.isRecovering ?_)
  split
  · rename_i hrecovering
    rw [if_pos hrecovering] at hQ
    exact yields_bind (h.push _ fun r₁ h₁ => hQ _ ⟨h₁.stream, h₁.listed, rfl, h₁.steps⟩)
  · rename_i hclear
    rw [if_neg hclear, List.append_nil] at hQ
    exact hQ _ ⟨h.stream, h.listed, rfl, h.steps⟩

theorem unexpected {Q : Mismatch → Repair → Prop} (h : r.Took origin ts place strategy steps)
    (hQ : ∀ t r', ts[place]? = some t → r'.Took origin ts place strategy steps →
      Q (.unexpected t site.state site.stack) r') : (Repairing.unexpected site).Yields r Q :=
  yields_bind (h.peek 1 hQ)

/-- A mismatch is reported at the current token, unless the strategy is recovering. -/
theorem reportHere {Q : Unit → Repair → Prop} {kind : DiagnosticKind} {message : Token → String}
    (h : r.Took origin ts place strategy steps)
    (hQ : ∀ t lexical r', ts[place]? = some t → (origin.Listed → lexical = []) →
      r'.Took origin ts place strategy.alert
        (steps ++ strategy.reportSteps t lexical (.atToken kind t (message t))) → Q () r') :
    Yields (do
      unless ← Repairing.isRecovering do
        Repairing.begin
        let t ← Repairing.peek 1
        Repairing.report kind t (message t)) r Q := by
  refine yields_bind (h.isRecovering ?_)
  cases hrecovering : strategy.recovering with
  | true =>
    obtain ⟨t, ht, _⟩ := h.stream.visible
    have halert : strategy.alert = strategy := by rw [Strategy.alert, ← hrecovering]
    refine hQ t [] _ ht (fun _ => rfl) ?_
    rwa [halert, Strategy.reportSteps, if_pos hrecovering, List.append_nil]
  | false =>
    refine yields_bind (h.begin fun t r₁ ht h₁ => yields_bind (h₁.peek 1 fun t' r₂ ht' h₂ => ?_))
    obtain rfl := Option.some.inj (ht.symm.trans ht')
    refine h₂.report fun lexical r₃ hlexical h₃ => hQ t lexical r₃ ht hlexical ?_
    rw [List.append_assoc] at h₃
    rwa [Strategy.reportSteps, if_neg (by simp [hrecovering])]

theorem reportUnwanted {Q : Unit → Repair → Prop} (h : r.Took origin ts place strategy steps)
    (hQ : ∀ t lexical r', ts[place]? = some t → (origin.Listed → lexical = []) →
      r'.Took origin ts place strategy.alert
        (steps ++ strategy.reportSteps t lexical (site.unwanted t)) → Q () r') :
    (Repairing.reportUnwanted site).Yields r Q :=
  h.reportHere hQ

theorem reportMissing {Q : Unit → Repair → Prop} (h : r.Took origin ts place strategy steps)
    (hQ : ∀ t lexical r', ts[place]? = some t → (origin.Listed → lexical = []) →
      r'.Took origin ts place strategy.alert
        (steps ++ strategy.reportSteps t lexical (site.missing t)) → Q () r') :
    (Repairing.reportMissing site).Yields r Q :=
  h.reportHere hQ

/-- The current token is dropped if and only if the one behind it is expected. -/
theorem dropOne {Q : Option Token → Repair → Prop} (h : r.Took origin ts place strategy steps)
    (hnone : ∀ r', ¬site.Drops ts place → r'.Took origin ts place strategy steps → Q none r')
    (hsome : ∀ t next lexical r', ts[place]? = some t → ts[nextPlace ts place]? = some next →
      site.expected.contains next.type = true → (origin.Listed → lexical = []) →
        r'.Took origin ts (nextPlace ts place) {} (steps ++ strategy.dropSteps site t lexical) →
          Q (some next) r') : (Repairing.dropOne site).Yields r Q := by
  refine yields_bind (h.peek 2 fun next r₁ hnext h₁ => ?_)
  have hnext : ts[nextPlace ts place]? = some next := hnext
  cases hcontains : site.expected.contains next.type with
  | false =>
    refine hnone r₁ (fun hdrops => ?_) h₁
    obtain ⟨next', hnext', hcontains'⟩ := hdrops
    obtain rfl := Option.some.inj (hnext.symm.trans hnext')
    exact absurd (hcontains.symm.trans hcontains') Bool.false_ne_true
  | true =>
    refine yields_bind (h₁.reportUnwanted fun t lexical r₂ ht hlexical h₂ => ?_)
    refine yields_bind (h₂.consume fun t' r₃ ht' h₃ => yields_bind (h₃.peek 1 fun u r₄ hu h₄ => ?_))
    obtain rfl := Option.some.inj (ht.symm.trans ht')
    obtain rfl := Option.some.inj (hnext.symm.trans hu)
    refine yields_bind
      (h₄.matched fun r₅ h₅ => hsome t next lexical r₅ ht hnext hcontains hlexical ?_)
    rwa [if_pos (show strategy.alert.recovering = true from rfl), List.append_assoc,
      List.append_assoc] at h₅

/-- A token is missing if and only if the current one can be read behind it. -/
theorem canInsert {Q : Bool → Repair → Prop} (h : r.Took origin ts place strategy steps)
    (hfalse : ∀ r', ¬site.Bridges ts place → r'.Took origin ts place strategy steps → Q false r')
    (htrue : ∀ t lexical r', ts[place]? = some t → site.Bridges ts place →
      (origin.Listed → lexical = []) → r'.Took origin ts place strategy.alert
        (steps ++ strategy.reportSteps t lexical (site.missing t)) → Q true r') :
    (Repairing.canInsert site).Yields r Q := by
  refine yields_bind (h.peek 1 fun current r₁ hcurrent h₁ => ?_)
  have hcurrent : ts[place]? = some current := hcurrent
  cases hhead : (site.network.state? site.state).bind fun s => s.transitions.head? with
  | none =>
    refine hfalse r₁ (fun hbridges => ?_) h₁
    obtain ⟨_, s, tr, _, hs, htr, _⟩ := hbridges
    simp [hs, htr] at hhead
  | some tr =>
    obtain ⟨s, hs, htr⟩ := Option.bind_eq_some_iff.mp hhead
    dsimp only
    split
    · rename_i hcontains
      refine yields_bind (h₁.reportMissing fun t lexical r₂ ht hlexical h₂ => ?_)
      obtain rfl := Option.some.inj (hcurrent.symm.trans ht)
      exact htrue current lexical r₂ ht ⟨current, s, tr, ht, hs, htr, hcontains⟩ hlexical h₂
    · rename_i hstuck
      refine hfalse r₁ (fun hbridges => hstuck ?_) h₁
      obtain ⟨t, s', tr', ht, hs', htr', hcontains⟩ := hbridges
      obtain rfl := Option.some.inj (hcurrent.symm.trans ht)
      obtain rfl := Option.some.inj (hs.symm.trans hs')
      obtain rfl := Option.some.inj (htr.symm.trans htr')
      exact hcontains

/-- To drop the current token is tried first, then to put one in front of it. -/
theorem repairInline {Q : Except Mismatch Token → Repair → Prop}
    (h : r.Took origin ts place strategy steps)
    (hdrop : ∀ t next lexical r', ts[place]? = some t → ts[nextPlace ts place]? = some next →
      site.expected.contains next.type = true → (origin.Listed → lexical = []) →
        r'.Took origin ts (nextPlace ts (nextPlace ts place)) {}
          (steps ++ strategy.dropSteps site t lexical ++ [.consume next false]) → Q (.ok next) r')
    (hinsert : ∀ t previous lexical r', ts[place]? = some t → ¬site.Drops ts place →
      site.Bridges ts place → (origin.Listed → lexical = []) →
        r'.Took origin ts place strategy.alert
          (steps ++ strategy.reportSteps t lexical (site.missing t) ++
            [.event (.insert (site.vocabulary.placeholder site.expected t previous))]) →
          Q (.ok (site.vocabulary.placeholder site.expected t previous)) r')
    (hfail : ∀ t r', ts[place]? = some t → ¬site.Drops ts place → ¬site.Bridges ts place →
      r'.Took origin ts place strategy steps →
        Q (.error (.unexpected t site.state site.stack)) r') :
    (Repairing.repairInline site).Yields r Q := by
  refine yields_bind (h.dropOne (fun r₁ hkeeps h₁ => ?_) fun t next lexical r₁ ht hnext hcontains
    hlexical h₁ => ?_)
  · refine yields_bind (h₁.canInsert (fun r₂ hstuck h₂ => ?_) fun t lexical r₂ ht hbridges hlexical
      h₂ => ?_)
    · exact yields_bind (h₂.unexpected fun t r₃ ht h₃ => hfail t r₃ ht hkeeps hstuck h₃)
    · refine yields_bind (h₂.peek 1 fun current r₃ hcurrent h₃ => ?_)
      obtain rfl := Option.some.inj (ht.symm.trans hcurrent)
      refine yields_bind (h₃.onStream (h₃.stream.previous 1) (·.previous 1) fun r₄ h₄ => ?_)
      exact yields_bind
        (h₄.push _ fun r₅ h₅ => hinsert t _ lexical r₅ ht hkeeps hbridges hlexical h₅)
  · refine yields_bind (h₁.consume fun t' r₂ ht' h₂ => ?_)
    obtain rfl := Option.some.inj (hnext.symm.trans ht')
    exact hdrop t next lexical r₂ ht hnext hcontains hlexical h₂

/-- Tokens are skipped while the strategy is recovering, up to one in the set or the
end. -/
theorem skipIn {Q : Nat → Repair → Prop} {set : TypeSet} {count : Nat}
    (h : r.Took origin ts place strategy steps) (hrecovering : strategy.recovering = true)
    (hcount : ts.length ≤ place + count)
    (hQ : ∀ skipped j t r', upcoming ts place = skipped ++ upcoming ts j → ts[j]? = some t →
      t.isEof = true ∨ set.contains t.type = true → r'.Took origin ts j strategy
        (steps ++ skipped.map (.consume · true)) → Q skipped.length r') :
    (Repairing.skipIn set count).Yields r Q := by
  obtain ⟨t, ht, hcases⟩ := h.stream.token
  induction count generalizing r place steps Q t with
  | zero => exact absurd hcount (Nat.not_le.mpr (List.getElem?_eq_some_iff.mp ht).1)
  | succ count ih =>
    refine yields_bind (h.peek 1 fun t' r₁ ht' h₁ => ?_)
    obtain rfl := Option.some.inj (ht.symm.trans ht')
    split
    · rename_i hstop
      refine hQ [] place t r₁ rfl ht (by simpa using hstop) ?_
      rwa [List.map_nil, List.append_nil]
    · rename_i hgo
      simp only [Bool.or_eq_true, not_or, Bool.not_eq_true] at hgo
      obtain ⟨hupcoming, hlt⟩ := (hcases.resolve_left fun hend => by simp [hgo.1] at hend).2
      refine yields_bind (h₁.isRecovering (yields_bind (h₁.consume fun t₂ r₂ ht₂ h₂ => ?_)))
      obtain rfl := Option.some.inj (ht.symm.trans ht₂)
      rw [hrecovering] at h₂
      obtain ⟨u, hu, hcases'⟩ := h₂.stream.token
      refine yields_bind
        (ih h₂ (by omega) (fun skipped j v r₃ hrest hv hstop h₃ => ?_) u hu hcases')
      refine hQ (t :: skipped) j v r₃ (by rw [hupcoming, hrest, List.cons_append]) hv hstop ?_
      rwa [List.map_cons, List.append_cons]

theorem skipTo {Q : Unit → Repair → Prop} {set : TypeSet}
    (h : r.Took origin ts place strategy steps) (hrecovering : strategy.recovering = true)
    (hQ : ∀ skipped j t r', upcoming ts place = skipped ++ upcoming ts j → ts[j]? = some t →
      t.isEof = true ∨ set.contains t.type = true → r'.Took origin ts j strategy
        (steps ++ skipped.map (.consume · true) ++
          if 0 < skipped.length then [.event (.resync skipped.length)] else []) → Q () r') :
    (Repairing.skipTo set).Yields r Q := by
  have hcount : ts.length ≤ place + (r.stream.horizon + 1) := by
    have := h.stream.shows.length_le
    omega
  refine yields_bind (yields_bind (h.skipIn hrecovering hcount
    fun skipped j t r₁ hskipped ht hstop h₁ => ?_))
  split
  · rename_i hsome
    refine h₁.push _ fun r₂ h₂ => hQ skipped j t r₂ hskipped ht hstop ?_
    rwa [if_pos hsome]
  · rename_i hnone
    refine hQ skipped j t r₁ hskipped ht hstop ?_
    rwa [if_neg hnone, List.append_nil]

end Repair.Took

end AdaptiveLL
