/-
Before a decision the parser is in step, or it is where it was.

The strategy is asked where a block or a loop begins and where a loop goes round.
It leaves a token alone that fits.  Else it drops one so that the next one fits, or
it skips tokens up to one that can be read there or behind a pending call; if
neither is possible it does nothing at all.
-/
import AdaptiveLL.Proofs.Lookahead.Exact
import AdaptiveLL.Proofs.Parser.Exhaustion
import AdaptiveLL.Proofs.Recovery.Steps

namespace AdaptiveLL

def StateRole.closesRound : StateRole → Bool
  | .starLoopBack | .plusLoopBack => true
  | _ => false

/-- Only states that offer alternatives have several transitions. -/
theorem Network.Runs.offersAlternatives {n : Network} {v : Vocabulary} {rules : List Rule}
    (hruns : n.Runs v rules) {id : Nat} {s : State} (hs : n.state? id = some s)
    (hdecision : s.isDecision = true) : s.role.offersAlternatives = true := by
  have hlength : 1 < s.transitions.length := by simpa [State.isDecision] using hdecision
  obtain ⟨_, _, _, _, _, _, hform⟩ :=
    hruns.laid.form_of_mem hs (List.getElem_mem (Nat.zero_lt_of_lt hlength))
  exact (hform.decides hlength).1

/-- Where the strategy is asked, a block or a loop begins or a loop goes round. -/
theorem Network.Runs.role_of_asked {n : Network} {v : Vocabulary} {rules : List Rule}
    (hruns : n.Runs v rules) {id : Nat} {s : State} (hs : n.state? id = some s)
    (hasked : s.isDecision = true ∨ Interpreter.alignsAlone s = true) :
    s.role.offersAlternatives = true ∨ s.role = .starLoopBack := by
  rcases hasked with hdecision | halone
  · exact .inl (hruns.offersAlternatives hs hdecision)
  · simp only [Interpreter.alignsAlone, Bool.or_eq_true, beq_iff_eq] at halone
    refine halone.symm.imp_left fun hrole => ?_
    rw [hrole]
    rfl

/-- The token ends the input, or it can be read at the site. -/
def Site.Fits (site : Site) (t : Token) : Prop :=
  t.isEof = true ∨ site.network.expects site.state site.stack t.type = true

def skipSteps (skipped : List Token) : List RepairStep :=
  skipped.map (.consume · true) ++
    if 0 < skipped.length then [.event (.resync skipped.length)] else []

section

variable {origin : TokenStream} {ts : List Token} {r : Repair} {place : Nat} {strategy : Strategy}
  {steps : List RepairStep} {site : Site}

open Repairing

/-- What is done before a decision depends on the role of the state. -/
theorem Repair.Took.align {Q : Except Mismatch Unit → Repair → Prop}
    (h : r.Took origin ts place strategy steps) {s : State}
    (hs : site.network.state? site.state = some s)
    (hrole : s.role.offersAlternatives = true ∨ s.role = .starLoopBack)
    (hclear : strategy.recovering = false)
    (hfits : ∀ t r', ts[place]? = some t → site.Fits t → r'.Took origin ts place strategy steps →
      Q (.ok ()) r')
    (hdrop : ∀ t next lexical r', ts[place]? = some t → ¬site.Fits t →
      ts[nextPlace ts place]? = some next → site.expected.contains next.type = true →
        (origin.Listed → lexical = []) → r'.Took origin ts (nextPlace ts place) {}
          (steps ++ strategy.dropSteps site t lexical) → Q (.ok ()) r')
    (hskip : ∀ t lexical skipped j next r', ts[place]? = some t → ¬site.Fits t →
      s.role.closesRound = true → upcoming ts place = skipped ++ upcoming ts j →
        ts[j]? = some next → next.isEof = true ∨ (site.expected.union
          (site.network.recoverySet site.stack)).contains next.type = true →
        (origin.Listed → lexical = []) → r'.Took origin ts j strategy.alert
          (steps ++ strategy.reportSteps t lexical (site.unwanted t) ++ skipSteps skipped) →
            Q (.ok ()) r')
    (hfail : ∀ t r', ts[place]? = some t → ¬site.Fits t →
      r'.Took origin ts place strategy steps →
        Q (.error (.unexpected t site.state site.stack)) r') :
    (Repairing.align site).Yields r Q := by
  refine yields_bind (h.isRecovering ?_)
  rw [hclear, if_neg Bool.false_ne_true]
  refine yields_bind (h.peek 1 fun t r₁ ht h₁ => ?_)
  have ht : ts[place]? = some t := ht
  by_cases hgood : site.Fits t
  · rw [if_pos (by simpa [Site.Fits] using hgood)]
    exact hfits t r₁ ht hgood h₁
  · rw [if_neg (by simpa [Site.Fits] using hgood), hs, Option.map_some]
    have hdropped : Yields (Repairing.dropBefore site) r₁ Q := by
      refine yields_bind (h₁.dropOne (fun r₂ _ h₂ => ?_) fun t' next lexical r₂ ht' hnext hcontains
        hlexical h₂ => ?_)
      · refine yields_bind (h₂.unexpected fun t' r₃ ht' h₃ => ?_)
        obtain rfl := Option.some.inj (ht.symm.trans ht')
        exact hfail t r₃ ht hgood h₃
      · obtain rfl := Option.some.inj (ht.symm.trans ht')
        exact hdrop t next lexical r₂ ht hgood hnext hcontains hlexical h₂
    have hskipped (hcloses : s.role.closesRound = true) : Yields (do
        Repairing.reportUnwanted site
        Repairing.skipTo (site.expected.union (site.network.recoverySet site.stack))
        return .ok ()) r₁ Q := by
      refine yields_bind (h₁.reportUnwanted fun t' lexical r₂ ht' hlexical h₂ => ?_)
      obtain rfl := Option.some.inj (ht.symm.trans ht')
      refine yields_bind (h₂.skipTo rfl fun skipped j next r₃ hskipped hnext hstop h₃ => ?_)
      rw [List.append_assoc (steps ++ _)] at h₃
      exact hskip t lexical skipped j next r₃ ht hgood hcloses hskipped hnext hstop hlexical h₃
    generalize s.role = role at hrole hskipped ⊢
    cases role with
    | blockStart | starBlockStart | plusBlockStart | starLoopEntry => exact hdropped
    | starLoopBack | plusLoopBack => exact hskipped rfl
    | basic | ruleStart | ruleStop | blockEnd | loopEnd =>
      simp [StateRole.offersAlternatives] at hrole

end

/-- Steps with so many reports at most that consume these tokens, all of them as
skipped. -/
structure Discards (steps : List RepairStep) (reports : Nat) (skipped : List Token) : Prop where
  reports_le : steps.countP RepairStep.isReport ≤ reports
  consumed_eq : steps.flatMap RepairStep.consumed = skipped
  skips : ∀ t b, .consume t b ∈ steps → b = true

namespace Discards

variable {steps steps' : List RepairStep} {reports reports' : Nat} {skipped skipped' : List Token}

theorem nil : Discards [] 0 [] :=
  ⟨Nat.le_refl _, rfl, nofun⟩

theorem append (h : Discards steps reports skipped) (h' : Discards steps' reports' skipped') :
    Discards (steps ++ steps') (reports + reports') (skipped ++ skipped') where
  reports_le := by
    rw [List.countP_append]
    exact Nat.add_le_add h.reports_le h'.reports_le
  consumed_eq := by rw [List.flatMap_append, h.consumed_eq, h'.consumed_eq]
  skips t b ht := (List.mem_append.mp ht).elim (h.skips t b) (h'.skips t b)

theorem event (e : Event) : Discards [.event e] 0 [] :=
  ⟨Nat.le_refl _, rfl, fun t b ht => by simp at ht⟩

theorem skip (t : Token) : Discards [.consume t true] 0 [t] :=
  ⟨Nat.le_refl _, rfl, fun t b ht => by simp_all⟩

theorem report (s : Strategy) (t : Token) (lexical : List LexError) (d : Diagnostic) :
    Discards (s.reportSteps t lexical d) 1 [] := by
  unfold Strategy.reportSteps
  split
  · exact ⟨Nat.zero_le _, rfl, nofun⟩
  · exact ⟨Nat.le_refl _, rfl, fun t b ht => by simp at ht⟩

theorem drop (s : Strategy) (site : Site) (t : Token) (lexical : List LexError) :
    Discards (s.dropSteps site t lexical) 1 [t] :=
  (report s t lexical _).append ((skip t).append (event .endRecovery))

theorem skipAll (skipped : List Token) : Discards (skipSteps skipped) 0 skipped := by
  have hskips : Discards (skipped.map (.consume · true)) 0 skipped := by
    induction skipped with
    | nil => exact nil
    | cons t skipped ih => exact (skip t).append ih
  have hresync : Discards (if 0 < skipped.length then [.event (.resync skipped.length)] else []) 0
      [] := by
    split
    · exact event _
    · exact nil
  have hall := hskips.append hresync
  rwa [List.append_nil] at hall

theorem mono (h : Discards steps reports skipped) (hle : reports ≤ reports') :
    Discards steps reports' skipped :=
  ⟨Nat.le_trans h.reports_le hle, h.consumed_eq, h.skips⟩

end Discards

/-- How the work before a decision can end: from place `i`, where the token
`current` is, the stream went to place `j` with the token `next`. -/
structure Site.Aligned (site : Site) (role : StateRole) (ts : List Token) (strategy : Strategy)
    (i j : Nat) (current next : Token) (result : Except Mismatch Unit) (after : Repair) : Prop where
  current_eq : ts[i]? = some current
  next_eq : ts[j]? = some next
  stream : after.stream.At ts j
  /-- A token that fits is left alone, and nothing is reported. -/
  fitting : current.isEof = true ∨ site.expected.contains current.type = true →
    result = .ok () ∧ j = i ∧ after.strategy = strategy ∧ after.steps = []
  /-- The parser goes on at the end of the input, at an expected token or, where a
  loop goes round, at one that a pending call can go on with. -/
  onward : result = .ok () → next.isEof = true ∨ site.expected.contains next.type = true ∨
    role.closesRound = true ∧ (site.network.recoverySet site.stack).contains next.type = true
  /-- If it does not go on, nothing was done, and the mismatch tells of the current
  token. -/
  stuck : ∀ m, result = .error m → m = .unexpected current site.state site.stack ∧ j = i ∧
    after.strategy = strategy ∧ after.steps = []
  /-- What the stream moved over was skipped, with one report at most. -/
  discards : ∃ skipped, Discards after.steps 1 skipped ∧
    upcoming ts i = skipped ++ upcoming ts j

/-- Wherever the strategy is asked in the network of a grammar, it leaves the parser
in step with the input or the input untouched. -/
theorem Repairing.align_in_step {d : Definition} {g : Grammar} (hbuild : d.build = .ok g)
    {id : StateId} {s : State} (hs : g.network.state? id = some s)
    (hasked : s.isDecision = true ∨ Interpreter.alignsAlone s = true) (stack : CallStack)
    {stream : TokenStream} {ts : List Token} {i : Nat} (hat : stream.At ts i)
    (htypes : ∀ t ∈ ts, t.type = .eof ∨ TokenType.first ≤ t.type) {strategy : Strategy}
    (hclear : strategy.recovering = false) :
    ∃ j current next,
      Site.Aligned ⟨g.network, g.vocabulary, id, stack⟩ s.role ts strategy i j current next
      ((Repairing.align ⟨g.network, g.vocabulary, id, stack⟩).run { strategy, stream }).1
      ((Repairing.align ⟨g.network, g.vocabulary, id, stack⟩).run { strategy, stream }).2 := by
  obtain ⟨rules, _, _, hruns⟩ := Definition.runs_of_build hbuild
  generalize hsite : (⟨g.network, g.vocabulary, id, stack⟩ : Site) = site
  have hfits (t : Token) (ht : ts[i]? = some t) :
      site.Fits t ↔ t.isEof = true ∨ site.expected.contains t.type = true := by
    -- The two look-aheads differ at the mark of an empty way only, which no token
    -- has for its type.
    have hreal : t.type ≠ .epsilon := by
      rintro heq
      have hor := htypes t (List.mem_of_getElem? ht)
      rw [heq] at hor
      exact absurd hor (by decide)
    rw [Site.Fits, Site.expected, Network.contains_expected_iff_expects hreal]
  have hhere : site.network.state? site.state = some s := hsite ▸ hs
  refine (Repair.took_begin hat strategy).align hhere (hruns.role_of_asked hs hasked)
    hclear ?_ ?_ ?_ ?_ (Q := fun result after => ∃ j current next,
      site.Aligned s.role ts strategy i j current next result after)
  · intro t after ht hfit htook
    have hidle : after.strategy = strategy ∧ after.steps = [] := ⟨htook.strategy, htook.steps⟩
    refine ⟨i, t, t, ht, ht, htook.stream, fun _ => ⟨rfl, rfl, hidle⟩, fun _ => ?_,
      fun _ h => (nomatch h), [], ?_, rfl⟩
    · exact ((hfits t ht).mp hfit).imp_right .inl
    · rw [hidle.2]
      exact Discards.nil.mono (Nat.zero_le 1)
  · intro t next lexical after ht hunfit hnext hcontains _ htook
    refine ⟨nextPlace ts i, t, next, ht, hnext, htook.stream,
      fun hfit => absurd ((hfits t ht).mpr hfit) hunfit, fun _ => .inr (.inl hcontains),
      fun _ h => (nomatch h), [t], ?_, ?_⟩
    · rw [htook.steps]
      exact .drop strategy site t lexical
    · obtain ⟨t', ht', hcases⟩ := hat.token
      obtain rfl := Option.some.inj (ht.symm.trans ht')
      exact (hcases.resolve_left fun hend => hunfit (.inl hend.1)).2.1
  · intro t lexical skipped j next after ht hunfit hcloses hskipped hnext hstop _ htook
    refine ⟨j, t, next, ht, hnext, htook.stream, fun hfit => absurd ((hfits t ht).mpr hfit) hunfit,
      fun _ => ?_, fun _ h => (nomatch h), skipped, ?_, hskipped⟩
    · rw [TypeSet.contains_union] at hstop
      exact hstop.imp_right (Or.imp_right fun h => ⟨hcloses, h⟩)
    · rw [htook.steps]
      exact (Discards.report strategy t lexical _).append (.skipAll skipped)
  · intro t after ht hunfit htook
    have hidle : after.strategy = strategy ∧ after.steps = [] := ⟨htook.strategy, htook.steps⟩
    refine ⟨i, t, t, ht, ht, htook.stream, fun hfit => absurd ((hfits t ht).mpr hfit) hunfit, nofun,
      ?_, [], ?_, rfl⟩
    · rintro _ ⟨⟩
      exact ⟨rfl, rfl, hidle⟩
    · rw [hidle.2]
      exact Discards.nil.mono (Nat.zero_le 1)

/-- Two tokens too many behind a round of the loop of `listing`. -/
def stray : List Token :=
  [.make 2 "b" 0 0 1 0, .make 2 "b" 1 1 1 1, .make 1 "a" 2 2 1 2]

def strayShown : List Token :=
  stray.mapIdx (fun i t => t.atIndex i) ++ [(Token.endOfInput 3 1 3).atIndex 3]

theorem align_in_step_listing :
    let g := listing.grammar isOk_build_listing
    let site : Site := ⟨g.network, g.vocabulary, 9, []⟩
    let begun : Repair := { strategy := {}, stream := .ofSource (.ofList stray) }
    let after := (Repairing.align site).run begun
    ∃ s j current next, g.network.state? 9 = some s ∧ Interpreter.alignsAlone s = true ∧
      Supplies (.ofList stray) 0 strayShown ∧
        site.Aligned s.role strayShown {} 0 j current next after.1 after.2 ∧
          after.2.steps.flatMap RepairStep.consumed = strayShown.take 2 := by
  intro g site begun after
  have hts : Supplies (.ofList stray) 0 strayShown := .more rfl (.more rfl (.more rfl (.last rfl)))
  have hat : begun.stream.At strayShown 0 := TokenStream.at_ofSource hts
  have hstate (h : (g.network.state? 9).isSome = true) :
      g.network.state? 9 = some ((g.network.state? 9).get h) := (Option.some_get h).symm
  have hs := hstate (by decide +kernel)
  have halone : Interpreter.alignsAlone ((g.network.state? 9).get (by decide +kernel)) = true := by
    decide +kernel
  have hbuild : listing.build = .ok g := listing.build_eq isOk_build_listing
  have hexists := Repairing.align_in_step hbuild hs (.inr halone) [] hat (by decide +kernel)
    (rfl : ({} : Strategy).recovering = false)
  obtain ⟨j, current, next, haligned⟩ := hexists
  have hskipped : after.2.steps.flatMap RepairStep.consumed = strayShown.take 2 := by decide +kernel
  exact ⟨_, j, current, next, hs, halone, hts, haligned, hskipped⟩

end AdaptiveLL
