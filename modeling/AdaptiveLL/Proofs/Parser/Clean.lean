/-
Runs that meet no mismatch.

A step that reports nothing follows the network: it reads the token at hand, or it
reads nothing.  So a run without reports reads a word that the network completes.
And where the network can complete what is ahead, every step reports nothing, takes
the least alternative that can be completed, and comes to where the rest can be
completed.
-/
import AdaptiveLL.Proofs.Nesting
import AdaptiveLL.Proofs.Parser.Loop
import AdaptiveLL.Proofs.Prediction.Least

namespace AdaptiveLL

/-- A step that meets no mismatch. -/
inductive Advances (interp : Interpreter) (ts : List Token) (x : View) : View → Prop where
  | back {s caller outer} (hs : interp.network.state? x.state = some s) (hstop : s.isStop = true)
      (houter : x.outer = caller :: outer) : Advances interp ts x (x.back caller outer)
  | branch {s alt mark target} (hs : interp.network.state? x.state = some s)
      (hchosen : Chosen interp ts s x alt)
      (ht : s.transitions[alt - 1]? = some (.epsilon target)) :
      Advances interp ts x (interp.hop s target (x.setAlt mark))
  | hop {s target} (hs : interp.network.state? x.state = some s)
      (ht : s.transitions = [.epsilon target]) : Advances interp ts x (interp.hop s target x)
  | pass {s t} (hs : interp.network.state? x.state = some s) (ht : s.transitions = [t])
      (hsilent : t.isEpsilon = true) (hcall : t.call? = none) (hpass : x.spot.admits t = true)
      (hhop : ∀ target, t ≠ .epsilon target) : Advances interp ts x (x.goto t.target)
  | call {s start rule follow level} (hs : interp.network.state? x.state = some s)
      (ht : s.transitions = [.call start rule follow level]) (hfresh : ¬x.Pends rule level) :
      Advances interp ts x (x.call (interp.network.ruleName rule) start rule follow level)
  | read {s t tok} (hs : interp.network.state? x.state = some s) (ht : s.transitions = [t])
      (htok : ts[x.place]? = some tok)
      (ha : t.accepts interp.network.maxType tok.type = true) :
      Advances interp ts x ((x.onto (x.matched.eat ts false)).goto t.target)

namespace View

/-- A run that is recovering has reported a mismatch. -/
def Fair (x : View) : Prop :=
  x.strategy.recovering = true → 0 < x.errors

@[simp] theorem stack_setAlt (x : View) (mark : Nat) : (x.setAlt mark).stack = x.stack := by
  unfold stack setAlt
  cases x.outer <;> rfl

@[simp] theorem stack_wrap (x : View) : x.wrap.stack = x.stack := by
  unfold stack wrap
  cases x.outer <;> rfl

@[simp] theorem spot_setAlt (x : View) (mark : Nat) : (x.setAlt mark).spot = x.spot := by
  rw [spot, stack_setAlt]
  rfl

@[simp] theorem spot_hop (x : View) (interp : Interpreter) (s : State) (target : StateId) :
    (interp.hop s target x).spot = { x.spot with state := target } := by
  rcases interp.hop_cases s target x with heq | heq <;> rw [heq]
  · rfl
  · have hstack := x.stack_wrap
    rw [spot, spot, ← hstack]
    rfl

theorem standing_hop (x : View) (interp : Interpreter) (s : State) (target : StateId) :
    (interp.hop s target x).place = x.place ∧ (interp.hop s target x).strategy = x.strategy ∧
      (interp.hop s target x).errors = x.errors := by
  rcases interp.hop_cases s target x with heq | heq <;> rw [heq] <;> exact ⟨rfl, rfl, rfl⟩

end View

section Reports

variable {interp : Interpreter} {ts : List Token} {x y : View}

theorem Standing.errors_report (ts : List Token) (x : Standing)
    (h : x.strategy.recovering = false) : (x.report ts).errors = x.errors + 1 := by
  rw [report, if_neg (by simp [h])]

theorem Standing.errors_le_report (ts : List Token) (x : Standing) :
    x.errors ≤ (x.report ts).errors := by
  unfold report
  split
  · exact Nat.le_refl _
  · exact Nat.le_succ _

/-- A mismatch that ends a rule leaves the run recovering. -/
theorem GivesUp.reports {n : Network} (h : GivesUp n ts x y) :
    y.strategy.recovering = true ∧ y.errors = (x.report ts).errors := by
  cases h with
  | @«at» span z _ hskips =>
    obtain ⟨hstrategy, herrors⟩ := hskips.strategy
    have hnote : (((x.report ts).force ts span.stop).note span.stop).strategy.recovering =
        (x.report ts).strategy.recovering := by
      rw [← Standing.force_recovering ts (x.report ts) span.stop]
      rfl
    refine ⟨?_, ?_⟩
    · exact (congrArg Strategy.recovering hstrategy).trans
        (hnote.trans (Standing.report_recovering ts _))
    · refine herrors.trans ?_
      unfold Standing.note Standing.force
      split <;> rfl

theorem Ready.errors_le (h : Ready interp ts x y) : x.errors ≤ y.errors ∧ (x.Fair → y.Fair) := by
  cases h with
  | fits => exact ⟨Nat.le_refl _, id⟩
  | drop => exact ⟨(x.errors_le_report ts), fun _ h => nomatch h⟩
  | skip hunfit hskips =>
    obtain ⟨_, herrors⟩ := hskips.strategy
    have hreport := x.errors_report ts hunfit.1
    have hle : x.errors + 1 ≤ _ := Nat.le_of_eq (hreport.symm.trans herrors.symm)
    exact ⟨Nat.le_of_succ_le hle, fun _ _ => Nat.lt_of_lt_of_le (Nat.succ_pos _) hle⟩

theorem GivesUp.errors_lt {n : Network} (h : GivesUp n ts x y)
    (hclear : x.strategy.recovering = false) : x.errors < y.errors := by
  rw [h.reports.2, x.errors_report ts hclear]
  exact Nat.lt_succ_self _

theorem GivesUp.fair {n : Network} (h : GivesUp n ts x y) (hfair : x.Fair) :
    x.errors ≤ y.errors ∧ y.Fair := by
  have hle : x.errors ≤ y.errors := h.reports.2 ▸ (x.errors_le_report ts)
  refine ⟨hle, fun _ => ?_⟩
  cases hclear : x.strategy.recovering with
  | true => exact Nat.lt_of_lt_of_le (hfair hclear) hle
  | false => exact Nat.lt_of_le_of_lt (Nat.zero_le _) (h.errors_lt hclear)

/-- Reports are never taken back, and a run that is recovering has reported
something. -/
theorem Step.fair (h : Step interp ts x y) (hfair : x.Fair) : x.errors ≤ y.errors ∧ y.Fair := by
  cases h with
  | back => exact ⟨Nat.le_refl _, hfair⟩
  | @branch s z alt mark target _ hready =>
    obtain ⟨hle, hz⟩ := hready.errors_le
    obtain ⟨_, hstrategy, herrors⟩ := (z.setAlt mark).standing_hop interp s target
    unfold View.Fair
    rw [hstrategy, herrors]
    exact ⟨hle, hz hfair⟩
  | unfit _ _ hup => exact hup.fair hfair
  | undecided _ _ hready _ hup =>
    obtain ⟨hle, hz⟩ := hready.errors_le
    obtain ⟨hle', hy⟩ := hup.fair (hz hfair)
    exact ⟨hle.trans hle', hy⟩
  | refused _ _ _ hup => exact hup.fair hfair
  | @take s t _ _ _ htakes =>
    cases htakes with
    | @hop target =>
      obtain ⟨_, hstrategy, herrors⟩ := x.standing_hop interp s target
      unfold View.Fair
      rw [hstrategy, herrors]
      exact ⟨Nat.le_refl _, hfair⟩
    | pass => exact ⟨Nat.le_refl _, hfair⟩
    | call => exact ⟨Nat.le_refl _, hfair⟩
    | read => exact ⟨Nat.le_refl _, fun h => nomatch h⟩
    | drop => exact ⟨(x.errors_le_report ts), fun h => nomatch h⟩
    | insert =>
      refine ⟨(x.errors_le_report ts), fun _ => ?_⟩
      change 0 < (x.report ts).errors
      cases hclear : x.strategy.recovering with
      | true => exact Nat.lt_of_lt_of_le (hfair hclear) (x.errors_le_report ts)
      | false =>
        rw [x.errors_report ts hclear]
        exact Nat.succ_pos _

theorem View.fair_of_clear (hclear : x.strategy.recovering = false) : x.Fair := fun h =>
  absurd (hclear.symm.trans h) Bool.false_ne_true

/-- Where input is made to fit, a mismatch is reported. -/
theorem Ready.fits_or_lt (h : Ready interp ts x y) (hclear : x.strategy.recovering = false) :
    y = x ∨ x.errors < y.errors := by
  have hreport := x.errors_report ts hclear
  cases h with
  | fits => exact .inl rfl
  | drop => exact .inr (Nat.lt_of_succ_le (Nat.le_of_eq hreport.symm))
  | skip _ hskips =>
    exact .inr (Nat.lt_of_succ_le (Nat.le_of_eq (hskips.strategy.2.trans hreport).symm))

/-- A step that reports nothing meets no mismatch. -/
theorem Step.advances (h : Step interp ts x y) (hclear : x.strategy.recovering = false)
    (herrors : y.errors ≤ x.errors) : Advances interp ts x y := by
  cases h with
  | back hs hstop houter => exact .back hs hstop houter
  | @branch s z alt mark target hs hready hchosen ht =>
    rw [((z.setAlt mark).standing_hop interp s target).2.2] at herrors
    rcases hready.fits_or_lt hclear with rfl | hlt
    · exact .branch hs hchosen ht
    · exact absurd herrors (Nat.not_le.mpr hlt)
  | unfit _ _ hup => exact absurd herrors (Nat.not_le.mpr (hup.errors_lt hclear))
  | undecided _ _ hready _ hup =>
    rcases hready.fits_or_lt hclear with rfl | hlt
    · exact absurd herrors (Nat.not_le.mpr (hup.errors_lt hclear))
    · have hle := (hup.fair (hready.errors_le.2 (View.fair_of_clear hclear))).1
      exact absurd herrors (Nat.not_le.mpr (Nat.lt_of_lt_of_le hlt hle))
  | refused _ _ _ hup => exact absurd herrors (Nat.not_le.mpr (hup.errors_lt hclear))
  | take hs ht htakes =>
    have hreport := Nat.lt_of_succ_le (Nat.le_of_eq (x.errors_report ts hclear).symm)
    cases htakes with
    | hop => exact .hop hs ht
    | pass hsilent hcall hpass hhop => exact .pass hs ht hsilent hcall hpass hhop
    | call hfresh => exact .call hs ht hfresh
    | read htok ha => exact .read hs ht htok ha
    | drop | insert => exact absurd herrors (Nat.not_le.mpr hreport)

end Reports

/-- The network runs a grammar whose outermost rule, of this number, ends with the
end of the input. -/
structure Rooted (n : Network) (v : Vocabulary) (rules : List Rule) (start : RuleIndex)
    (r₀ : Rule) : Prop where
  runs : n.Runs v rules
  rule : rules[start]? = some r₀
  heads : Heads n start r₀
  body : r₀.body.EndsLast

/-- The types that a run has still to read: those ahead, or none once only the end
of the outermost rule is left. -/
inductive View.Ahead (g : Graph) (start : RuleIndex) (ts : List Token) (x : View) :
    List TokenType → Prop where
  | past (hpast : Past g start x.spot) : Ahead g start ts x []
  | input (hpast : ¬Past g start x.spot) :
      Ahead g start ts x ((upcoming ts x.place).map Token.type)

section Reading

variable {interp : Interpreter} {ts : List Token} {x y : View} {v : Vocabulary} {rules : List Rule}
  {start : RuleIndex} {r₀ : Rule} {stream : TokenStream} {w : List TokenType}

theorem View.Ahead.unique {g : Graph} {w' : List TokenType} (h : x.Ahead g start ts w)
    (h' : x.Ahead g start ts w') : w = w' := by
  cases h with
  | past hpast =>
    cases h' with
    | past => rfl
    | input hnot => exact absurd hpast hnot
  | input hnot =>
    cases h' with
    | past hpast => exact absurd hpast hnot
    | input => rfl

/-- A step between two views reads the token at hand. -/
structure View.Reads (n : Network) (ts : List Token) (x y : View) (tok : Token) : Prop where
  transition : ∃ s t, n.state? x.state = some s ∧ s.isStop = false ∧ t ∈ s.transitions ∧
    t.accepts n.maxType tok.type = true ∧ y.spot = { x.spot with state := t.target }
  token : ts[x.place]? = some tok
  place : y.place = nextPlace ts x.place

/-- A step that meets no mismatch reads nothing, or the token at hand. -/
theorem Advances.walks (hruns : interp.network.Runs v rules) (h : Advances interp ts x y) :
    Silent interp.network.toGraph x.spot y.spot ∧ y.place = x.place ∨
      ∃ tok, View.Reads interp.network ts x y tok := by
  have hgoes {s : State} {t : Transition} {q : Spot} (hs : interp.network.state? x.state = some s)
      (ht : t ∈ s.transitions) (hpass : x.spot.admits t = true) (hq : x.spot.along t = some q) :
      Silent interp.network.toGraph x.spot q := by
    obtain ⟨_, _, _, _, _, hrun, _⟩ := hruns.laid.form_of_mem hs ht
    exact .pass hs hrun ht hpass hq
  have hsingle {s : State} {t : Transition} (ht : s.transitions = [t]) : t ∈ s.transitions :=
    ht ▸ List.mem_singleton_self t
  cases h with
  | @back s caller outer hs hstop houter =>
    refine .inl ⟨?_, rfl⟩
    have hstack : x.spot.stack = ⟨x.current.follow, caller.precedence⟩ ::
        callers caller.toEntry outer := by
      rw [View.spot, View.stack, houter]
      rfl
    exact .back hs hstop hstack
  | branch hs _ ht =>
    rw [View.spot_hop, View.spot_setAlt, (View.standing_hop ..).1]
    exact .inl ⟨hgoes hs (List.mem_of_getElem? ht) rfl rfl, rfl⟩
  | hop hs ht =>
    rw [View.spot_hop, (View.standing_hop ..).1]
    exact .inl ⟨hgoes hs (hsingle ht) rfl rfl, rfl⟩
  | @pass s t hs ht hsilent hcall hpass _ =>
    refine .inl ⟨hgoes hs (hsingle ht) hpass ?_, rfl⟩
    cases t with
    | epsilon | predicate | precedence | action => rfl
    | atom | set | wildcard => cases hsilent
    | call => cases hcall
  | call hs ht _ => exact .inl ⟨hgoes hs (hsingle ht) rfl rfl, rfl⟩
  | read hs ht htok ha =>
    obtain ⟨_, _, _, _, _, hrun, _⟩ := hruns.laid.form_of_mem hs (hsingle ht)
    exact .inr ⟨_, ⟨_, _, hs, hrun, hsingle ht, ha, rfl⟩, htok, rfl⟩

/-- Past the rest of the outermost rule there are only empty transitions. -/
theorem Rooted.epsilon_of_past {n : Network} (h : Rooted n v rules start r₀) {p : Spot}
    (hpast : Past n.toGraph start p) {s : State} {t : Transition} (hs : n.state? p.state = some s)
    (ht : t ∈ s.transitions) : ∃ target, t = .epsilon target := by
  rcases h.runs.past_cases h.rule hpast with hstops | ⟨stop, _, _, hleads⟩
  · rw [hstops.transitions hs] at ht
    cases ht
  · obtain ⟨s', hs', _, hts⟩ := hleads.state
    obtain rfl := Option.some.inj (hs.symm.trans hs')
    exact ⟨stop, List.mem_singleton.mp (hts ▸ ht)⟩

/-- What is ahead stays ahead where nothing is read. -/
theorem Rooted.ahead_silent (h : Rooted interp.network v rules start r₀)
    (hx : x.Coherent interp.network.toGraph start) (ts : List Token)
    (hsilent : Silent interp.network.toGraph x.spot y.spot) (hplace : y.place = x.place) :
    ∃ w, x.Ahead interp.network.toGraph start ts w ∧ y.Ahead interp.network.toGraph start ts w := by
  by_cases hpast : Past interp.network.toGraph start x.spot
  · exact ⟨[], .past hpast, .past (h.runs.past_drift h.rule hpast hsilent.drift)⟩
  · have hnot := h.runs.not_past_drift h.rule h.body hx.placed hpast hsilent.drift
    exact ⟨_, .input hpast, hplace ▸ .input hnot⟩

/-- A token is read before the rest of the outermost rule is past, and it is the
first of what is ahead. -/
theorem Rooted.ahead_read (h : Rooted interp.network v rules start r₀)
    (hx : x.Coherent interp.network.toGraph start) (hat : stream.At ts x.place) {tok : Token}
    (hread : View.Reads interp.network ts x y tok) :
    ∃ w, x.Ahead interp.network.toGraph start ts (tok.type :: w) ∧
      y.Ahead interp.network.toGraph start ts w ∧
        (Past interp.network.toGraph start y.spot ↔ tok.isEof = true) := by
  obtain ⟨s, t, hs, _, ht, ha, hspot⟩ := hread.transition
  have hpast : ¬Past interp.network.toGraph start x.spot := fun hpast => by
    obtain ⟨_, rfl⟩ := h.epsilon_of_past hpast hs ht
    cases ha
  obtain ⟨tok', htok', hcases⟩ := hat.token
  obtain rfl := Option.some.inj (hread.token.symm.trans htok')
  rcases hcases with ⟨heof, hupcoming⟩ | ⟨hrun, hupcoming, _⟩
  · have htype : tok.type = .eof := eq_of_beq heof
    have hend := h.runs.past_read h.rule h.heads hx.placed hs ht (htype ▸ ha)
    rw [← hspot] at hend
    refine ⟨[], ?_, .past hend, iff_of_true hend heof⟩
    have hahead : x.Ahead interp.network.toGraph start ts _ := .input hpast
    rwa [hupcoming] at hahead
  · have htype : tok.type ≠ .eof := fun htype => by
      simp [Token.isEof, htype] at hrun
    have hnot := h.runs.not_past_read h.rule h.heads h.body hx.placed hpast hs ht ha htype
    rw [← hspot] at hnot
    refine ⟨(upcoming ts y.place).map Token.type, ?_, .input hnot,
      iff_of_false hnot (by simp [hrun])⟩
    have hahead : x.Ahead interp.network.toGraph start ts _ := .input hpast
    rwa [hupcoming, List.map_cons, ← hread.place] at hahead

/-- What is completed behind a step without a mismatch is completed with what it
reads. -/
theorem Advances.completes (h : Rooted interp.network v rules start r₀)
    (hx : x.Coherent interp.network.toGraph start) (hat : stream.At ts x.place)
    (hstep : Advances interp ts x y) (hy : y.Ahead interp.network.toGraph start ts w)
    (hw : Completes interp.network.toGraph y.spot w) :
    ∃ w', x.Ahead interp.network.toGraph start ts w' ∧
      Completes interp.network.toGraph x.spot w' := by
  rcases hstep.walks h.runs with ⟨hsilent, hplace⟩ | ⟨tok, hread⟩
  · obtain ⟨w', hx', hy'⟩ := h.ahead_silent hx ts hsilent hplace
    obtain rfl := hy.unique hy'
    exact ⟨w, hx', hw.silent hsilent⟩
  · obtain ⟨w', hx', hy', _⟩ := h.ahead_read hx hat hread
    obtain rfl := hy.unique hy'
    obtain ⟨s, t, hs, hrun, ht, ha, hspot⟩ := hread.transition
    exact ⟨_, hx', .read hs hrun ht ha (hspot ▸ hw)⟩

/-- A run that ends and has reported nothing has read a word that the network
completes. -/
theorem Interpreter.completes_of_clean (h : Rooted interp.network v rules start r₀)
    (hnumbered : Numbered ts) (steps : Nat) {r : Run} (hr : r.Is ts x)
    (hx : x.Coherent interp.network.toGraph start) (hfair : x.Fair)
    (hhalt : (interp.loop steps r).1 = .finished)
    (hclean : (interp.loop steps r).2.metrics.errors = 0) :
    x.errors = 0 ∧ ∃ w, x.Ahead interp.network.toGraph start ts w ∧
      Completes interp.network.toGraph x.spot w := by
  induction steps generalizing r x with
  | zero => cases hhalt
  | succ steps ih =>
    rw [loop] at hhalt hclean
    have hsteps := hr.step h.runs hnumbered hx
    generalize interp.step.run r = result at hsteps hhalt hclean
    obtain ⟨ending, r'⟩ := result
    cases hsteps with
    | @running y _ hstep hr' =>
      obtain ⟨hle, hfair'⟩ := hstep.fair hfair
      obtain ⟨herrors, w, hw, hcompletes⟩ := ih hr' (hstep.coherent h.runs hx) hfair' hhalt hclean
      have hzero : x.errors = 0 := Nat.le_zero.mp (herrors ▸ hle)
      have hclear : x.strategy.recovering = false := by
        by_contra hrecovering
        exact absurd (hfair (by simpa using hrecovering)) (by omega)
      exact ⟨hzero, (hstep.advances hclear (by omega)).completes h hx hr.stream hw hcompletes⟩
    | finished hs hstop houter _ _ herrors =>
      have hstack : x.spot.stack = [] := by
        rw [View.spot, View.stack, houter]
        rfl
      have hisStop : interp.network.isStop x.spot.state = true := by
        rw [Graph.isStop, show interp.network.state? x.spot.state = _ from hs]
        exact hstop
      exact ⟨herrors.symm.trans hclean, [], .past (h.runs.past_of_stop hx.placed hisStop hstack),
        .done hisStop hstack⟩
    | defect => cases hhalt

end Reading

end AdaptiveLL
