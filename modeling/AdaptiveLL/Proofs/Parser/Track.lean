/-
Runs that can be completed.

While the network can complete what is ahead of a run, the run meets no mismatch:
the token at hand is expected, every decision takes an alternative that can be
completed, and no rule is entered twice at one place.  As the network cannot be
walked forever without reading a token, such a run ends.
-/
import AdaptiveLL.Proofs.Parser.After
import AdaptiveLL.Proofs.Parser.Clean

namespace AdaptiveLL

/-- With one way to go on, what completes a word goes this way. -/
theorem Completes.of_single {g : Graph} {p : Spot} {s : State} {t : Transition}
    {w : List TokenType} (hs : g.state? p.state = some s) (hrun : s.isStop = false)
    (ht : s.transitions = [t]) (h : Completes g p w) :
    (∃ q, p.admits t = true ∧ p.along t = some q ∧ Completes g q w) ∨
      ∃ a w', w = a :: w' ∧ t.accepts g.maxType a = true ∧
        Completes g { p with state := t.target } w' := by
  obtain ⟨m, h⟩ := h
  cases h with
  | done hstop =>
    rw [Graph.isStop, hs] at hstop
    exact absurd (hrun.symm.trans hstop) Bool.false_ne_true
  | silent hstep hrest =>
    cases hstep with
    | pass hs' _ ht' hpass hq =>
      obtain rfl := Option.some.inj (hs.symm.trans hs')
      rw [ht, List.mem_singleton] at ht'
      subst ht'
      exact .inl ⟨_, hpass, hq, _, hrest⟩
    | back hs' hstop =>
      obtain rfl := Option.some.inj (hs.symm.trans hs')
      exact absurd (hrun.symm.trans hstop) Bool.false_ne_true
  | read hs' _ ht' ha hrest =>
    obtain rfl := Option.some.inj (hs.symm.trans hs')
    rw [ht, List.mem_singleton] at ht'
    subst ht'
    exact .inr ⟨_, _, rfl, ha, _, hrest⟩

namespace View

/-- The rules that are pending, each with the place where it was entered. -/
def begun (x : View) : List (RuleIndex × Nat) :=
  x.frames.map fun i => (i.rule, i.startIndex)

@[simp] theorem begun_hop (x : View) (interp : Interpreter) (s : State) (target : StateId) :
    (interp.hop s target x).begun = x.begun := by
  rcases interp.hop_cases s target x with heq | heq <;> rw [heq] <;> rfl

/-- The invocations that began at the place of the run, but for the outermost one,
have opened one another without reading a token. -/
structure Nested (g : Graph) (start : RuleIndex) (x : View) : Prop where
  began : ∀ i ∈ x.begun, i.2 ≤ x.place
  opened : ∃ inner outer, x.begun = inner ++ outer ∧
    Opened g (inner.map Prod.fst) x.spot.position ∧ ∀ i ∈ outer, i.2 < x.place ∨ i.1 = start

/-- A run has met no mismatch, and the network can read this word, which is ahead,
and end the outermost rule. -/
structure OnTrack (n : Network) (start : RuleIndex) (ts : List Token) (w : List TokenType)
    (x : View) : Prop where
  coherent : x.Coherent n.toGraph start
  clear : x.strategy.recovering = false
  errors : x.errors = 0
  ahead : x.Ahead n.toGraph start ts w
  completes : Completes n.toGraph x.spot w
  ended : Past n.toGraph start x.spot → ∃ t, ts[x.place]? = some t ∧ t.isEof = true
  nested : ¬Past n.toGraph start x.spot → x.Nested n.toGraph start

end View

section Completing

variable {n : Network} {v : Vocabulary} {rules : List Rule} {start : RuleIndex} {r₀ : Rule}
  {ts : List Token} {w : List TokenType} {x y : View} {stream : TokenStream}

/-- A rule that ends with the end of the input is not ended without reading it. -/
theorem Rooted.eof_mem_of_completes (h : Rooted n v rules start r₀) {p : Spot}
    (hp : Placed n.toGraph start p) (hpast : ¬Past n.toGraph start p)
    (hw : Completes n.toGraph p w) : .eof ∈ w := by
  obtain ⟨m, hw⟩ := hw
  induction hw with
  | done hstop hstack => exact absurd (h.runs.past_of_stop hp hstop hstack) hpast
  | silent hstep _ ih =>
    exact ih (h.runs.placed_drift hp hstep.drift)
      (h.runs.not_past_drift h.rule h.body hp hpast hstep.drift)
  | @read _ _ _ _ a _ hs _ ht ha _ ih =>
    by_cases heof : a = .eof
    · exact heof ▸ List.mem_cons_self
    · exact List.mem_cons_of_mem _ (ih (h.runs.placed_read hp hs ht ha)
        (h.runs.not_past_read h.rule h.heads h.body hp hpast hs ht ha heof))

/-- The token at hand is expected. -/
theorem View.OnTrack.expects (h : Rooted n v rules start r₀) (hx : x.OnTrack n start ts w)
    (hat : stream.At ts x.place) {t : Token} (ht : ts[x.place]? = some t) (hrun : t.isEof = false) :
    n.expects x.state x.stack t.type = true := by
  obtain ⟨t', ht', hcases⟩ := hat.token
  obtain rfl := Option.some.inj (ht.symm.trans ht')
  cases hx.ahead with
  | past hpast =>
    obtain ⟨t', ht', heof⟩ := hx.ended hpast
    obtain rfl := Option.some.inj (ht.symm.trans ht')
    exact absurd (hrun.symm.trans heof) Bool.false_ne_true
  | input =>
    have hcompletes := hx.completes
    rcases hcases with ⟨heof, _⟩ | ⟨_, hupcoming, _⟩
    · exact absurd (hrun.symm.trans heof) Bool.false_ne_true
    · rw [hupcoming, List.map_cons] at hcompletes
      exact h.runs.orderly.expects_of_completes
        (h.runs.states_of_placed hx.coherent.placed) hcompletes

end Completing

namespace View.OnTrack

variable {interp : Interpreter} {v : Vocabulary} {rules : List Rule} {start : RuleIndex} {r₀ : Rule}
  {ts : List Token} {w : List TokenType} {x y : View} {stream : TokenStream} {s : State} {alt : Nat}

/-- What is ahead at a decision is what remains of the input. -/
theorem ahead_eq (hx : x.OnTrack interp.network start ts w)
    (hpast : ¬Past interp.network.toGraph start x.spot) :
    w = (upcoming ts x.place).map Token.type :=
  hx.ahead.unique (.input hpast)

/-- A decision takes the least alternative from which what is ahead can be completed. -/
theorem predicts_least (h : Rooted interp.network v rules start r₀)
    (hpermits : interp.network.Permits (some interp.hooks))
    (hx : x.OnTrack interp.network start ts w)
    (hs : interp.network.state? x.state = some s) (hdecision : s.isDecision = true)
    {outcome : Except PredictionFailure Prediction} (hpredicts : Predicts interp ts x outcome) :
    ∃ p, outcome = .ok p ∧
      (∃ q, x.decision.Offers interp.network.toGraph p.alt q ∧
        Completes interp.network.toGraph q w) ∧
      ∀ alt q, x.decision.Offers interp.network.toGraph alt q →
        Completes interp.network.toGraph q w → p.alt ≤ alt := by
  obtain ⟨stream, calls, hat, rfl⟩ := hpredicts
  have hpast := h.runs.not_past_of_decision h.rule (p := x.spot) hs hdecision
  have hw : w = remaining ts x.place ++ [.eof] := (hx.ahead_eq hpast).trans hat.upcoming_types
  have hcompletable {alt : Nat} : x.decision.Completable interp.network.toGraph
      (remaining ts x.place) alt ↔ ∃ q, x.decision.Offers interp.network.toGraph alt q ∧
        Completes interp.network.toGraph q w := by
    refine exists_congr fun q => and_congr_right fun hoffers => ⟨fun hfinishes => ?_, fun hq => ?_⟩
    · -- Without the end of the input the outermost rule is not ended.
      refine hw ▸ hfinishes.resolve_left fun hq => hat.eof_not_mem_remaining ?_
      exact h.eof_mem_of_completes (h.runs.placed_drift hx.coherent.placed hoffers.silent.drift)
        (h.runs.not_past_drift h.rule h.body hx.coherent.placed hpast hoffers.silent.drift) hq
    · exact .inr (hw ▸ hq)
  have hsome : ∃ alt, x.decision.Completable interp.network.toGraph (remaining ts x.place) alt := by
    obtain ⟨hrun, hepsilon⟩ := h.runs.transitions_of_decision hs hdecision
    obtain ⟨m, hm⟩ := hx.completes
    cases hm with
    | done hstop =>
      rw [Graph.isStop, show interp.network.state? x.spot.state = _ from hs] at hstop
      exact absurd (hrun.symm.trans hstop) Bool.false_ne_true
    | silent hstep hrest =>
      cases hstep with
      | pass hs' _ ht hpass hq =>
        obtain rfl := Option.some.inj (hs.symm.trans hs')
        obtain ⟨k, hk, rfl⟩ := List.getElem_of_mem ht
        exact ⟨k + 1, hcompletable.mpr ⟨_, ⟨Nat.succ_pos k, _, _, hs, hrun,
          List.getElem?_eq_getElem hk, hpass, hq⟩, _, hrest⟩⟩
      | back hs' hstop =>
        obtain rfl := Option.some.inj (hs.symm.trans hs')
        exact absurd (hrun.symm.trans hstop) Bool.false_ne_true
    | read hs' _ ht ha =>
      obtain rfl := Option.some.inj (hs.symm.trans hs')
      obtain ⟨_, rfl⟩ := hepsilon _ ht
      cases ha
  obtain ⟨p, hp, hleast⟩ := h.runs.decide_least h.rule h.heads hpermits calls (d := x.decision)
    hx.coherent.placed hs hdecision hat hat.upcoming_types hsome
  exact ⟨p, hp, hcompletable.mp hleast.1, fun alt q hoffers hq =>
    hleast.2 alt (hcompletable.mpr ⟨q, hoffers, hq⟩)⟩

/-- A state without a choice is passed by its transition. -/
theorem completes_of_single (h : Rooted interp.network v rules start r₀)
    (hx : x.OnTrack interp.network start ts w) (hs : interp.network.state? x.state = some s)
    {t : Transition} (ht : s.transitions = [t]) :
    (∃ q, x.spot.admits t = true ∧ x.spot.along t = some q ∧
      Completes interp.network.toGraph q w) ∨
      ∃ a w', w = a :: w' ∧ t.accepts interp.network.maxType a = true ∧
        Completes interp.network.toGraph { x.spot with state := t.target } w' := by
  obtain ⟨_, _, _, _, _, hrun, _⟩ := h.runs.laid.form_of_mem hs (ht ▸ List.mem_singleton_self t)
  exact hx.completes.of_single hs hrun ht

/-- A transition that reads accepts the token at hand. -/
theorem accepts (h : Rooted interp.network v rules start r₀)
    (hx : x.OnTrack interp.network start ts w) (hat : stream.At ts x.place)
    (hs : interp.network.state? x.state = some s) {t : Transition} (ht : s.transitions = [t])
    (hreads : t.isEpsilon = false) {tok : Token} (htok : ts[x.place]? = some tok) :
    t.accepts interp.network.maxType tok.type = true := by
  rcases hx.completes_of_single h hs ht with ⟨q, _, hq, _⟩ | ⟨a, w', rfl, ha, _⟩
  · cases t with
    | atom | set | wildcard => cases hq
    | _ => cases hreads
  · obtain ⟨tok', htok', hcases⟩ := hat.token
    obtain rfl := Option.some.inj (htok.symm.trans htok')
    generalize hw : a :: w' = w at hx
    cases hx.ahead with
    | past => cases hw
    | input =>
      have hhead : a = tok.type := by
        rcases hcases with ⟨_, hupcoming⟩ | ⟨_, hupcoming, _⟩ <;> rw [hupcoming] at hw <;>
          exact (List.cons.inj hw).1
      exact hhead ▸ ha

/-- The token at hand fits, so nothing is repaired. -/
theorem ready (h : Rooted interp.network v rules start r₀)
    (hx : x.OnTrack interp.network start ts w) (hat : stream.At ts x.place) :
    ¬(interp.site x).Unfit ts x.toStanding := by
  rintro ⟨_, t, ht, hrun, hunfit⟩
  exact absurd ((hx.expects h hat ht hrun).symm.trans hunfit) (by simp)

/-- A run that can be completed meets no mismatch. -/
theorem advances (h : Rooted interp.network v rules start r₀)
    (hpermits : interp.network.Permits (some interp.hooks))
    (hx : x.OnTrack interp.network start ts w) (hat : stream.At ts x.place)
    (hstep : Step interp ts x y) : Advances interp ts x y := by
  have hsees {s : State} {t : Transition} (hs : interp.network.state? x.state = some s)
      (ht : s.transitions = [t]) (hreads : t.isEpsilon = false) :
      ¬x.Sees ts fun a => t.accepts interp.network.maxType a = false := by
    rintro ⟨tok, htok, hnot⟩
    exact absurd ((hx.accepts h hat hs ht hreads htok).symm.trans hnot) (by simp)
  have hfits {z : View} (hready : Ready interp ts x z) : z = x := by
    cases hready with
    | fits => rfl
    | drop hunfit | skip hunfit => exact absurd hunfit (hx.ready h hat)
  cases hstep with
  | back hs hstop houter => exact .back hs hstop houter
  | branch hs hready hchosen ht =>
    obtain rfl := hfits hready
    exact .branch hs hchosen ht
  | unfit _ hunfit => exact absurd hunfit (hx.ready h hat)
  | undecided hs hdecision hready hundecided =>
    obtain rfl := hfits hready
    obtain ⟨_, hp, _⟩ := hx.predicts_least h hpermits hs hdecision hundecided
    cases hp
  | @take s t y hs ht htakes =>
    cases htakes with
    | hop => exact .hop hs ht
    | pass hsilent hcall hpass hhop => exact .pass hs ht hsilent hcall hpass hhop
    | call hfresh => exact .call hs ht hfresh
    | read htok ha => exact .read hs ht htok ha
    | drop hreads ha | insert hreads ha => exact absurd ha (hsees hs ht hreads)
  | @refused s t y hs ht hrefuses =>
    have hmem : t ∈ s.transitions := ht ▸ List.mem_singleton_self t
    cases hrefuses with
    | unread hreads ha => exact absurd ha (hsees hs ht hreads)
    | predicate hpredicate hfails =>
      have hholds := hpermits x.state s hs t hmem interp.hooks rfl _ _ _ hpredicate
      exact absurd ((hholds _).symm.trans hfails) (by simp)
    | precedence hpass =>
      rcases hx.completes_of_single h hs ht with ⟨_, hadmits, _⟩ | ⟨_, _, _, ha, _⟩
      · exact absurd (hadmits.symm.trans hpass) (by simp)
      · cases t with
        | precedence => cases ha
        | _ => cases hpass

end View.OnTrack

section Going

variable {interp : Interpreter} {v : Vocabulary} {rules : List Rule} {start : RuleIndex} {r₀ : Rule}
  {ts : List Token} {w : List TokenType} {x y : View} {stream : TokenStream}

theorem Advances.step (h : Advances interp ts x y) : Step interp ts x y := by
  cases h with
  | back hs hstop houter => exact .back hs hstop houter
  | branch hs hchosen ht => exact .branch hs .fits hchosen ht
  | hop hs ht => exact .take hs ht .hop
  | pass hs ht hsilent hcall hpass hhop => exact .take hs ht (.pass hsilent hcall hpass hhop)
  | call hs ht hfresh => exact .take hs ht (.call hfresh)
  | read hs ht htok ha => exact .take hs ht (.read htok ha)

theorem Advances.standing (h : Advances interp ts x y) : y.errors = x.errors ∧
    (x.strategy.recovering = false → y.strategy.recovering = false) := by
  cases h with
  | back | pass | call => exact ⟨rfl, id⟩
  | branch =>
    obtain ⟨_, hstrategy, herrors⟩ := View.standing_hop ..
    exact ⟨herrors, fun hclear => hstrategy ▸ hclear⟩
  | hop =>
    obtain ⟨_, hstrategy, herrors⟩ := View.standing_hop ..
    exact ⟨herrors, fun hclear => hstrategy ▸ hclear⟩
  | read => exact ⟨rfl, fun _ => rfl⟩

/-- Where there is no choice, there is one way to go on without reading a token. -/
theorem Network.Runs.silent_unique {n : Network} (hruns : n.Runs v rules)
    {p q q' : Spot} {s : State} (hs : n.state? p.state = some s) (hsingle : s.isDecision = false)
    (h : Silent n.toGraph p q) (h' : Silent n.toGraph p q') : q = q' := by
  cases h with
  | pass hs₁ hrun ht _ hq =>
    obtain rfl := Option.some.inj (hs.symm.trans hs₁)
    obtain ⟨t, hone, _⟩ := hruns.transitions_of_single hs hrun hsingle
    cases h' with
    | pass hs₂ _ ht' _ hq' =>
      obtain rfl := Option.some.inj (hs.symm.trans hs₂)
      rw [hone, List.mem_singleton] at ht ht'
      exact Option.some.inj (hq.symm.trans (ht.trans ht'.symm ▸ hq'))
    | back hs₂ hstop =>
      obtain rfl := Option.some.inj (hs.symm.trans hs₂)
      exact absurd (hrun.symm.trans hstop) Bool.false_ne_true
  | back hs₁ hstop hstack =>
    obtain rfl := Option.some.inj (hs.symm.trans hs₁)
    cases h' with
    | pass hs₂ hrun =>
      obtain rfl := Option.some.inj (hs.symm.trans hs₂)
      exact absurd (hrun.symm.trans hstop) Bool.false_ne_true
    | back _ _ hstack' =>
      obtain ⟨rfl, rfl⟩ := List.cons.inj (hstack.symm.trans hstack')
      rfl

/-- So what completes a word goes this way. -/
theorem Network.Runs.completes_along {n : Network} (hruns : n.Runs v rules) {p q : Spot} {s : State}
    (hs : n.state? p.state = some s) (hsingle : s.isDecision = false)
    (hq : Silent n.toGraph p q) (h : Completes n.toGraph p w) : Completes n.toGraph q w := by
  obtain ⟨m, hm⟩ := h
  cases hm with
  | done hstop hstack =>
    cases hq with
    | pass hs' hrun =>
      rw [Graph.isStop, hs'] at hstop
      exact absurd (hrun.symm.trans hstop) Bool.false_ne_true
    | back _ _ hstack' => exact absurd (hstack.symm.trans hstack') (List.cons_ne_nil _ _).symm
  | silent hstep hrest => exact ⟨_, hruns.silent_unique hs hsingle hstep hq ▸ hrest⟩
  | @read _ _ _ t _ _ hs' hrun ht ha =>
    obtain rfl := Option.some.inj (hs.symm.trans hs')
    obtain ⟨t', hone, _⟩ := hruns.transitions_of_single hs hrun hsingle
    cases hq with
    | @pass _ _ t'' hs'' _ ht'' _ hq =>
      obtain rfl := Option.some.inj (hs.symm.trans hs'')
      rw [hone, List.mem_singleton] at ht ht''
      obtain rfl := ht.trans ht''.symm
      cases t with
      | atom | set | wildcard => cases hq
      | _ => cases ha
    | back hs'' hstop =>
      obtain rfl := Option.some.inj (hs.symm.trans hs'')
      exact absurd (hrun.symm.trans hstop) Bool.false_ne_true

/-- Invocations stay nested where a step meets no mismatch, unless it reads the end
of the input. -/
theorem View.Nested.next (hruns : interp.network.Runs v rules)
    (hx : x.Nested interp.network.toGraph start) (hstep : Advances interp ts x y)
    (hread : ∀ tok, View.Reads interp.network ts x y tok → x.place < y.place) :
    y.Nested interp.network.toGraph start := by
  obtain ⟨inner, outer, hbegun, hopened, hbefore⟩ := hx.opened
  have hsame {s : State} {t : Transition} {y : View}
      (hs : interp.network.state? x.state = some s) (ht : t ∈ s.transitions)
      (hsilent : t.isEpsilon = true) (hcall : t.call? = none) (hy : y.begun = x.begun)
      (hplace : y.place = x.place) (hspot : y.spot = { x.spot with state := t.target }) :
      y.Nested interp.network.toGraph start := by
    obtain ⟨_, _, _, _, _, hrun, _⟩ := hruns.laid.form_of_mem hs ht
    refine ⟨?_, inner, outer, hy.trans hbegun, ?_, ?_⟩
    · rw [hy, hplace]
      exact hx.began
    · rw [hspot]
      exact hopened.level (hruns.orderly.level_pass hs hrun ht hsilent hcall)
    · rw [hplace]
      exact hbefore
  have hsingle {s : State} {t : Transition} (ht : s.transitions = [t]) : t ∈ s.transitions :=
    ht ▸ List.mem_singleton_self t
  cases hstep with
  | branch hs _ ht =>
    refine hsame hs (List.mem_of_getElem? ht) rfl rfl (View.begun_hop ..)
      (View.standing_hop ..).1 ?_
    rw [View.spot_hop, View.spot_setAlt]
    rfl
  | hop hs ht =>
    exact hsame hs (hsingle ht) rfl rfl (View.begun_hop ..)
      (View.standing_hop ..).1 (View.spot_hop ..)
  | pass hs ht hsilent hcall => exact hsame hs (hsingle ht) hsilent hcall rfl rfl rfl
  | @back s caller outer' hs hstop houter =>
    have htail : (x.back caller outer').begun = x.begun.tail := by
      rw [View.begun, View.begun, View.frames, View.frames, houter]
      rfl
    have hmem {i : RuleIndex × Nat} (hi : i ∈ (x.back caller outer').begun) : i ∈ x.begun :=
      List.mem_of_mem_tail (htail ▸ hi)
    refine ⟨fun i hi => hx.began i (hmem hi), inner.tail, if inner = [] then outer.tail else outer,
      ?_, ?_, fun i hi => hbefore i ?_⟩
    · rw [htail, hbegun]
      cases inner <;> rfl
    · cases inner with
      | nil => exact .none
      | cons i inner =>
        have hreturns : x.spot.position = ⟨x.state, x.current.follow ::
            (callers caller.toEntry outer').returnStates⟩ := by
          rw [Spot.position, View.spot, View.stack, houter]
          rfl
        rw [hreturns] at hopened
        exact hruns.orderly.opened_back hopened hs hstop
    · split at hi
      · exact List.mem_of_mem_tail hi
      · exact hi
  | @call s target rule follow level hs ht _ =>
    obtain ⟨_, _, _, _, _, hrun, _⟩ := hruns.laid.form_of_mem hs (hsingle ht)
    refine ⟨?_, (rule, x.place) :: inner, outer, congrArg ((rule, x.place) :: ·) hbegun,
      ?_, hbefore⟩
    · exact List.forall_mem_cons.mpr ⟨Nat.le_refl _, hx.began⟩
    · exact hruns.orderly.opened_call hopened hs hrun (hsingle ht)
  | @read s t tok hs ht htok ha =>
    obtain ⟨_, _, _, _, _, hrun, _⟩ := hruns.laid.form_of_mem hs (hsingle ht)
    have hlt := hread tok ⟨⟨s, t, hs, hrun, hsingle ht, ha, rfl⟩, htok, rfl⟩
    have hbefore' : ∀ i ∈ x.begun, i.2 < nextPlace ts x.place := fun i hi =>
      Nat.lt_of_le_of_lt (hx.began i hi) hlt
    exact ⟨fun i hi => Nat.le_of_lt (hbefore' i hi), [], x.begun, rfl, .none, fun i hi =>
      .inl (hbefore' i hi)⟩

/-- A rule that is called is not pending from the same place. -/
theorem View.Nested.not_pends (hruns : interp.network.Runs v rules)
    (hx : x.Nested interp.network.toGraph start) {s : State} {target follow : StateId}
    {rule : RuleIndex}
    {level precedence : Int} (hs : interp.network.state? x.state = some s)
    (ht : .call target rule follow level ∈ s.transitions) (hne : rule ≠ start) :
    ¬x.Pends rule precedence := by
  rintro ⟨i, hi, rfl, hplace, _⟩
  obtain ⟨inner, outer, hbegun, hopened, hbefore⟩ := hx.opened
  obtain ⟨_, _, _, _, _, hrun, _⟩ := hruns.laid.form_of_mem hs ht
  have hmem : (i.rule, i.startIndex) ∈ x.begun := List.mem_map.mpr ⟨i, hi, rfl⟩
  rw [hbegun, List.mem_append] at hmem
  rcases hmem with hinner | houter
  · exact hruns.orderly.not_mem_opened hopened hs hrun ht (List.mem_map.mpr ⟨_, hinner, rfl⟩)
  · rcases hbefore _ houter with hlt | hstart
    · exact absurd hplace (Nat.ne_of_lt hlt)
    · exact hne hstart

/-- The alternative that is chosen is the least from which what is ahead can be
completed. -/
theorem View.OnTrack.chosen_least (h : Rooted interp.network v rules start r₀)
    (hpermits : interp.network.Permits (some interp.hooks))
    (hx : x.OnTrack interp.network start ts w) {s : State}
    (hs : interp.network.state? x.state = some s) (hdecision : s.isDecision = true)
    {alt : Nat} (hchosen : Chosen interp ts s x alt) :
    (∃ q, x.decision.Offers interp.network.toGraph alt q ∧
      Completes interp.network.toGraph q w) ∧
    ∀ alt' q, x.decision.Offers interp.network.toGraph alt' q →
      Completes interp.network.toGraph q w → alt ≤ alt' := by
  cases hchosen with
  | predicted _ hp =>
    obtain ⟨_, hok, hleast⟩ := hx.predicts_least h hpermits hs hdecision hp
    exact Except.ok.inj hok ▸ hleast
  | left _ _ hp =>
    obtain ⟨_, hok, _⟩ := hx.predicts_least h hpermits hs hdecision hp
    cases hok
  | only hsingle => exact absurd (hdecision.symm.trans hsingle) (by simp)

/-- A step that reads nothing leads to where what is ahead can be completed. -/
theorem View.OnTrack.completes_silent (h : Rooted interp.network v rules start r₀)
    (hpermits : interp.network.Permits (some interp.hooks))
    (hx : x.OnTrack interp.network start ts w) (hstep : Advances interp ts x y)
    (hsilent : Silent interp.network.toGraph x.spot y.spot) :
    Completes interp.network.toGraph y.spot w := by
  obtain ⟨s, hs, _⟩ := hx.coherent.state
  cases hdecision : s.isDecision with
  | false => exact h.runs.completes_along hs hdecision hsilent hx.completes
  | true =>
    have hrun := (h.runs.transitions_of_decision hs hdecision).1
    cases hstep with
    | back hs' hstop =>
      obtain rfl := Option.some.inj (hs.symm.trans hs')
      exact absurd (hrun.symm.trans hstop) Bool.false_ne_true
    | branch hs' hchosen ht =>
      obtain rfl := Option.some.inj (hs.symm.trans hs')
      obtain ⟨q, ⟨_, s', t, hs₁, _, ht₁, _, hq⟩, hcompletes⟩ :=
        (hx.chosen_least h hpermits hs hdecision hchosen).1
      obtain rfl := Option.some.inj (hs.symm.trans hs₁)
      obtain rfl := Option.some.inj (ht₁.symm.trans ht)
      rw [View.spot_hop, View.spot_setAlt]
      obtain rfl := Option.some.inj hq
      exact hcompletes
    | hop hs' ht | pass hs' ht | call hs' ht | read hs' ht =>
      obtain rfl := Option.some.inj (hs.symm.trans hs')
      simp [State.isDecision, ht] at hdecision

/-- A step that reads a token leads to where what is ahead of the token can be
completed. -/
theorem View.OnTrack.completes_read (h : Rooted interp.network v rules start r₀)
    (hx : x.OnTrack interp.network start ts w) {tok : Token}
    (hread : View.Reads interp.network ts x y tok) {w' : List TokenType} (hw : w = tok.type :: w') :
    Completes interp.network.toGraph y.spot w' := by
  obtain ⟨s, t, hs, _, ht, ha, hspot⟩ := hread.transition
  have hone : s.transitions = [t] := by
    refine h.runs.transitions_of_reading hs ht ?_
    cases t with
    | atom | set | wildcard => rfl
    | _ => cases ha
  rcases hx.completes_of_single h hs hone with ⟨q, _, hq, _⟩ | ⟨a, w₁, hw₁, _, hrest⟩
  · cases t with
    | atom | set | wildcard => cases hq
    | _ => cases ha
  · obtain ⟨_, rfl⟩ := List.cons.inj (hw₁.symm.trans hw)
    exact hspot ▸ hrest

/-- A run that can be completed stays one, and it reads a token or drifts in the
network. -/
theorem View.OnTrack.next (h : Rooted interp.network v rules start r₀)
    (hpermits : interp.network.Permits (some interp.hooks))
    (hx : x.OnTrack interp.network start ts w) (hat : stream.At ts x.place)
    (hstep : Advances interp ts x y) :
    y.OnTrack interp.network start ts w ∧ Drift interp.network.toGraph x.spot y.spot ∨
      ∃ a w', w = a :: w' ∧ y.OnTrack interp.network start ts w' := by
  have hcoherent := hstep.step.coherent h.runs hx.coherent
  have hclear := hstep.standing.2 hx.clear
  have herrors := hstep.standing.1.trans hx.errors
  have hplaced := hx.coherent.placed
  have hnested (hpast : ¬Past interp.network.toGraph start y.spot) :
      y.Nested interp.network.toGraph start := by
    have hnot : ¬Past interp.network.toGraph start x.spot := fun hend => by
      rcases hstep.walks h.runs with ⟨hsilent, _⟩ | ⟨tok, hread⟩
      · exact hpast (h.runs.past_drift h.rule hend hsilent.drift)
      · obtain ⟨_, hahead, _⟩ := h.ahead_read hx.coherent hat hread
        cases hahead.unique (.past hend)
    refine (hx.nested hnot).next h.runs hstep fun tok hread => ?_
    obtain ⟨_, _, _, hend⟩ := h.ahead_read hx.coherent hat hread
    obtain ⟨tok', htok', hcases⟩ := hat.token
    obtain rfl := Option.some.inj (hread.token.symm.trans htok')
    rw [hread.place]
    rcases hcases with ⟨heof, _⟩ | ⟨_, _, hlt⟩
    · exact absurd (hend.mpr heof) hpast
    · exact hlt
  rcases hstep.walks h.runs with ⟨hsilent, hplace⟩ | ⟨tok, hread⟩
  · obtain ⟨w', hahead, hahead'⟩ := h.ahead_silent hx.coherent ts hsilent hplace
    obtain rfl := hahead.unique hx.ahead
    refine .inl ⟨⟨hcoherent, hclear, herrors, hahead', hx.completes_silent h hpermits hstep hsilent,
      fun hpast => ?_, hnested⟩, hsilent.drift⟩
    rw [hplace]
    refine hx.ended (by_contra fun hnot => ?_)
    exact h.runs.not_past_drift h.rule h.body hplaced hnot hsilent.drift hpast
  · obtain ⟨w', hahead, hahead', hend⟩ := h.ahead_read hx.coherent hat hread
    have hw := hx.ahead.unique hahead
    refine .inr ⟨_, _, hw, hcoherent, hclear, herrors, hahead', hx.completes_read h hread hw,
      fun hpast => ?_, hnested⟩
    rw [hread.place, nextPlace_of_isEof hread.token (hend.mp hpast)]
    exact ⟨tok, hread.token, hend.mp hpast⟩

/-- The steps of a run that can be completed. -/
def View.Tracks (interp : Interpreter) (start : RuleIndex) (ts : List Token) (x y : View) : Prop :=
  (∃ w, x.OnTrack interp.network start ts w) ∧ Advances interp ts x y

/-- A run that can be completed ends, without a report. -/
theorem View.OnTrack.finishes (h : Rooted interp.network v rules start r₀)
    (hpermits : interp.network.Permits (some interp.hooks)) (hnumbered : Numbered ts)
    (hx : x.OnTrack interp.network start ts w) {r : Run} (hr : r.Is ts x) :
    ∃ steps z, (interp.loop steps r).1 = .finished ∧ (interp.loop steps r).2.metrics.errors = 0 ∧
      (interp.loop steps r).2.tree = some z.node ∧
      Relation.ReflTransGen (View.Tracks interp start ts) x z ∧
      (∃ w, z.OnTrack interp.network start ts w) ∧ interp.network.isStop z.state = true ∧
        z.outer = [] := by
  obtain ⟨k, hk⟩ : ∃ k, w.length = k := ⟨_, rfl⟩
  -- A step reads a token, and less is ahead, or it drifts, and that comes to an end.
  induction k using Nat.strongRecOn generalizing w x r with
  | ind k ihk =>
    subst hk
    obtain ⟨p, hp⟩ : ∃ p, x.spot = p := ⟨_, rfl⟩
    have hsettles := h.runs.settles p
    induction hsettles generalizing x r with
    | intro p _ ih =>
      subst hp
      have hsteps := hr.step h.runs hnumbered hx.coherent
      generalize hresult : interp.step.run r = result at hsteps
      obtain ⟨ending, r'⟩ := result
      cases hsteps with
      | @running y _ hstep hr' =>
        have hadvances := hx.advances h hpermits hr.stream hstep
        have hrest : ∃ steps z, (interp.loop steps r').1 = .finished ∧
            (interp.loop steps r').2.metrics.errors = 0 ∧
            (interp.loop steps r').2.tree = some z.node ∧
            Relation.ReflTransGen (View.Tracks interp start ts) y z ∧
            (∃ w, z.OnTrack interp.network start ts w) ∧ interp.network.isStop z.state = true ∧
              z.outer = [] := by
          rcases hx.next h hpermits hr.stream hadvances with ⟨hy, hdrift⟩ | ⟨a, w', rfl, hy⟩
          · exact ih _ hdrift hy hr' rfl
          · exact ihk w'.length (Nat.lt_succ_self _) hy hr' rfl
        obtain ⟨steps, z, hhalt, hclean, htree, htracks, hz⟩ := hrest
        have hloop := Interpreter.loop_of_running hresult steps
        rw [← hloop] at hhalt hclean htree
        exact ⟨steps + 1, z, hhalt, hclean, htree, htracks.head ⟨⟨w, hx⟩, hadvances⟩, hz⟩
      | @finished s _ hs hstop houter _ htree herrors =>
        have hloop : interp.loop 1 r = (.finished, r'.flushLexErrors) :=
          Interpreter.loop_of_finished hresult 0
        refine ⟨1, x, ?_, ?_, ?_, .refl, ⟨w, hx⟩, ?_, houter⟩
        · rw [hloop]
        · rw [hloop]
          exact herrors.trans hx.errors
        · rw [hloop]
          exact htree
        · rw [Graph.isStop, hs]
          exact hstop
      | @defect _ _ rule _ _ _ _ hs ht hpends =>
        have hpast : ¬Past interp.network.toGraph start x.spot := fun hpast => by
          obtain ⟨_, heq⟩ := h.epsilon_of_past hpast hs ht
          cases heq
        have hne : rule ≠ start := fun hstart => by
          obtain ⟨s', hs', hcalled⟩ := hx.coherent.placed
          obtain rfl := Option.some.inj (hs.symm.trans hs')
          have hagain := Called.call (p := x.current.precedence) hcalled hs rfl ht
          rw [hstart] at hagain
          exact absurd (h.heads.stack_eq_nil h.body hagain) (List.cons_ne_nil _ _)
        exact absurd hpends ((hx.nested hpast).not_pends h.runs hs ht hne)

end Going

end AdaptiveLL
