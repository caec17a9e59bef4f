/-
Which alternative a prediction takes.

While the paths of a decision move over the tokens ahead, every alternative that can
be completed keeps a path that can be completed, and a path that can be completed is
always one of such an alternative.  So whenever the lowest alternative wins, the
lowest completable one does, after however many tokens.
-/
import AdaptiveLL.Prediction
import AdaptiveLL.Proofs.Prediction.Reach
import AdaptiveLL.Proofs.Stream

namespace AdaptiveLL

/-- The network can read what remains of the input and end the outermost rule,
through the end of the input if the rule ends with it. -/
def Finishes (g : Graph) (p : Spot) (remaining : List TokenType) : Prop :=
  Completes g p remaining ∨ Completes g p (remaining ++ [.eof])

theorem Finishes.silents {g : Graph} {p q : Spot} {remaining : List TokenType}
    (hsteps : Silents g p q) (h : Finishes g q remaining) : Finishes g p remaining :=
  h.imp (Completes.silents hsteps) (Completes.silents hsteps)

def Decision.spot (d : Decision) : Spot :=
  ⟨d.state, d.precedence, d.stack⟩

/-- An alternative of a decision, counted from one, leads to this spot. -/
def Decision.Offers (d : Decision) (g : Graph) (alt : Nat) (q : Spot) : Prop :=
  0 < alt ∧ ∃ s t, g.state? d.state = some s ∧ s.isStop = false ∧
    s.transitions[alt - 1]? = some t ∧ d.spot.admits t = true ∧ d.spot.along t = some q

/-- An alternative of a decision has a path that reads what remains of the input and
ends the outermost rule. -/
def Decision.Completable (d : Decision) (g : Graph) (remaining : List TokenType) (alt : Nat) :
    Prop :=
  ∃ q, d.Offers g alt q ∧ Finishes g q remaining

def Decision.firstStep (d : Decision) (x : Transition × Nat) : Path :=
  { d.startPath (x.2 + 1) with state := x.1.target }

theorem Decision.Offers.silent {d : Decision} {g : Graph} {alt : Nat} {q : Spot}
    (h : d.Offers g alt q) : Silent g d.spot q := by
  obtain ⟨_, s, t, hs, hrun, ht, hadmits, hq⟩ := h
  exact .pass hs hrun (List.mem_of_getElem? ht) hadmits hq

/-- An alternative leads to one spot only. -/
theorem Decision.Offers.unique {d : Decision} {g : Graph} {alt : Nat} {q q' : Spot}
    (h : d.Offers g alt q) (h' : d.Offers g alt q') : q = q' := by
  obtain ⟨_, s, t, hs, _, ht, _, hq⟩ := h
  obtain ⟨_, s', t', hs', _, ht', _, hq'⟩ := h'
  obtain rfl := Option.some.inj (hs.symm.trans hs')
  obtain rfl := Option.some.inj (ht.symm.trans ht')
  exact Option.some.inj (hq.symm.trans hq')

/-- What completes a word comes, without reading a token, to where a path is live. -/
theorem Completes.live {n : Network} {p : Spot} {w : List TokenType}
    (h : Completes n.toGraph p w) :
    ∃ q, Silents n.toGraph p q ∧ Path.Live n q ∧ Completes n.toGraph q w := by
  obtain ⟨q, hsilents, ⟨hstop, hstack, rfl⟩ | ⟨s, t, a, w', hs, hrun, ht, ha, rfl, hrest⟩⟩ :=
    h.ready
  · obtain ⟨s, hs, hstop'⟩ : ∃ s, n.state? q.state = some s ∧ s.isStop = true :=
      (Option.any_eq_true _ _).mp hstop
    exact ⟨q, hsilents, ⟨s, hs, .inl ⟨hstop', hstack⟩⟩, .done hstop hstack⟩
  · refine ⟨q, hsilents, ⟨s, hs, .inr ⟨hrun, ?_⟩⟩, .read hs hrun ht ha hrest⟩
    rw [State.readsNothing, List.all_eq_false]
    exact ⟨t, ht, by simp [Transition.isEpsilon_of_accepts ha]⟩

namespace Network.Runs

variable {n : Network} {v : Vocabulary} {rules : List Rule} {p q : Spot}

/-- A state that reads a token has no other transition. -/
theorem transitions_of_reading (hruns : n.Runs v rules) {id : Nat} {s : State} {t : Transition}
    (hs : n.state? id = some s) (ht : t ∈ s.transitions) (hreads : t.isEpsilon = false) :
    s.transitions = [t] := by
  obtain ⟨_, _, _, _, _, _, hform⟩ := hruns.laid.form_of_mem hs ht
  exact (hform.single_of_read ht hreads).1

/-- Where a path can read a token or has ended the outermost rule, nothing is left to do
without reading. -/
theorem not_silent_of_live (hruns : n.Runs v rules) (hlive : Path.Live n p) :
    ¬Silent n.toGraph p q := by
  obtain ⟨s, hs, ⟨hstop, hstack⟩ | ⟨hrun, hreads⟩⟩ := hlive
  · intro h
    cases h with
    | pass hs' hrun =>
      obtain rfl := Option.some.inj (hs.symm.trans hs')
      simp [hstop] at hrun
    | back _ _ hstack' => simp [hstack] at hstack'
  · obtain ⟨t, ht, hreads⟩ : ∃ t ∈ s.transitions, t.isEpsilon = false := by
      simpa [State.readsNothing] using hreads
    have hone := hruns.transitions_of_reading hs ht hreads
    intro h
    cases h with
    | @pass _ s' t' hs' _ ht' _ hq =>
      obtain rfl := Option.some.inj (hs.symm.trans hs')
      rw [hone, List.mem_singleton] at ht'
      rw [ht'] at hq
      cases t with
      | atom | set | wildcard => cases hq
      | _ => cases hreads
    | back hs' hstop _ =>
      obtain rfl := Option.some.inj (hs.symm.trans hs')
      simp [hrun] at hstop

/-- Such a path completes a word by reading its first token, or it has ended the
rule. -/
theorem completes_of_live (hruns : n.Runs v rules) (hlive : Path.Live n p) {w : List TokenType}
    (h : Completes n.toGraph p w) : n.isStop p.state = true ∧ p.stack = [] ∧ w = [] ∨
      ∃ s t a w', n.state? p.state = some s ∧ s.isStop = false ∧ t ∈ s.transitions ∧
        t.accepts n.maxType a = true ∧ w = a :: w' ∧
          Completes n.toGraph { p with state := t.target } w' := by
  obtain ⟨q, hsilents, hq⟩ := h.ready
  rcases Relation.ReflTransGen.cases_head hsilents with rfl | ⟨_, hstep, _⟩
  · exact hq
  · exact absurd hstep (hruns.not_silent_of_live hlive)

end Network.Runs

/-- What holds of the paths of a decision when this much of the input remains. -/
structure Decision.Follows (d : Decision) (n : Network) (start : RuleIndex) (ending : Prop)
    (input remaining : List TokenType) (paths : List Path) : Prop where
  placed : ∀ c ∈ paths, Placed n.toGraph start c.spot ∧ Path.Live n c.spot
  /-- A rule that ends with the end of the input has not been left yet. -/
  ahead : ending → ∀ c ∈ paths, ¬Past n.toGraph start c.spot
  /-- Every alternative that can be completed has a path that can be completed. -/
  complete : ∀ alt, d.Completable n.toGraph input alt →
    ∃ c ∈ paths, c.alt = alt ∧ Finishes n.toGraph c.spot remaining
  running : ∀ c ∈ paths, n.isStop c.state = false → Finishes n.toGraph c.spot remaining →
    d.Completable n.toGraph input c.alt
  ended : remaining = [] → (∃ alt, d.Completable n.toGraph input alt) → ∀ c ∈ paths,
    n.isStop c.state = true → d.Completable n.toGraph input c.alt

namespace Network.Runs

variable {n : Network} {v : Vocabulary} {rules : List Rule} {start : RuleIndex} {r₀ : Rule}
  {p q : Spot} {d : Decision} {input remaining : List TokenType} {paths found : List Path}
  {a : TokenType}

theorem placed_silents (hruns : n.Runs v rules) (hp : Placed n.toGraph start p)
    (h : Silents n.toGraph p q) : Placed n.toGraph start q :=
  hruns.placed_drifts hp h.drifts

theorem not_past_silents (hruns : n.Runs v rules) (hstart : rules[start]? = some r₀)
    (hbody : r₀.body.EndsLast) (hp : Placed n.toGraph start p)
    (hpast : ¬Past n.toGraph start p) (h : Silents n.toGraph p q) : ¬Past n.toGraph start q := by
  have hboth : Placed n.toGraph start q ∧ ¬Past n.toGraph start q := by
    induction h with
    | refl => exact ⟨hp, hpast⟩
    | tail _ hstep ih =>
      exact ⟨hruns.placed_drift ih.1 hstep.drift,
        hruns.not_past_drift hstart hbody ih.1 ih.2 hstep.drift⟩
  exact hboth.2

/-- A path that has ended the outermost rule completes nothing more. -/
theorem eq_nil_of_finishes (hruns : n.Runs v rules) (hlive : Path.Live n p)
    (hstop : n.isStop p.state = true) (h : Finishes n.toGraph p remaining) : remaining = [] := by
  have hnil {w : List TokenType} (h : Completes n.toGraph p w) : w = [] := by
    rcases hruns.completes_of_live hlive h with ⟨_, _, hw⟩ | ⟨s, _, _, _, hs, hrun, _⟩
    · exact hw
    · rw [Graph.isStop, hs] at hstop
      exact absurd hstop (by simp [hrun])
  rcases h with h | h
  · exact hnil h
  · exact absurd (hnil h) (by simp)

/-- What finishes with a token to come goes on to what finishes behind that token. -/
theorem advanced_of_finishes (hruns : n.Runs v rules) {c : Path} (hlive : Path.Live n c.spot)
    (h : Finishes n.toGraph c.spot (a :: remaining)) :
    ∃ c', Path.Advanced n a c c' ∧ Finishes n.toGraph c'.spot remaining := by
  have hread {w : List TokenType} (h : Completes n.toGraph c.spot (a :: w)) :
      ∃ c', Path.Advanced n a c c' ∧ Completes n.toGraph c'.spot w := by
    rcases hruns.completes_of_live hlive h
      with ⟨_, _, hw⟩ | ⟨s, t, b, w', hs, hrun, ht, ha, hw, hrest⟩
    · cases hw
    · obtain ⟨rfl, rfl⟩ := List.cons.inj hw
      obtain ⟨q, hsilents, hlive', hcompletes⟩ := hrest.live
      exact ⟨⟨q.state, c.alt, q.stack, q.precedence, false, true, []⟩,
        ⟨rfl, s, t, hs, hrun, ht, ha, hsilents, hlive'⟩, hcompletes⟩
  rcases h with h | h
  · obtain ⟨c', hadvanced, hrest⟩ := hread h
    exact ⟨c', hadvanced, .inl hrest⟩
  · obtain ⟨c', hadvanced, hrest⟩ := hread h
    exact ⟨c', hadvanced, .inr hrest⟩

theorem finishes_of_advanced {o c : Path} (h : Path.Advanced n a o c)
    (hfinishes : Finishes n.toGraph c.spot remaining) :
    Finishes n.toGraph o.spot (a :: remaining) := by
  obtain ⟨_, s, t, hs, hrun, ht, ha, hsilents, _⟩ := h
  exact hfinishes.imp (fun h => .read hs hrun ht ha (.silents hsilents h))
    (fun h => .read hs hrun ht ha (.silents hsilents h))

theorem placed_advanced (hruns : n.Runs v rules) {o c : Path} (h : Path.Advanced n a o c)
    (hplaced : Placed n.toGraph start o.spot) : Placed n.toGraph start c.spot := by
  obtain ⟨_, s, t, hs, _, ht, ha, hsilents, _⟩ := h
  exact hruns.placed_silents (hruns.placed_read hplaced hs ht ha) hsilents

/-- Paths that have read a token are still where the network can be. -/
theorem placed_reached (hruns : n.Runs v rules)
    (hpaths : ∀ c ∈ paths, Placed n.toGraph start c.spot)
    (hfound : Path.Reached n a paths found) : ∀ c ∈ found, Placed n.toGraph start c.spot := by
  intro c hc
  rcases hfound.sound c hc with ⟨hc, _⟩ | ⟨o, ho, hadvanced⟩
  · exact hpaths c hc
  · exact hruns.placed_advanced hadvanced (hpaths o ho)

theorem not_past_advanced (hruns : n.Runs v rules) (hstart : rules[start]? = some r₀)
    (hheads : Heads n start r₀) (hbody : r₀.body.EndsLast) {o c : Path}
    (h : Path.Advanced n a o c) (ha : a ≠ .eof) (hplaced : Placed n.toGraph start o.spot)
    (hpast : ¬Past n.toGraph start o.spot) : ¬Past n.toGraph start c.spot := by
  obtain ⟨_, s, t, hs, hrun, ht, haccepts, hsilents, _⟩ := h
  refine hruns.not_past_silents hstart hbody (hruns.placed_read hplaced hs ht haccepts) ?_
    hsilents
  exact hruns.not_past_read hstart hheads hbody hplaced hpast hs ht haccepts ha

/-- A path that has ended the outermost rule is past the rest of it. -/
theorem past_of_isStop (hruns : n.Runs v rules) (hp : Placed n.toGraph start p)
    (hlive : Path.Live n p) (hstop : n.isStop p.state = true) : Past n.toGraph start p := by
  exact hruns.past_of_stop hp hstop (hlive.stack_eq_nil hstop)

/-- A path that can be completed belongs to an alternative that can be completed. -/
theorem completable_of_finishes (hruns : n.Runs v rules)
    (h : d.Follows n start r₀.body.EndsLast input remaining paths)
    (hsome : ∃ alt, d.Completable n.toGraph input alt) {c : Path} (hc : c ∈ paths)
    (hfinishes : Finishes n.toGraph c.spot remaining) : d.Completable n.toGraph input c.alt := by
  rcases Bool.eq_false_or_eq_true (n.isStop c.state) with hstop | hrun
  · exact h.ended (hruns.eq_nil_of_finishes (h.placed c hc).2 hstop hfinishes) hsome c hc hstop
  · exact h.running c hc hrun hfinishes

/-- What is known of the paths of a decision stays true when a token is read. -/
theorem follows_reached (hruns : n.Runs v rules) (hstart : rules[start]? = some r₀)
    (hheads : Heads n start r₀) (ha : a ≠ .eof)
    (h : d.Follows n start r₀.body.EndsLast input (a :: remaining) paths)
    (hfound : Path.Reached n a paths found) :
    d.Follows n start r₀.body.EndsLast input remaining found := by
  have hcompletable {o c : Path} (ho : o ∈ paths) (hadvanced : Path.Advanced n a o c)
      (hfinishes : Finishes n.toGraph c.spot remaining) : d.Completable n.toGraph input c.alt := by
    obtain ⟨halt, s, _, hs, hrun, _⟩ := id hadvanced
    rw [← halt]
    exact h.running o ho (by rw [Graph.isStop, hs]; exact hrun)
      (finishes_of_advanced hadvanced hfinishes)
  have hplaced : ∀ c ∈ found, Placed n.toGraph start c.spot ∧ Path.Live n c.spot := by
    intro c hc
    rcases hfound.sound c hc with ⟨hc, _⟩ | ⟨o, ho, hadvanced⟩
    · exact h.placed c hc
    · exact ⟨hruns.placed_advanced hadvanced (h.placed o ho).1, hadvanced.live⟩
  have hahead : r₀.body.EndsLast → ∀ c ∈ found, ¬Past n.toGraph start c.spot := by
    intro hbody c hc
    rcases hfound.sound c hc with ⟨hc, _⟩ | ⟨o, ho, hadvanced⟩
    · exact h.ahead hbody c hc
    · exact hruns.not_past_advanced hstart hheads hbody hadvanced ha (h.placed o ho).1
        (h.ahead hbody o ho)
  refine ⟨hplaced, hahead, ?_, ?_, ?_⟩
  · intro alt halt
    obtain ⟨o, ho, rfl, hfinishes⟩ := h.complete alt halt
    obtain ⟨c, hadvanced, hrest⟩ := hruns.advanced_of_finishes (h.placed o ho).2 hfinishes
    obtain ⟨c', hc', halt', hspot⟩ := hfound.complete o ho c hadvanced
    exact ⟨c', hc', halt'.trans hadvanced.1.symm, hspot ▸ hrest⟩
  · intro c hc hrun hfinishes
    rcases hfound.sound c hc with ⟨_, hstop⟩ | ⟨o, ho, hadvanced⟩
    · simp [hrun] at hstop
    · exact hcompletable ho hadvanced hfinishes
  · rintro rfl ⟨alt, halt⟩ c hc hstop
    by_cases hbody : r₀.body.EndsLast
    · exact absurd (hruns.past_of_isStop (hplaced c hc).1 (hplaced c hc).2 hstop)
        (hahead hbody c hc)
    · -- Some path ends the outermost rule only now, so the others that have ended it are gone.
      obtain ⟨o, ho, rfl, hfinishes⟩ := h.complete alt halt
      obtain ⟨c', hadvanced, hrest⟩ := hruns.advanced_of_finishes (h.placed o ho).2 hfinishes
      have hends : n.isStop c'.state = true := by
        have hlive := hadvanced.live
        rcases hrest with hrest | hrest
        · rcases hruns.completes_of_live hlive hrest
            with ⟨hstop, _⟩ | ⟨_, _, _, _, _, _, _, _, hw, _⟩
          · exact hstop
          · cases hw
        · rcases hruns.completes_of_live hlive hrest with
            ⟨hstop, _⟩ | ⟨s, t, b, _, hs, _, ht, haccepts, hw, _⟩
          · exact hstop
          · obtain ⟨rfl, _⟩ := List.cons.inj hw
            obtain ⟨s', hs', hcalled⟩ := hruns.placed_advanced hadvanced (h.placed o ho).1
            obtain rfl := Option.some.inj (hs.symm.trans hs')
            exact absurd (hheads.rule_of_accepts hs ht hcalled haccepts).2 hbody
      obtain ⟨o', ho', hadvanced'⟩ := hfound.fresh ha ⟨o, ho, c', hadvanced, hends⟩ c hc
      exact hcompletable ho' hadvanced' (.inl (.done hstop ((hplaced c hc).2.stack_eq_nil hstop)))

/-- Past the rest of the outermost rule a path can only end it. -/
theorem completes_of_past (hruns : n.Runs v rules) (hstart : rules[start]? = some r₀)
    (hp : Past n.toGraph start p) (h : Silents n.toGraph p q) (hlive : Path.Live n q) :
    Completes n.toGraph q [] := by
  have hq : Past n.toGraph start q := by
    clear hlive
    induction h with
    | refl => exact hp
    | tail _ hstep ih => exact hruns.past_drift hstart ih hstep.drift
  rcases hruns.past_cases hstart hq with hstops | ⟨stop, _, _, hleads⟩
  · obtain ⟨s, hs, hstop⟩ := hstops.state
    exact .done (by rw [Graph.isStop, hs]; exact hstop) hq.1
  · exact absurd (Silent.of_leadsOn (p := q) hleads List.mem_cons_self rfl rfl)
      (hruns.not_silent_of_live hlive)

/-- At the end of the input the alternatives that are left are the completable ones. -/
theorem completable_iff_reached (hruns : n.Runs v rules) (hstart : rules[start]? = some r₀)
    (hheads : Heads n start r₀) (h : d.Follows n start r₀.body.EndsLast input [] paths)
    (hfound : Path.Reached n .eof paths found)
    (hsome : ∃ alt, d.Completable n.toGraph input alt) (alt : Nat) :
    (∃ c ∈ found, c.alt = alt) ↔ d.Completable n.toGraph input alt := by
  constructor
  · rintro ⟨c, hc, rfl⟩
    rcases hfound.sound c hc with ⟨hc, hstop⟩ | ⟨o, ho, hadvanced⟩
    · exact h.ended rfl hsome c hc hstop
    · obtain ⟨halt, s, t, hs, hrun, ht, ha, hsilents, hlive⟩ := id hadvanced
      have hpast := hruns.past_read hstart hheads (h.placed o ho).1 hs ht ha
      have hend := hruns.completes_of_past hstart hpast hsilents hlive
      rw [← halt]
      exact h.running o ho (by rw [Graph.isStop, hs]; exact hrun)
        (.inr (.read hs hrun ht ha (.silents hsilents hend)))
  · intro halt
    obtain ⟨o, ho, rfl, hfinishes⟩ := h.complete alt halt
    rcases Bool.eq_false_or_eq_true (n.isStop o.state) with hstop | hrun
    · obtain ⟨c, hc, halt, _⟩ := hfound.ended rfl o ho hstop
      exact ⟨c, hc, halt⟩
    · have hread : Finishes n.toGraph o.spot [.eof] := by
        rcases hfinishes with hend | hend
        · rcases hruns.completes_of_live (h.placed o ho).2 hend with
            ⟨hstop, _⟩ | ⟨_, _, _, _, _, _, _, _, hw, _⟩
          · exact absurd (hstop.symm.trans hrun) (by simp)
          · cases hw
        · exact .inl hend
      obtain ⟨c, hadvanced, _⟩ := hruns.advanced_of_finishes (h.placed o ho).2 hread
      obtain ⟨c', hc', halt', _⟩ := hfound.complete o ho c hadvanced
      exact ⟨c', hc', halt'.trans hadvanced.1.symm⟩

/-- A decision is between empty transitions. -/
theorem transitions_of_decision (hruns : n.Runs v rules) {id : Nat} {s : State}
    (hs : n.state? id = some s) (hdecision : s.isDecision = true) :
    s.isStop = false ∧ ∀ t ∈ s.transitions, ∃ target, t = .epsilon target := by
  obtain ⟨t, rest, hts⟩ : ∃ t rest, s.transitions = t :: rest := by
    cases hts : s.transitions with
    | nil => simp [State.isDecision, hts] at hdecision
    | cons t rest => exact ⟨t, rest, rfl⟩
  obtain ⟨_, _, _, _, _, hrun, hform⟩ := hruns.laid.form_of_mem hs (t := t) (by simp [hts])
  refine ⟨hrun, ?_⟩
  rw [State.isDecision] at hdecision
  generalize s.transitions = ts at hform hdecision
  cases hform with
  | edge => simp at hdecision
  | hop => simp at hdecision
  | block =>
    intro t ht
    obtain ⟨target, _, rfl⟩ := List.mem_map.mp ht
    exact ⟨target, rfl⟩
  | loop =>
    intro t ht
    rcases List.mem_pair.mp ht with rfl | rfl
    · exact ⟨_, rfl⟩
    · exact ⟨_, rfl⟩

/-- The alternatives of a decision start on the paths that their first steps lead to. -/
theorem returns_firstSteps (hruns : n.Runs v rules) (hooks : Hooks) {s : State}
    (hs : n.state? d.state = some s) (hdecision : s.isDecision = true) :
    Asking.Returns (d.firstSteps n hooks s.transitions) fun paths =>
      paths = s.transitions.zipIdx.map d.firstStep := by
  obtain ⟨_, hempty⟩ := hruns.transitions_of_decision hs hdecision
  refine Outcome.ofAsking.returns_bind (Outcome.ofAsking.returns_mapM
    (Q := fun x r => some (d.firstStep x) = r) ?_) fun steps hsteps => ?_
  · rintro ⟨t, i⟩ hx
    obtain ⟨target, rfl⟩ := hempty t (List.mem_of_getElem? (List.mem_zipIdx_iff_getElem?.mp hx))
    exact Outcome.ofAsking.returns_pure rfl
  · refine Outcome.ofAsking.returns_pure ?_
    have heq : (s.transitions.zipIdx.map fun x => some (d.firstStep x)) = steps := by
      rw [← List.forall₂_eq_eq_eq, List.forall₂_map_left_iff]
      exact hsteps
    rw [← heq, List.filterMap_map]
    exact congrFun List.filterMap_eq_map _

/-- The first steps of a decision are its alternatives. -/
theorem mem_firstSteps (hruns : n.Runs v rules) {s : State} (hs : n.state? d.state = some s)
    (hdecision : s.isDecision = true) :
    (∀ c ∈ s.transitions.zipIdx.map d.firstStep, d.Offers n.toGraph c.alt c.spot ∧
      c.entered = [] ∧ c.leftRule = false) ∧
      ∀ alt q, d.Offers n.toGraph alt q →
        ∃ c ∈ s.transitions.zipIdx.map d.firstStep, c.alt = alt ∧ c.spot = q := by
  obtain ⟨hrun, hempty⟩ := hruns.transitions_of_decision hs hdecision
  refine ⟨fun c hc => ?_, fun alt q hq => ?_⟩
  · obtain ⟨⟨t, i⟩, hx, rfl⟩ := List.mem_map.mp hc
    have ht := List.mem_zipIdx_iff_getElem?.mp hx
    obtain ⟨target, rfl⟩ := hempty t (List.mem_of_getElem? ht)
    exact ⟨⟨Nat.succ_pos _, s, _, hs, hrun, ht, rfl, rfl⟩, rfl, rfl⟩
  · obtain ⟨hpos, s', t, hs', _, ht, _, hq⟩ := hq
    obtain rfl := Option.some.inj (hs.symm.trans hs')
    obtain ⟨target, rfl⟩ := hempty t (List.mem_of_getElem? ht)
    refine ⟨_, List.mem_map.mpr ⟨(_, alt - 1), List.mem_zipIdx_iff_getElem?.mpr ht, rfl⟩, ?_, ?_⟩
    · exact Nat.succ_pred_eq_of_pos hpos
    · exact Option.some.inj hq

/-- The paths of a decision before a token is read. -/
theorem returns_start (hruns : n.Runs v rules) (hooks : Hooks) {s : State}
    (hplaced : Placed n.toGraph start d.spot) (hs : n.state? d.state = some s)
    (hdecision : s.isDecision = true) :
    Asking.Returns (d.start n hooks s.transitions) fun paths =>
      (∀ c ∈ paths, Placed n.toGraph start c.spot ∧ Path.Live n c.spot ∧
        ∃ q, d.Offers n.toGraph c.alt q ∧ Silents n.toGraph q c.spot ∧ (c.leftRule = true →
          ∃ q', Silents n.toGraph q q' ∧ q'.stack.length < d.stack.length)) ∧
      ∀ alt q q', d.Offers n.toGraph alt q → Relation.ReflTransGen (Allowed n (some hooks)) q q' →
        Path.Live n q' → ∃ c ∈ paths, c.alt = alt ∧ c.spot = q' := by
  obtain ⟨hoffers, hfirst⟩ := hruns.mem_firstSteps hs hdecision
  refine Outcome.ofAsking.returns_bind (hruns.returns_firstSteps hooks hs hdecision) ?_
  rintro _ rfl
  have hplacedOf {alt : Nat} {q : Spot} (hq : d.Offers n.toGraph alt q) :
      Placed n.toGraph start q := hruns.placed_drift hplaced hq.silent.drift
  have hfresh : ∀ o ∈ s.transitions.zipIdx.map d.firstStep, o.Fresh n := fun o ho =>
    ⟨hruns.states_of_placed (hplacedOf (hoffers o ho).1), (hoffers o ho).2.1⟩
  refine Outcome.ofAsking.returns_mono (fun paths hpaths => ?_)
    (hruns.orderly.returns_closure_allowed (some hooks) fun o ho => (hfresh o ho).sound ho)
  obtain ⟨hsound, hcomplete⟩ := hpaths
  refine ⟨fun c hc => ?_, fun alt q q' hq hallowed hlive => ?_⟩
  · obtain ⟨⟨⟨o, ho, halt, hsilents, hleft⟩, _⟩, hlive⟩ := hsound c hc
    obtain ⟨hoffer, _, hstays⟩ := hoffers o ho
    refine ⟨hruns.placed_silents (hplacedOf hoffer) hsilents, hlive, o.spot, halt ▸ hoffer,
      hsilents, fun hgone => (hleft hgone).resolve_left (by simp [hstays])⟩
  · obtain ⟨o, ho, rfl, rfl⟩ := hfirst alt q hq
    exact hcomplete o ho q' hallowed hlive

/-- A decision is not taken past the rest of the outermost rule. -/
theorem not_past_of_decision (hruns : n.Runs v rules) (hstart : rules[start]? = some r₀)
    {s : State} (hs : n.state? p.state = some s) (hdecision : s.isDecision = true) :
    ¬Past n.toGraph start p := by
  intro hpast
  rcases hruns.past_cases hstart hpast with hstops | ⟨_, _, _, hleads⟩
  · simp [State.isDecision, hstops.transitions hs] at hdecision
  · obtain ⟨s', hs', _, hts⟩ := hleads.state
    obtain rfl := Option.some.inj (hs.symm.trans hs')
    simp [State.isDecision, hts] at hdecision

/-- At the beginning of a prediction its paths are those that can be completed, and
others. -/
theorem returns_follows (hruns : n.Runs v rules) (hstart : rules[start]? = some r₀)
    {hooks : Hooks} (hpermits : n.Permits (some hooks)) {s : State}
    (hplaced : Placed n.toGraph start d.spot) (hs : n.state? d.state = some s)
    (hdecision : s.isDecision = true) (input : List TokenType) :
    Asking.Returns (d.start n hooks s.transitions)
      (d.Follows n start r₀.body.EndsLast input input) := by
  refine Outcome.ofAsking.returns_mono (fun paths hpaths => ?_)
    (hruns.returns_start hooks hplaced hs hdecision)
  obtain ⟨hsound, hcomplete⟩ := hpaths
  have hcompletable : ∀ c ∈ paths, Finishes n.toGraph c.spot input →
      d.Completable n.toGraph input c.alt := by
    intro c hc hfinishes
    obtain ⟨_, _, q, hq, hsilents, _⟩ := hsound c hc
    exact ⟨q, hq, hfinishes.silents hsilents⟩
  refine ⟨fun c hc => ⟨(hsound c hc).1, (hsound c hc).2.1⟩, fun hbody c hc => ?_,
    fun alt halt => ?_, fun c hc _ => hcompletable c hc, ?_⟩
  · obtain ⟨_, _, q, hq, hsilents, _⟩ := hsound c hc
    have hnot := hruns.not_past_of_decision hstart (p := d.spot) hs hdecision
    exact hruns.not_past_silents hstart hbody hplaced hnot (.head hq.silent hsilents)
  · obtain ⟨q, hq, hfinishes⟩ := halt
    have hlive {w : List TokenType} (h : Completes n.toGraph q w) :
        ∃ c ∈ paths, c.alt = alt ∧ Completes n.toGraph c.spot w := by
      obtain ⟨q', hsilents, hlive, hrest⟩ := h.live
      obtain ⟨c, hc, halt, rfl⟩ := hcomplete alt q q' hq (hsilents.allowed hpermits) hlive
      exact ⟨c, hc, halt, hrest⟩
    rcases hfinishes with h | h
    · obtain ⟨c, hc, halt, hrest⟩ := hlive h
      exact ⟨c, hc, halt, .inl hrest⟩
    · obtain ⟨c, hc, halt, hrest⟩ := hlive h
      exact ⟨c, hc, halt, .inr hrest⟩
  · rintro rfl _ c hc hstop
    exact hcompletable c hc (.inl (.done hstop ((hsound c hc).2.1.stack_eq_nil hstop)))

end Network.Runs

section Rounds

variable {n : Network} {v : Vocabulary} {rules : List Rule} {start : RuleIndex} {r₀ : Rule}
  {d : Decision} {input remaining : List TokenType} {paths : List Path} {first : Token}
  {rounds depth : Nat} {s : TokenStream} {ts : List Token} {i : Nat}

theorem Path.le_of_alts_eq {alt : Nat} {others : List Nat} (h : alts paths = alt :: others)
    {c : Path} (hc : c ∈ paths) : alt ≤ c.alt := by
  obtain ⟨hsorted, hmem⟩ := alts_spec paths
  have hin := (hmem c.alt).mpr ⟨c, hc, rfl⟩
  rw [h] at hsorted hin
  rcases List.mem_cons.mp hin with heq | hin
  · exact Nat.le_of_eq heq.symm
  · exact Nat.le_of_lt ((List.pairwise_cons.mp hsorted).1 _ hin)

theorem Path.exists_of_alts_eq {alt : Nat} {others : List Nat} (h : alts paths = alt :: others) :
    ∃ c ∈ paths, c.alt = alt :=
  ((alts_spec paths).2 alt).mp (h ▸ List.mem_cons_self)

theorem Decision.stuck_spec {offending : Token} :
    (∀ p, d.stuck n first offending depth paths = .ok p → ∃ c ∈ paths, c.alt = p.alt ∧
      (c.leftRule = true ∨ c.stack = [] ∧ n.isStop c.state = true)) ∧
      ∀ defect, d.stuck n first offending depth paths ≠ .error (.defect defect) := by
  unfold stuck
  cases hexit : Path.exitAlt? n paths with
  | none => exact ⟨fun p hp => (nomatch hp), fun defect hp => (nomatch hp)⟩
  | some alt =>
    refine ⟨fun p hp => ?_, fun defect hp => (nomatch hp)⟩
    obtain rfl := Except.ok.inj hp
    obtain ⟨c, hc, halt⟩ := List.mem_map.mp (List.min?_mem hexit)
    obtain ⟨hc, hgone⟩ := List.mem_filter.mp hc
    refine ⟨c, hc, halt, ?_⟩
    simpa [Path.isAtStop] using hgone

/-- A prediction moves over tokens of the stream only. -/
theorem Decision.simulate_at (d : Decision) (n : Network) (first : Token) (rounds depth : Nat)
    (paths : List Path) (hat : s.At ts i) :
    ∃ j, (d.simulate n first rounds depth paths s).2.At ts j := by
  induction rounds generalizing depth paths s i with
  | zero => exact ⟨i, hat⟩
  | succ rounds ih =>
    have hat' := hat.peek_one.2
    unfold Decision.simulate
    dsimp only
    split
    · exact ⟨i, hat'⟩
    · split
      · exact ⟨i, hat'⟩
      · exact ⟨i, hat'⟩
      · split
        · exact ⟨i, hat'⟩
        · exact ih _ _ hat'.consume

/-- Whatever a prediction sees, the network is not defective, and the alternative is
one that has a path. -/
theorem Network.Runs.simulate_spec (hruns : n.Runs v rules) (first : Token) (rounds depth : Nat)
    (hplaced : ∀ c ∈ paths, Placed n.toGraph start c.spot) (hat : s.At ts i) :
    (∀ p, (d.simulate n first rounds depth paths s).1 = .ok p → ∃ c ∈ paths, c.alt = p.alt) ∧
      ∀ defect, (d.simulate n first rounds depth paths s).1 ≠ .error (.defect defect) := by
  induction rounds generalizing depth paths s i with
  | zero =>
    obtain ⟨hok, hno⟩ := Decision.stuck_spec (n := n) (d := d)
    refine ⟨fun p hp => ?_, hno⟩
    obtain ⟨c, hc, halt, _⟩ := hok p hp
    exact ⟨c, hc, halt⟩
  | succ rounds ih =>
    obtain ⟨_, hat'⟩ := hat.peek_one
    obtain ⟨found, hreach, hfound⟩ := hruns.exists_reach d.stack.length (s.peek 1).1.type
      fun c hc => hruns.states_of_placed (hplaced c hc)
    have halts {alt : Nat} (h : ∃ c ∈ found, c.alt = alt) : ∃ c ∈ paths, c.alt = alt := by
      obtain ⟨c, hc, rfl⟩ := h
      rcases hfound.sound c hc with ⟨hc, _⟩ | ⟨o, ho, hadvanced⟩
      · exact ⟨c, hc, rfl⟩
      · exact ⟨o, ho, hadvanced.1⟩
    simp only [Decision.simulate, hreach]
    split
    · obtain ⟨hok, hno⟩ := Decision.stuck_spec (n := n) (d := d)
      refine ⟨fun p hp => ?_, hno⟩
      obtain ⟨c, hc, halt, _⟩ := hok p hp
      exact ⟨c, hc, halt⟩
    · rename_i alt heq
      refine ⟨fun p hp => ?_, fun defect hp => (nomatch hp)⟩
      obtain rfl := Except.ok.inj hp
      exact halts (Path.exists_of_alts_eq heq)
    · rename_i alt others _ heq
      split
      · refine ⟨fun p hp => ?_, fun defect hp => (nomatch hp)⟩
        obtain rfl := Except.ok.inj hp
        exact halts (Path.exists_of_alts_eq heq)
      · obtain ⟨hok, hno⟩ := ih (depth + 1) (hruns.placed_reached hplaced hfound) hat'.consume
        exact ⟨fun p hp => halts (hok p hp), hno⟩

/-- The network can read the end of the input, or the outermost rule has ended. -/
def AtEnd (n : Network) (p : Spot) : Prop :=
  n.isStop p.state = true ∧ p.stack = [] ∨ ∃ s t, n.state? p.state = some s ∧
    t ∈ s.transitions ∧ t.accepts n.maxType .eof = true

/-- At the end of the input a prediction takes an alternative that has left the rule
of the decision, or that can end the parse. -/
theorem Network.Runs.simulate_at_end (hruns : n.Runs v rules)
    (hplaced : ∀ c ∈ paths, Placed n.toGraph start c.spot ∧ Path.Live n c.spot)
    (hat : s.At ts i) {t : Token}
    (ht : ts[i]? = some t) (heof : t.isEof = true) {p : Prediction}
    (hp : (d.simulate n first (rounds + 1) depth paths s).1 = .ok p) :
    ∃ c ∈ paths, c.alt = p.alt ∧ (c.leftRule = true ∨ AtEnd n c.spot) := by
  obtain ⟨hpeek, _⟩ := hat.peek_one
  obtain rfl := Option.some.inj (ht.symm.trans hpeek)
  obtain ⟨found, hreach, hfound⟩ := hruns.exists_reach d.stack.length (s.peek 1).1.type
    fun c hc => hruns.states_of_placed (hplaced c hc).1
  have htype : (s.peek 1).1.type = .eof := eq_of_beq heof
  have halts {alt : Nat} (h : ∃ c ∈ found, c.alt = alt) :
      ∃ c ∈ paths, c.alt = alt ∧ (c.leftRule = true ∨ AtEnd n c.spot) := by
    obtain ⟨c, hc, rfl⟩ := h
    rcases hfound.sound c hc with ⟨hc, hstop⟩ | ⟨o, ho, halt, s', t', hs', _, ht', ha, _⟩
    · exact ⟨c, hc, rfl, .inr (.inl ⟨hstop, (hplaced c hc).2.stack_eq_nil hstop⟩)⟩
    · exact ⟨o, ho, halt, .inr (.inr ⟨s', t', hs', ht', htype ▸ ha⟩)⟩
  simp only [Decision.simulate, hreach, heof, Bool.true_or, if_true] at hp
  split at hp
  · obtain ⟨c, hc, halt, hgone | ⟨hstack, hstop⟩⟩ := Decision.stuck_spec.1 p hp
    · exact ⟨c, hc, halt, .inl hgone⟩
    · exact ⟨c, hc, halt, .inr (.inl ⟨hstop, hstack⟩)⟩
  · rename_i alt heq
    obtain rfl := Except.ok.inj hp
    exact halts (Path.exists_of_alts_eq heq)
  · rename_i alt others _ heq
    obtain rfl := Except.ok.inj hp
    exact halts (Path.exists_of_alts_eq heq)

/-- If all alternatives that can be completed are left, the first one left is no higher
than any of them. -/
theorem Decision.le_of_alts_eq {g : Graph} {found : List Path} {alt : Nat} {others : List Nat}
    (heq : Path.alts found = alt :: others)
    (hcomplete : ∀ a, d.Completable g input a → ∃ c ∈ found, c.alt = a) (a : Nat)
    (ha : d.Completable g input a) : alt ≤ a := by
  obtain ⟨c, hc, rfl⟩ := hcomplete a ha
  exact Path.le_of_alts_eq heq hc

/-- A prediction that comes to the end of the input takes the least alternative that can
be completed. -/
theorem Network.Runs.simulate_least_at_end (hruns : n.Runs v rules)
    (hstart : rules[start]? = some r₀) (hheads : Heads n start r₀)
    (h : d.Follows n start r₀.body.EndsLast input [] paths)
    (hsome : ∃ alt, d.Completable n.toGraph input alt) (heof : (s.peek 1).1.isEof = true) :
    ∃ p, (d.simulate n first (rounds + 1) depth paths s).1 = .ok p ∧
      d.Completable n.toGraph input p.alt ∧
        ∀ alt, d.Completable n.toGraph input alt → p.alt ≤ alt := by
  obtain ⟨found, hreach, hfound⟩ := hruns.exists_reach d.stack.length (s.peek 1).1.type
    fun c hc => hruns.states_of_placed (h.placed c hc).1
  have htype : (s.peek 1).1.type = .eof := eq_of_beq heof
  rw [htype] at hfound
  have hiff := hruns.completable_iff_reached hstart hheads h hfound hsome
  have hcomplete (a : Nat) (ha : d.Completable n.toGraph input a) : ∃ c ∈ found, c.alt = a :=
    (hiff a).mpr ha
  simp only [Decision.simulate, hreach]
  split
  · rename_i heq
    obtain ⟨a, ha⟩ := hsome
    have hmem := ((Path.alts_spec found).2 a).mpr (hcomplete a ha)
    rw [heq] at hmem
    cases hmem
  · rename_i alt heq
    exact ⟨_, rfl, (hiff alt).mp (Path.exists_of_alts_eq heq),
      Decision.le_of_alts_eq heq hcomplete⟩
  · rename_i alt others _ heq
    rw [heof, Bool.true_or, if_pos rfl]
    exact ⟨_, rfl, (hiff alt).mp (Path.exists_of_alts_eq heq),
      Decision.le_of_alts_eq heq hcomplete⟩

theorem types_eq_cons {t : Token} {us : List Token} {w : List TokenType}
    (hrun : t.isEof = false) (h : (t :: us).map Token.type = w ++ [.eof]) :
    ∃ u, w = t.type :: u ∧ us.map Token.type = u ++ [.eof] := by
  rw [List.map_cons] at h
  cases w with
  | nil =>
    have heof : t.type = .eof := (List.cons.inj h).1
    rw [Token.isEof, heof] at hrun
    cases hrun
  | cons a u =>
    obtain ⟨rfl, hrest⟩ := List.cons.inj h
    exact ⟨u, rfl, hrest⟩

/-- However many tokens a prediction looks at, it takes the least alternative that
can be completed. -/
theorem Network.Runs.simulate_least (hruns : n.Runs v rules) (hstart : rules[start]? = some r₀)
    (hheads : Heads n start r₀)
    (h : d.Follows n start r₀.body.EndsLast input remaining paths)
    (hsome : ∃ alt, d.Completable n.toGraph input alt) (hat : s.At ts i)
    (hremaining : (upcoming ts i).map Token.type = remaining ++ [.eof])
    (hrounds : remaining.length < rounds) :
    ∃ p, (d.simulate n first rounds depth paths s).1 = .ok p ∧
      d.Completable n.toGraph input p.alt ∧
        ∀ alt, d.Completable n.toGraph input alt → p.alt ≤ alt := by
  induction rounds generalizing depth paths s i remaining with
  | zero => omega
  | succ rounds ih =>
    obtain ⟨t, ht, htoken⟩ := hat.token
    obtain ⟨hpeek, hat'⟩ := hat.peek_one
    obtain rfl := Option.some.inj (ht.symm.trans hpeek)
    rcases htoken with ⟨heof, hupcoming⟩ | ⟨hrun, hupcoming, _⟩
    · obtain rfl : remaining = [] := by
        have hlength := congrArg List.length hremaining
        simpa [hupcoming] using hlength
      exact hruns.simulate_least_at_end hstart hheads h hsome heof
    · obtain ⟨u, rfl, hrest⟩ := types_eq_cons hrun (hupcoming ▸ hremaining)
      obtain ⟨found, hreach, hfound⟩ := hruns.exists_reach d.stack.length (s.peek 1).1.type
        fun c hc => hruns.states_of_placed (h.placed c hc).1
      have hne : (s.peek 1).1.type ≠ .eof := by simpa [Token.isEof] using hrun
      have h' := hruns.follows_reached hstart hheads hne h hfound
      have hcomplete (a : Nat) (ha : d.Completable n.toGraph input a) :
          ∃ c ∈ found, c.alt = a := by
        obtain ⟨c, hc, halt, _⟩ := h'.complete a ha
        exact ⟨c, hc, halt⟩
      obtain ⟨a, ha⟩ := id hsome
      obtain ⟨c, hc, halt, hfinishes⟩ := h'.complete a ha
      have hmem := ((Path.alts_spec found).2 a).mpr ⟨c, hc, halt⟩
      simp only [Decision.simulate, hreach]
      split
      · rename_i heq
        rw [heq] at hmem
        cases hmem
      · rename_i alt heq
        rw [heq, List.mem_singleton] at hmem
        exact ⟨_, rfl, hmem ▸ ha, Decision.le_of_alts_eq heq hcomplete⟩
      · rename_i alt others _ heq
        rw [hrun, Bool.false_or]
        split
        · rename_i hcovers
          obtain ⟨c', hc', rfl, hspot⟩ := Path.exists_of_coversAll hcovers hc
          exact ⟨_, rfl, hruns.completable_of_finishes h' hsome hc' (hspot ▸ hfinishes),
            Decision.le_of_alts_eq heq hcomplete⟩
        · exact ih h' hat'.consume hrest (by simpa using hrounds)

end Rounds

section Decide

variable {n : Network} {v : Vocabulary} {rules : List Rule} {start : RuleIndex} {r₀ : Rule}
  {d : Decision} {input : List TokenType} {stream : TokenStream} {ts : List Token} {i : Nat}
  {hooks : Hooks} {calls : Array HookCall} {s : State}

/-- A decision runs a prediction from its start. -/
theorem Decision.decide_eq (stream : TokenStream) (hs : n.state? d.state = some s)
    (hne : s.transitions.isEmpty = false) {paths : List Path} {calls' : Array HookCall}
    (hrun : (d.start n hooks s.transitions).run calls = (.ok paths, calls')) :
    (d.decide n hooks stream calls).1 =
      let ahead := stream.index.2.peek 1
      let outcome := d.simulate n ahead.1 (ahead.2.horizon + 1) 0 paths ahead.2
      (outcome.1, outcome.2.seek stream.index.1) := by
  unfold Decision.decide
  rw [Graph.getState_of_state? hs]
  dsimp only
  rw [if_neg (by simp [hne]), hrun]

/-- A decision, whatever comes of it, leaves the stream where it is. -/
theorem Decision.decide_at (d : Decision) (n : Network) (hooks : Hooks) (calls : Array HookCall)
    (hat : stream.At ts i) : (d.decide n hooks stream calls).1.2.At ts i := by
  obtain ⟨hindex, hat'⟩ := hat.index
  obtain ⟨t, ht, hvisible⟩ := hat.visible
  have hback {s' : TokenStream} {j : Nat} (h : s'.At ts j) : (s'.seek stream.index.1).At ts i := by
    rw [hindex]
    exact h.seek ht hvisible
  unfold Decision.decide
  cases n.getState d.state with
  | error => exact hat
  | ok s =>
    dsimp only
    split
    · exact hat
    · generalize (d.start n hooks s.transitions).run calls = result
      obtain ⟨outcome, calls'⟩ := result
      cases outcome with
      | error =>
        dsimp only
        exact hback hat'.peek_one.2
      | ok paths =>
        obtain ⟨j, hj⟩ := d.simulate_at n (stream.index.2.peek 1).1
          ((stream.index.2.peek 1).2.horizon + 1) 0 paths hat'.peek_one.2
        dsimp only
        exact hback hj

/-- A decision predicts from paths of this kind, if they are what it starts with. -/
theorem Decision.exists_decide (calls : Array HookCall) (hs : n.state? d.state = some s)
    (hdecision : s.isDecision = true) (hat : stream.At ts i) {Q : List Path → Prop}
    (hreturns : Asking.Returns (d.start n hooks s.transitions) Q) :
    ∃ first paths stream', Q paths ∧ stream'.At ts i ∧
      (d.decide n hooks stream calls).1.1 =
        (d.simulate n first (stream'.horizon + 1) 0 paths stream').1 := by
  obtain ⟨paths, calls', hrun, hpaths⟩ := hreturns calls
  have hne : s.transitions.isEmpty = false := by
    cases hts : s.transitions with
    | nil => simp [State.isDecision, hts] at hdecision
    | cons => rfl
  exact ⟨(stream.index.2.peek 1).1, paths, (stream.index.2.peek 1).2, hpaths,
    hat.index.2.peek_one.2, by rw [Decision.decide_eq stream hs hne hrun]⟩

/-- A decision is never defective, takes an alternative that there is, and leaves
the stream where it is. -/
theorem Network.Runs.decide_spec (hruns : n.Runs v rules) (hooks : Hooks) (calls : Array HookCall)
    (hplaced : Placed n.toGraph start d.spot) (hs : n.state? d.state = some s)
    (hdecision : s.isDecision = true) (hat : stream.At ts i) :
    (∀ p, (d.decide n hooks stream calls).1.1 = .ok p → ∃ q, d.Offers n.toGraph p.alt q ∧
      ((∃ t, ts[i]? = some t ∧ t.isEof = true) → ∃ q', Silents n.toGraph q q' ∧
        (AtEnd n q' ∨ q'.stack.length < d.stack.length))) ∧
      (∀ defect, (d.decide n hooks stream calls).1.1 ≠ .error (.defect defect)) ∧
        (d.decide n hooks stream calls).1.2.At ts i := by
  obtain ⟨first, paths, stream', ⟨hsound, _⟩, hat', heq⟩ :=
    Decision.exists_decide calls hs hdecision hat (hruns.returns_start hooks hplaced hs hdecision)
  have hpaths : ∀ c ∈ paths, Placed n.toGraph start c.spot := fun c hc => (hsound c hc).1
  obtain ⟨hok, hno⟩ := hruns.simulate_spec (d := d) first (stream'.horizon + 1) 0 hpaths hat'
  rw [heq]
  refine ⟨fun p hp => ?_, hno, d.decide_at n hooks calls hat⟩
  obtain ⟨c, hc, halt⟩ := hok p hp
  obtain ⟨_, _, q, hq, _⟩ := hsound c hc
  refine ⟨q, halt ▸ hq, fun ⟨t, ht, heof⟩ => ?_⟩
  obtain ⟨c', hc', halt', hend⟩ := hruns.simulate_at_end
    (fun c hc => ⟨(hsound c hc).1, (hsound c hc).2.1⟩) hat' ht heof hp
  obtain ⟨_, _, q', hq', hsilents, hleft⟩ := hsound c' hc'
  obtain rfl := Decision.Offers.unique (halt ▸ hq) (halt' ▸ hq')
  rcases hend with hgone | hend
  · obtain ⟨q'', hsilents', hlt⟩ := hleft hgone
    exact ⟨q'', hsilents', .inr hlt⟩
  · exact ⟨_, hsilents, .inl hend⟩

/-- If the predicates hold, a decision takes the least alternative that can be
completed. -/
theorem Network.Runs.decide_least (hruns : n.Runs v rules) (hstart : rules[start]? = some r₀)
    (hheads : Heads n start r₀) (hpermits : n.Permits (some hooks)) (calls : Array HookCall)
    (hplaced : Placed n.toGraph start d.spot) (hs : n.state? d.state = some s)
    (hdecision : s.isDecision = true) (hat : stream.At ts i)
    (hinput : (upcoming ts i).map Token.type = input ++ [.eof])
    (hsome : ∃ alt, d.Completable n.toGraph input alt) :
    ∃ p, (d.decide n hooks stream calls).1.1 = .ok p ∧ d.Completable n.toGraph input p.alt ∧
      ∀ alt, d.Completable n.toGraph input alt → p.alt ≤ alt := by
  obtain ⟨first, paths, stream', hfollows, hat', heq⟩ :=
    Decision.exists_decide calls hs hdecision hat
      (hruns.returns_follows hstart hpermits hplaced hs hdecision input)
  rw [heq]
  refine hruns.simulate_least hstart hheads hfollows hsome hat' hinput ?_
  have hlength := hat'.shows.length_le
  have hcount : input.length + 1 = (upcoming ts i).length := by
    simpa using (congrArg List.length hinput).symm
  have hle : (upcoming ts i).length ≤ ts.length :=
    (List.length_filter_le _ _).trans (by simp)
  omega

end Decide

end AdaptiveLL
