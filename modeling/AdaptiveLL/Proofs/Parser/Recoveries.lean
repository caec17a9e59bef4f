/-
One report for each recovery, and progress from one recovery to the next.

A mismatch is reported only while the parse is not recovering, and the report and
the beginning of the recovery come together.  A recovery ends where a token is
matched or where one was dropped, and the place of the stream is then behind the one
where the recovery began, unless the end of the input was matched.  The end of the
input is never dropped: no other token is behind it.
-/
import AdaptiveLL.Proofs.Parser.Clean
import AdaptiveLL.Proofs.Parser.Spelling

namespace AdaptiveLL

def Mark.isBegan : Mark → Bool
  | .began _ => true
  | _ => false

/-- Recoveries one after the other: each begins, is reported once, and ends before
the next one begins.  The last one may still be going on, and the end of the input
is matched between them. -/
inductive Recoveries : (recovering : Bool) → List Mark → Prop where
  | none : Recoveries false []
  | begin {marks} (t : Token) (h : Recoveries false marks) :
      Recoveries true (marks ++ [.began t, .reported])
  | finish {marks} (h : Recoveries true marks) : Recoveries false (marks ++ [.ended])
  | close {marks} (h : Recoveries false marks) : Recoveries false (marks ++ [.closed])

/-- The last recovery began in front of a place, unless the end of the input was
matched since. -/
def Passed (marks : List Mark) (place : Int) : Prop :=
  ∀ before t since, marks = before ++ .began t :: since → (∀ u, .began u ∉ since) →
    t.index < place ∨ .closed ∈ since

/-- Each recovery began behind the one before it, unless the end of the input was
matched in between. -/
def Onward (marks : List Mark) : Prop :=
  ∀ before t after, marks = before ++ .began t :: after → Passed before t.index

section Marks

variable {marks before after : List Mark} {m m' : Mark} {t : Token} {i j : Int}

/-- An entry of a record is its last one, or it is in front of that. -/
theorem Mark.snoc_eq_split (h : marks ++ [m] = before ++ m' :: after) :
    marks = before ∧ m = m' ∧ after = [] ∨
      ∃ rest, after = rest ++ [m] ∧ marks = before ++ m' :: rest := by
  rcases after.eq_nil_or_concat with rfl | ⟨rest, last, rfl⟩
  · obtain ⟨hmarks, hlast⟩ := List.append_inj' h rfl
    exact .inl ⟨hmarks, List.singleton_inj.mp hlast, rfl⟩
  · rw [List.concat_eq_append, ← List.cons_append, ← List.append_assoc] at h
    obtain ⟨hmarks, hlast⟩ := List.append_inj' h rfl
    exact .inr ⟨rest, by rw [List.concat_eq_append, List.singleton_inj.mp hlast], hmarks⟩

theorem Passed.mono (h : Passed marks i) (hle : i ≤ j) : Passed marks j :=
  fun before t since heq hlast =>
    (h before t since heq hlast).imp_left fun hlt => Int.lt_of_lt_of_le hlt hle

/-- What is told behind the beginning of a recovery does not take the place back. -/
theorem Passed.snoc (h : Passed marks i) (hm : m.isBegan = false) : Passed (marks ++ [m]) i := by
  intro before t since heq hlast
  rcases Mark.snoc_eq_split heq with ⟨_, rfl, _⟩ | ⟨rest, rfl, hmarks⟩
  · cases hm
  · have hrest (u : Token) : .began u ∉ rest := fun hu => hlast u (List.mem_append_left _ hu)
    exact (h before t rest hmarks hrest).imp_right (List.mem_append_left _)

theorem Passed.began (marks : List Mark) (hlt : t.index < i) : Passed (marks ++ [.began t]) i := by
  intro before u since heq hlast
  rcases Mark.snoc_eq_split heq with ⟨_, hbegan, _⟩ | ⟨rest, rfl, _⟩
  · rw [← Mark.began.inj hbegan]
    exact .inl hlt
  · exact absurd (List.mem_append_right rest (List.mem_singleton_self _)) (hlast t)

/-- Once the end of the input was matched, recovery may begin anywhere. -/
theorem Passed.closed (marks : List Mark) (i : Int) : Passed (marks ++ [.closed]) i := by
  intro before t since heq _
  rcases Mark.snoc_eq_split heq with ⟨_, hbegan, _⟩ | ⟨rest, rfl, _⟩
  · cases hbegan
  · exact .inr (List.mem_append_right rest (List.mem_singleton_self _))

theorem Onward.snoc (h : Onward marks) (hm : m.isBegan = false) : Onward (marks ++ [m]) := by
  intro before t after heq
  rcases Mark.snoc_eq_split heq with ⟨_, rfl, _⟩ | ⟨rest, _, hmarks⟩
  · cases hm
  · exact h before t rest hmarks

theorem Onward.began (h : Onward marks) (hpassed : Passed marks t.index) :
    Onward (marks ++ [.began t]) := by
  intro before u after heq
  rcases Mark.snoc_eq_split heq with ⟨rfl, hbegan, _⟩ | ⟨rest, _, hmarks⟩
  · rwa [← Mark.began.inj hbegan]
  · exact h before u rest hmarks

end Marks

/-- What was told of recoveries fits the strategy, the number of reports and the
place. -/
structure Standing.Tracked (ts : List Token) (x : Standing) : Prop where
  visible : ∃ t, ts[x.place]? = some t ∧ t.isVisible = true
  recoveries : Recoveries x.strategy.recovering x.marks
  errors : x.errors = x.marks.countP Mark.isBegan
  onward : Onward x.marks
  passed : Passed x.marks (x.place + 1)

/-- Unless the parse is recovering, recovery may begin at its place. -/
structure Standing.Marked (ts : List Token) (x : Standing) : Prop extends x.Tracked ts where
  clear : x.strategy.recovering = false → Passed x.marks x.place

namespace Standing

variable {ts : List Token} {x y : Standing} {set : TypeSet}

theorem Tracked.of_same (h : x.Tracked ts) (hplace : y.place = x.place)
    (hstrategy : y.strategy.recovering = x.strategy.recovering) (herrors : y.errors = x.errors)
    (hmarks : y.marks = x.marks) : y.Tracked ts := by
  refine ⟨hplace ▸ h.visible, ?_, ?_, hmarks ▸ h.onward, ?_⟩
  · rw [hstrategy, hmarks]
    exact h.recoveries
  · rw [herrors, hmarks]
    exact h.errors
  · rw [hplace, hmarks]
    exact h.passed

theorem Marked.of_same (h : x.Marked ts) (hplace : y.place = x.place)
    (hstrategy : y.strategy = x.strategy) (herrors : y.errors = x.errors)
    (hmarks : y.marks = x.marks) : y.Marked ts := by
  refine ⟨h.toTracked.of_same hplace (congrArg _ hstrategy) herrors hmarks, ?_⟩
  rw [hplace, hstrategy, hmarks]
  exact h.clear

theorem Tracked.marked (h : x.Tracked ts) (hrecovering : x.strategy.recovering = true) :
    x.Marked ts :=
  ⟨h, fun hclear => absurd (hclear.symm.trans hrecovering) Bool.false_ne_true⟩

/-- A report begins a recovery, and it is reported once. -/
theorem Marked.report (h : x.Marked ts) (hnumbered : Numbered ts) : (x.report ts).Marked ts := by
  cases hrecovering : x.strategy.recovering with
  | true => rwa [Standing.report, if_pos hrecovering]
  | false =>
    obtain ⟨t, ht, hvisible⟩ := h.visible
    have hplace : t.index = x.place := hnumbered _ t ht
    have hrecoveries : Recoveries false x.marks := hrecovering ▸ h.recoveries
    have hpassed : Passed (x.marks ++ [.began t]) (x.place + 1) :=
      .began x.marks (by omega)
    have honward : Onward (x.marks ++ [.began t]) :=
      h.onward.began (hplace ▸ h.clear hrecovering)
    rw [Standing.report, if_neg (by simp [hrecovering]), ht]
    refine Tracked.marked ⟨⟨t, ht, hvisible⟩, ?_, ?_, honward.snoc rfl, hpassed.snoc rfl⟩ rfl
    · rw [List.append_assoc]
      exact .begin t hrecoveries
    · rw [h.errors, List.append_assoc, List.countP_append]
      rfl

/-- A token that is skipped, or does not end the input, is not told of. -/
theorem marks_eat {skipped : Bool} {t : Token} (ht : ts[x.place]? = some t)
    (h : t.isEof = true → skipped = true) : (x.eat ts skipped).marks = x.marks := by
  cases heof : t.isEof <;> simp [Standing.eat, ht, Event.mark?, heof, h]

theorem marks_eat_of_isEof {t : Token} (ht : ts[x.place]? = some t) (heof : t.isEof = true) :
    (x.eat ts false).marks = x.marks ++ [.closed] := by
  simp [Standing.eat, ht, Event.mark?, heof]

/-- What the place moves over is behind the recovery that began last. -/
theorem Tracked.eat (h : x.Tracked ts) (hends : Ended ts) {skipped : Bool}
    (hclear : skipped = false → x.strategy.recovering = false) : (x.eat ts skipped).Tracked ts := by
  obtain ⟨t, ht, hvisible⟩ := h.visible
  have hnext := hends.nextPlace_visible ⟨t, ht, hvisible⟩
  by_cases hclosed : t.isEof = true ∧ skipped = false
  · obtain ⟨heof, rfl⟩ := hclosed
    have hmarks : (x.eat ts false).marks = x.marks ++ [.closed] := marks_eat_of_isEof ht heof
    have hstrategy : (x.eat ts false).strategy.recovering = false := hclear rfl
    have hrecoveries : Recoveries false x.marks := hclear rfl ▸ h.recoveries
    refine ⟨hnext, ?_, ?_, ?_, ?_⟩
    · rw [hmarks, hstrategy]
      exact .close hrecoveries
    · rw [hmarks, List.countP_append]
      exact h.errors
    · rw [hmarks]
      exact h.onward.snoc rfl
    · rw [hmarks]
      exact .closed x.marks _
  · have hmarks : (x.eat ts skipped).marks = x.marks :=
      marks_eat ht fun heof => by simpa [heof] using hclosed
    have hle : (x.place : Int) ≤ nextPlace ts x.place :=
      Int.ofNat_le.mpr (hends.le_nextPlace ht hvisible)
    refine ⟨hnext, ?_, ?_, ?_, ?_⟩
    · rw [hmarks]
      exact h.recoveries
    · rw [hmarks]
      exact h.errors
    · rw [hmarks]
      exact h.onward
    · rw [hmarks]
      exact h.passed.mono (Int.add_le_add_right hle 1)

/-- Behind a token that was consumed recovery may begin, if the end of the input was
not skipped. -/
theorem Tracked.passed_eat (h : x.Tracked ts) (hends : Ended ts) {skipped : Bool} {t : Token}
    (ht : ts[x.place]? = some t) (hread : t.isEof = true → skipped = false) :
    Passed (x.eat ts skipped).marks (x.eat ts skipped).place := by
  obtain ⟨t', ht', hvisible⟩ := h.visible
  obtain rfl := Option.some.inj (ht.symm.trans ht')
  cases heof : t.isEof with
  | true =>
    obtain rfl := hread heof
    rw [marks_eat_of_isEof ht heof]
    exact .closed x.marks _
  | false =>
    have hlt : (x.place : Int) < nextPlace ts x.place :=
      Int.ofNat_lt.mpr (hends.upcoming_of_run ht hvisible heof).2
    rw [marks_eat ht fun hend => absurd (heof.symm.trans hend) Bool.false_ne_true]
    exact h.passed.mono (Int.add_one_le_of_lt hlt)

theorem Tracked.matched (h : x.Tracked ts) : x.matched.Tracked ts := by
  cases hrecovering : x.strategy.recovering with
  | true =>
    have hrecoveries : Recoveries true x.marks := hrecovering ▸ h.recoveries
    have hmarks : x.matched.marks = x.marks ++ [.ended] := by
      rw [Standing.matched, if_pos hrecovering]
    refine ⟨h.visible, ?_, ?_, ?_, ?_⟩
    · rw [hmarks]
      exact hrecoveries.finish
    · rw [hmarks, List.countP_append]
      exact h.errors
    · rw [hmarks]
      exact h.onward.snoc rfl
    · rw [hmarks]
      exact h.passed.snoc rfl
  | false =>
    refine h.of_same rfl hrecovering.symm rfl ?_
    rw [Standing.matched, if_neg (by simp [hrecovering]), List.append_nil]

theorem passed_matched {i : Int} (h : Passed x.marks i) : Passed x.matched.marks i := by
  unfold Standing.matched
  dsimp only
  split
  · exact h.snoc rfl
  · rwa [List.append_nil]

/-- A token that is read ends the recovery. -/
theorem Tracked.read (h : x.Tracked ts) (hends : Ended ts) :
    (x.matched.eat ts false).Marked ts := by
  obtain ⟨t, ht, _⟩ := h.visible
  refine ⟨h.matched.eat hends fun _ => rfl, fun _ => ?_⟩
  exact h.matched.passed_eat hends ht fun _ => rfl

/-- So does one that is dropped. -/
theorem Tracked.drop (h : x.Tracked ts) (hends : Ended ts) {t : Token} (ht : ts[x.place]? = some t)
    (hrun : t.isEof = false) : (x.eat ts true).matched.Marked ts := by
  have heaten : (x.eat ts true).Tracked ts := h.eat hends nofun
  have hpassed : Passed (x.eat ts true).marks (x.eat ts true).place :=
    h.passed_eat hends ht fun heof => nomatch hrun.symm.trans heof
  exact ⟨heaten.matched, fun _ => passed_matched hpassed⟩

/-- Before the first step nothing was told. -/
theorem marked_begin {i : Nat} (hvisible : ∃ t, ts[i]? = some t ∧ t.isVisible = true) :
    (⟨i, {}, 0, [], []⟩ : Standing).Marked ts where
  visible := hvisible
  recoveries := .none
  errors := rfl
  onward := fun before _ _ heq => absurd heq.symm (List.append_ne_nil_of_right_ne_nil before nofun)
  passed := fun before _ _ heq => absurd heq.symm (List.append_ne_nil_of_right_ne_nil before nofun)
  clear := fun _ before _ _ heq =>
    absurd heq.symm (List.append_ne_nil_of_right_ne_nil before nofun)

end Standing

theorem Skips.tracked {ts : List Token} {set : TypeSet} {x y : Standing} (hskips : Skips ts set x y)
    (h : x.Tracked ts) (hends : Ended ts) : y.Tracked ts := by
  induction hskips with
  | stop => exact h
  | more _ _ _ ih => exact ih (h.eat hends nofun)

section Steps

variable {interp : Interpreter} {v : Vocabulary} {rules : List Rule} {ts : List Token} {x y : View}

/-- A mismatch that ends a rule leaves the parse recovering. -/
theorem GivesUp.marked {n : Network} (h : GivesUp n ts x y) (hnumbered : Numbered ts)
    (hends : Ended ts) (hx : x.Marked ts) : y.Marked ts := by
  have hrecovering := h.reports.1
  cases h with
  | @«at» span z _ hskips =>
    have hforced : ((x.report ts).force ts span.stop).Tracked ts := by
      unfold Standing.force
      split
      · exact (hx.report hnumbered).eat hends nofun
      · exact (hx.report hnumbered).toTracked
    have hnoted : (((x.report ts).force ts span.stop).note span.stop).Tracked ts :=
      hforced.of_same rfl rfl rfl rfl
    exact (hskips.tracked hnoted hends).marked hrecovering

theorem Ready.marked (h : Ready interp ts x y) (hnumbered : Numbered ts) (hends : Ended ts)
    (hx : x.Marked ts) : y.Marked ts := by
  have hreport := hx.report hnumbered
  cases h with
  | fits => exact hx
  | drop hunfit =>
    obtain ⟨_, t, ht, hrun, _⟩ := hunfit
    rw [← x.report_place ts] at ht
    exact hreport.drop hends ht hrun
  | skip hunfit hskips =>
    have hrecovering := (congrArg Strategy.recovering hskips.strategy.1).trans
      (x.report_recovering ts)
    exact (hskips.tracked hreport.toTracked hends).marked hrecovering

theorem View.marked_hop (h : x.Marked ts) (interp : Interpreter) (s : State) (target : StateId) :
    (interp.hop s target x).Marked ts := by
  rcases interp.hop_cases s target x with heq | heq <;> rw [heq]
  · exact h.of_same rfl rfl rfl rfl
  · exact h.of_same rfl rfl rfl rfl

theorem Takes.marked (hruns : interp.network.Runs v rules) (hnumbered : Numbered ts)
    (hends : Ended ts) {s : State} {t : Transition} (hs : interp.network.state? x.state = some s)
    (ht : s.transitions = [t]) (h : Takes interp ts s x t y) (hx : x.Marked ts) : y.Marked ts := by
  have hreport := hx.report hnumbered
  cases h with
  | hop => exact View.marked_hop hx interp s _
  | pass | call => exact hx.of_same rfl rfl rfl rfl
  | read => exact hx.read hends
  | @drop _ tok hreads ha htok hexpected =>
    obtain ⟨current, hcurrent, hrefused⟩ := ha
    -- Behind the end of the input there is only that end, which was refused.
    have hrun : current.isEof = false := by
      rw [Bool.eq_false_iff]
      intro heof
      rw [nextPlace_of_isEof hcurrent heof, hcurrent] at htok
      obtain rfl := Option.some.inj htok
      have haccepted := hruns.accepts_of_expected hs ht hreads hexpected
      exact absurd (hrefused.symm.trans haccepted) Bool.false_ne_true
    rw [← x.report_place ts] at hcurrent
    have hdropped : ((x.report ts).eat ts true).matched.Marked ts :=
      hreport.drop hends hcurrent hrun
    obtain ⟨t', ht', _⟩ := hdropped.visible
    have hread : (((x.report ts).eat ts true).matched.eat ts false).Marked ts :=
      ⟨hdropped.eat hends fun _ => rfl, fun _ => hdropped.passed_eat hends ht' fun _ => rfl⟩
    exact hread.of_same rfl rfl rfl rfl
  | insert => exact hreport.of_same rfl rfl rfl rfl

/-- Whatever a step does, its marks fit where it leads. -/
theorem Step.marked (hruns : interp.network.Runs v rules) (hnumbered : Numbered ts)
    (hends : Ended ts) (h : Step interp ts x y) (hx : x.Marked ts) : y.Marked ts := by
  cases h with
  | back => exact hx.of_same rfl rfl rfl rfl
  | @branch s z alt mark target _ hready =>
    have hmarked : (z.setAlt mark).Marked ts :=
      (hready.marked hnumbered hends hx).of_same rfl rfl rfl rfl
    exact View.marked_hop hmarked interp s target
  | unfit _ _ hup | refused _ _ _ hup => exact hup.marked hnumbered hends hx
  | undecided _ _ hready _ hup =>
    exact hup.marked hnumbered hends (hready.marked hnumbered hends hx)
  | take hs ht htakes => exact htakes.marked hruns hnumbered hends hs ht hx

end Steps

/-- A parser that was made for a grammar, and may have parsed before. -/
inductive Parser.Serves (g : Grammar) : Parser → Prop where
  | made (source : TokenSource) (options : ParserOptions) (listeners : List String) :
      Serves g ⟨g, .ofSource source, options, listeners⟩
  | again {p} (h : Serves g p) (hooks : Hooks) (steps : Nat) (start : String) :
      Serves g (p.parse hooks steps start).parser

section Parsing

variable {g : Grammar} {v : Vocabulary} {rules : List Rule} {p : Parser} {ts : List Token} {i : Nat}

/-- The marks of a parse fit its reports, and its stream goes on on the same tokens. -/
theorem Parser.parse_marked (hruns : p.grammar.network.Runs p.grammar.vocabulary rules)
    (hnumbered : Numbered ts) (hat : p.stream.At ts i) (hooks : Hooks) (steps : Nat)
    (start : String) :
    (∃ j, (p.parse hooks steps start).run.stream.At ts j) ∧
      ∃ z : Standing, z.Marked ts ∧ (p.parse hooks steps start).run.metrics.errors = z.errors ∧
        (p.parse hooks steps start).run.marks = z.marks := by
  cases hstart : (p.grammar.network.ruleIndex? start).bind fun i =>
      (p.grammar.network.rule? i).map fun info => (i, info) with
  | none =>
    simp only [Parser.parse, hstart]
    exact ⟨⟨i, hat⟩, _, Standing.marked_begin hat.visible, rfl, rfl⟩
  | some found =>
    obtain ⟨rule, hindex, hfound⟩ := Option.bind_eq_some_iff.mp hstart
    obtain ⟨span, hspan, _⟩ := Option.map_eq_some_iff.mp hfound
    obtain ⟨_, _, _, _, hlaid⟩ := hruns.laid.rule_of_name hindex hspan
    rw [Parser.parse_eq hindex hspan]
    let interp : Interpreter := ⟨p.grammar.network, p.grammar.vocabulary, hooks⟩
    have hkept (x y : View) (_ : x.Coherent interp.network.toGraph rule) (hx : x.Marked ts)
        (hstep : Step interp ts x y) : y.Marked ts :=
      hstep.marked hruns hnumbered hat.ends hx
    obtain ⟨z, hz, _, hhalts⟩ := (Run.is_begin hspan hat).halts hruns hnumbered hkept steps
      (View.coherent_begin hlaid _) (Standing.marked_begin hat.visible)
    obtain ⟨hstream, herrors, hmarks⟩ := hhalts.record
    exact ⟨⟨_, hstream⟩, z.toStanding, hz, herrors, hmarks⟩

/-- Whatever a parser has parsed, its stream stands on the tokens of its source. -/
theorem Parser.Serves.stands (h : p.Serves g) (hruns : g.network.Runs g.vocabulary rules) :
    p.grammar = g ∧ ∃ ts i, Numbered ts ∧ p.stream.At ts i := by
  induction h with
  | made source =>
    obtain ⟨ts, hts, hat⟩ := TokenStream.exists_at_ofSource source
    exact ⟨rfl, ts, _, hts.numbered, hat⟩
  | @again p h hooks steps start ih =>
    obtain ⟨rfl, ts, i, hnumbered, hat⟩ := ih
    obtain ⟨⟨j, hj⟩, _⟩ := Parser.parse_marked hruns hnumbered hat hooks steps start
    rw [p.parser_parse]
    exact ⟨rfl, ts, j, hnumbered, hj⟩

/-- In every parse recoveries and their reports alternate, so there are as many
recoveries as mismatches were counted, and each recovery begins at a later token
than the one before it, unless the end of the input was matched in between. -/
theorem Definition.parse_recovers {d : Definition} (hbuild : d.build = .ok g) (h : p.Serves g)
    (hooks : Hooks) (steps : Nat) (start : String) :
    let run := (p.parse hooks steps start).run
    (∃ recovering, Recoveries recovering run.marks) ∧
      run.metrics.errors = run.marks.countP Mark.isBegan ∧ Onward run.marks := by
  obtain ⟨rules, _, _, hruns⟩ := Definition.runs_of_build hbuild
  obtain ⟨rfl, ts, i, hnumbered, hat⟩ := h.stands hruns
  obtain ⟨_, z, hz, herrors, hmarks⟩ := Parser.parse_marked hruns hnumbered hat hooks steps start
  exact ⟨⟨_, hmarks ▸ hz.recoveries⟩, by rw [herrors, hmarks, hz.errors], hmarks ▸ hz.onward⟩

/-- A rule that reads the end of the input twice and goes on behind it. -/
def endings : Definition where
  name := "Endings"
  rules := [{
    name := "s"
    body := .seq [.literal "a", .literal "b", .eof, .literal "b", .eof, .literal "b"] }]

/-- A token too many in front of the first two. -/
def misplaced : List Token :=
  [.make 2 "b" 0 0 1 0, .make 1 "a" 1 1 1 1, .make 2 "b" 2 2 1 2]

/-- The first recovery ends with a token that is dropped, and both others begin at
the end of the input, which is matched before each of them. -/
theorem parse_recovers_misplaced :
    let g := endings.grammar (by decide +kernel)
    let run := (Parser.parse (.ofTokens g misplaced) .permissive 40 "s").run
    let first := (Token.make 2 "b" 0 0 1 0).atIndex 0
    let last := (Token.endOfInput 3 1 3).atIndex 3
    run.marks = [.began first, .reported, .ended, .closed, .began last, .reported, .ended, .closed,
        .began last, .reported] ∧
      (∃ recovering, Recoveries recovering run.marks) ∧
      run.metrics.errors = run.marks.countP Mark.isBegan ∧ Onward run.marks := by
  intro g run first last
  refine ⟨by decide +kernel, ?_⟩
  exact Definition.parse_recovers (endings.build_eq _) (.made (.ofList misplaced) {} []) .permissive
    40 "s"

end Parsing

end AdaptiveLL
