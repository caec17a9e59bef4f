/-
How a parse begins and ends.

A parse enters its start rule at the first visible token.  Whatever its steps are,
its result is that of the loop.
-/
import AdaptiveLL.Proofs.Parser.Loop

namespace AdaptiveLL

theorem Supplies.numbered {source : TokenSource} {ts : List Token} (h : Supplies source 0 ts) :
    Numbered ts := fun i t ht => by
  rw [h.index_eq i ht]
  simp

def View.begin (place : Nat) (rule : RuleIndex) (span : RuleSpan) (name : String) : View where
  place
  strategy := {}
  errors := 0
  marks := []
  children := []
  state := span.start
  current := { rule, follow := span.stop, precedence := 0, startIndex := place, name }
  outer := []

section

variable {n : Network} {v : Vocabulary} {rules : List Rule} {ts : List Token} {stream : TokenStream}
  {i : Nat} {rule : RuleIndex} {r : Rule} {span : RuleSpan} {part : Part}

/-- A parse begins in the start state of its rule. -/
theorem Run.is_begin (hspan : n.rule? rule = some span) (hat : stream.At ts i) :
    (Run.enterRule n rule span.stop 0 { stream }).Is ts (.begin i rule span (n.ruleName rule)) :=
  Run.is_enterRule (r := { stream }) hat hspan rfl rfl

theorem View.coherent_begin (hlaid : RuleLaid n.toGraph v rule r span part) (name : String) :
    (View.begin i rule span name).Coherent n.toGraph rule := by
  obtain ⟨s, hs, hshape⟩ := Graph.state?_of_shape? hlaid.start_shape
  exact ⟨⟨s, hs, (Shape.mk.inj hshape).2.1⟩, .outermost rfl⟩

end

/-- Where a run that was seen like this stopped, and with which record. -/
inductive Halts (interp : Interpreter) (ts : List Token) (z : View) : Halt × Run → Prop where
  | outOfSteps {r'} (hr' : r'.Is ts z) : Halts interp ts z (.outOfSteps, r')
  | defect {d r'} (hr' : r'.Is ts z) : Halts interp ts z (.defect d, r')
  | finished {s r'} (hs : interp.network.state? z.state = some s) (hstop : s.isStop = true)
      (houter : z.outer = []) (hstream : r'.stream.At ts z.place) (htree : r'.tree = some z.node)
      (herrors : r'.metrics.errors = z.errors) (hmarks : r'.marks = z.marks) :
      Halts interp ts z (.finished, r')

section

variable {interp : Interpreter} {v : Vocabulary} {rules : List Rule} {ts : List Token}
  {start : RuleIndex} {P : View → Prop} {r : Run} {x z : View}

/-- However a run ends, its place, its reports and its marks are those that were
seen last. -/
theorem Halts.record {result : Halt × Run} (h : Halts interp ts z result) :
    result.2.stream.At ts z.place ∧ result.2.metrics.errors = z.errors ∧
      result.2.marks = z.marks := by
  cases h with
  | outOfSteps hr' | defect hr' => exact ⟨hr'.stream, hr'.errors, hr'.marks⟩
  | finished _ _ _ hstream _ herrors hmarks => exact ⟨hstream, herrors, hmarks⟩

/-- What every step keeps holds of a run where it ends. -/
theorem Run.Is.halts (hruns : interp.network.Runs v rules) (hnumbered : Numbered ts)
    (hkept : ∀ x y, x.Coherent interp.network.toGraph start → P x → Step interp ts x y → P y)
    (steps : Nat) (hr : r.Is ts x) (hx : x.Coherent interp.network.toGraph start) (hP : P x) :
    ∃ z, P z ∧ z.Coherent interp.network.toGraph start ∧
      Halts interp ts z (interp.loop steps r) := by
  induction steps generalizing r x with
  | zero => exact ⟨x, hP, hx, .outOfSteps hr⟩
  | succ steps ih =>
    rw [Interpreter.loop]
    have hsteps := hr.step hruns hnumbered hx
    generalize interp.step.run r = result at hsteps ⊢
    obtain ⟨ending, r'⟩ := result
    cases hsteps with
    | running hstep hr' => exact ih hr' (hstep.coherent hruns hx) (hkept x _ hx hP hstep)
    | finished hs hstop houter hstream htree herrors hmarks =>
      exact ⟨x, hP, hx, .finished hs hstop houter hstream.takeErrors htree herrors
        ((Run.marks_flushLexErrors r').trans hmarks)⟩
    | defect _ _ _ hr' => exact ⟨x, hP, hx, .defect hr'⟩

/-- What every step keeps holds of a run when it has finished. -/
theorem Run.Is.finished (hruns : interp.network.Runs v rules) (hnumbered : Numbered ts)
    (hkept : ∀ x y, x.Coherent interp.network.toGraph start → P x → Step interp ts x y → P y)
    (steps : Nat) (hr : r.Is ts x) (hx : x.Coherent interp.network.toGraph start) (hP : P x)
    (hhalt : (interp.loop steps r).1 = .finished) :
    ∃ z s, P z ∧ z.Coherent interp.network.toGraph start ∧
      interp.network.state? z.state = some s ∧ s.isStop = true ∧ z.outer = [] ∧
      (interp.loop steps r).2.stream.At ts z.place ∧
      (interp.loop steps r).2.tree = some z.node := by
  obtain ⟨z, hz, hcoherent, hends⟩ := hr.halts hruns hnumbered hkept steps hx hP
  generalize interp.loop steps r = result at hends hhalt ⊢
  cases hends with
  | outOfSteps | defect => cases hhalt
  | @finished s _ hs hstop houter hstream htree =>
    exact ⟨z, s, hz, hcoherent, hs, hstop, houter, hstream, htree⟩

end

section

variable {p : Parser} {hooks : Hooks} {steps : Nat} {start : String} {rule : RuleIndex}
  {span : RuleSpan}

/-- A parse is the loop from its start rule. -/
theorem Parser.parse_eq (hindex : p.grammar.network.ruleIndex? start = some rule)
    (hspan : p.grammar.network.rule? rule = some span) :
    p.parse hooks steps start =
      let (halt, run) := Interpreter.loop ⟨p.grammar.network, p.grammar.vocabulary, hooks⟩ steps
        (Run.enterRule p.grammar.network rule span.stop 0 { stream := p.stream })
      p.report halt run := by
  simp only [Parser.parse, hindex, hspan, Option.bind_some, Option.map_some]
  rfl

/-- A parse only moves the stream of its parser. -/
theorem Parser.parser_parse (p : Parser) (hooks : Hooks) (steps : Nat) (start : String) :
    (p.parse hooks steps start).parser =
      { p with stream := (p.parse hooks steps start).run.stream } := by
  unfold Parser.parse
  dsimp only
  split <;> rfl

/-- A parse that finishes has a start rule. -/
theorem Parser.exists_start (h : (p.parse hooks steps start).halt = .finished) :
    ∃ rule span, p.grammar.network.ruleIndex? start = some rule ∧
      p.grammar.network.rule? rule = some span := by
  simp only [Parser.parse] at h
  cases hstart : (p.grammar.network.ruleIndex? start).bind fun i =>
      (p.grammar.network.rule? i).map fun info => (i, info) with
  | none =>
    rw [hstart] at h
    cases h
  | some found =>
    obtain ⟨rule, hindex, hfound⟩ := Option.bind_eq_some_iff.mp hstart
    obtain ⟨span, hspan, _⟩ := Option.map_eq_some_iff.mp hfound
    exact ⟨rule, span, hindex, hspan⟩

/-- With tree building on, the result has the tree of the run. -/
theorem Parser.tree_report (h : p.options.buildTree = true) (halt : Halt) (run : Run) :
    (p.report halt run).result.tree = run.tree.map ParseTree.asRoot := by
  simp [ParseReport.result, Parser.report, h]

/-- There is a result where the loop has finished. -/
theorem ParseReport.result?_eq_ok {report : ParseReport} {result : ParseResult} :
    report.result? = some (.ok result) ↔ report.halt = .finished ∧ report.result = result := by
  unfold ParseReport.result?
  cases report.halt <;> simp

end

end AdaptiveLL
