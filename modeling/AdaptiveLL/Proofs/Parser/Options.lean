/-
Options and listeners do not steer a parse.

A run may forget after every step what the options of its parser do not ask for: the
diagnostics beyond the limit, and the nodes if no tree is to be built.  It makes the
same steps without them, and hands out the same in the end.  Nor does it matter that
the tree is built by calls that can fail, as none of them does.
-/
import AdaptiveLL.Proofs.Parser.Course
import AdaptiveLL.Proofs.Parser.Defects

namespace AdaptiveLL

/-- The notes that are left with room for so many diagnostics: all events, and the
diagnostics that come first. -/
def Note.prune : (limit : Nat) → List Note → List Note
  | _, [] => []
  | limit, .event e :: rest => .event e :: prune limit rest
  | 0, .diagnostic _ :: rest => prune 0 rest
  | limit + 1, .diagnostic d :: rest => .diagnostic d :: prune limit rest

/-- An invocation for which no node is built. -/
def Invocation.prune (i : Invocation) : Invocation :=
  { i with node := { rule := "" } }

/-- What is left of a run when everything is forgotten that the options do not ask
for. -/
def ParserOptions.prune (options : ParserOptions) (r : Run) : Run :=
  { r with
    notes := (Note.prune options.maxErrors r.notes.toList).toArray
    frames := if options.buildTree then r.frames else r.frames.map Invocation.prune
    tree := if options.buildTree then r.tree else none }

/-- Take at most `steps` steps and prune the run after each of them. -/
def Interpreter.pruningLoop (interp : Interpreter) (options : ParserOptions) :
    (steps : Nat) → Run → Halt × Run
  | 0, r => (.outOfSteps, r)
  | steps + 1, r =>
    match interp.step.run r with
    | (.running, r) => pruningLoop interp options steps (options.prune r)
    | (.finished, r) => (.finished, options.prune r.flushLexErrors)
    | (.defect d, r) => (.defect d, options.prune r)

/-- A parse that keeps no more than the options ask for. -/
def Parser.pruningParse (p : Parser) (hooks : Hooks) (steps : Nat) (start : String) : ParseReport :=
  let network := p.grammar.network
  match (network.ruleIndex? start).bind fun i => (network.rule? i).map fun info => (i, info) with
  | none => p.report (.defect (.unknownRule start)) { stream := p.stream }
  | some (rule, info) =>
    let interp : Interpreter := ⟨network, p.grammar.vocabulary, hooks⟩
    let (halt, run) := interp.pruningLoop p.options steps
      (p.options.prune (Run.enterRule network rule info.stop 0 { stream := p.stream }))
    p.report halt run

namespace Note

variable {limit : Nat} {ns ns' : List Note}

/-- Notes can be pruned before others are added. -/
theorem prune_append (limit : Nat) (ns more : List Note) :
    prune limit (ns ++ more) = prune limit (prune limit ns ++ more) := by
  induction ns generalizing limit with
  | nil => rfl
  | cons n ns ih =>
    cases n with
    | event e => exact congrArg (.event e :: ·) (ih limit)
    | diagnostic d =>
      cases limit with
      | zero => exact ih 0
      | succ limit => exact congrArg (.diagnostic d :: ·) (ih limit)

theorem prune_prune (limit : Nat) (ns : List Note) :
    prune limit (prune limit ns) = prune limit ns := by
  have happend := prune_append limit ns []
  rw [List.append_nil, List.append_nil] at happend
  exact happend.symm

theorem prune_append_congr (h : prune limit ns = prune limit ns') (more : List Note) :
    prune limit (ns ++ more) = prune limit (ns' ++ more) := by
  rw [prune_append, h, ← prune_append]

/-- Events are not pruned. -/
theorem filterMap_prune {β : Type} {f : Note → Option β} (hf : ∀ d, f (.diagnostic d) = none)
    (limit : Nat) (ns : List Note) : (prune limit ns).filterMap f = ns.filterMap f := by
  induction ns generalizing limit with
  | nil => rfl
  | cons n ns ih =>
    cases n with
    | event e => rw [prune, List.filterMap_cons, List.filterMap_cons, ih]
    | diagnostic d =>
      rw [List.filterMap_cons_none (hf d)]
      cases limit with
      | zero => exact ih 0
      | succ limit => rw [prune, List.filterMap_cons_none (hf d), ih]

/-- The diagnostics that are left are the first ones. -/
theorem filterMap_prune_take {f : Note → Option Diagnostic} (hevent : ∀ e, f (.event e) = none)
    (hf : ∀ d, f (.diagnostic d) = some d) (limit : Nat) (ns : List Note) :
    (prune limit ns).filterMap f = (ns.filterMap f).take limit := by
  induction ns generalizing limit with
  | nil => rw [prune, List.filterMap_nil, List.take_nil]
  | cons n ns ih =>
    cases n with
    | event e =>
      rw [prune, List.filterMap_cons_none (hevent e), List.filterMap_cons_none (hevent e), ih]
    | diagnostic d =>
      rw [List.filterMap_cons_some (hf d)]
      cases limit with
      | zero => exact ih 0
      | succ limit => rw [prune, List.filterMap_cons_some (hf d), List.take_succ_cons, ih]

end Note

namespace ParserOptions

variable {options : ParserOptions} {r r' : Run}

theorem events_prune (options : ParserOptions) (r : Run) : (options.prune r).events = r.events :=
  Note.filterMap_prune (fun _ => rfl) options.maxErrors r.notes.toList

theorem diagnostics_prune (options : ParserOptions) (r : Run) :
    (options.prune r).diagnostics = r.diagnostics.take options.maxErrors :=
  Note.filterMap_prune_take (fun _ => rfl) (fun _ => rfl) options.maxErrors r.notes.toList

end ParserOptions

/-- Two parses on one stream, whose runs differ in what the options do not ask for. -/
def Likeness.pruned (options : ParserOptions) (ts : List Token) (hnumbered : Numbered ts) :
    Likeness where
  tokens := ts
  numbered := hnumbered
  supply := .same
  oneTree := options.buildTree = true
  notes ns ns' := Note.prune options.maxErrors ns.toList = Note.prune options.maxErrors ns'.toList
  push n h := by
    rw [Array.toList_push, Array.toList_push]
    exact Note.prune_append_congr h [n]
  lexical {ns ns' errors errors'} herrors h := by
    obtain rfl : errors = errors' := herrors
    rw [List.foldl_push_eq_append, List.foldl_push_eq_append, Array.toList_append,
      Array.toList_append]
    exact Note.prune_append_congr h _

section

variable {options : ParserOptions} {ts : List Token} {hnumbered : Numbered ts} {r r' : Run}
  {i : Nat}

/-- A run and what is left of it are alike. -/
theorem ParserOptions.runs_prune (options : ParserOptions) (hnumbered : Numbered ts)
    (hat : r.stream.At ts i) : (Likeness.pruned options ts hnumbered).Runs (options.prune r) r where
  stream := ⟨⟨i, hat, hat⟩, rfl⟩
  state := rfl
  stack := rfl
  frames := by
    cases hbuild : options.buildTree with
    | true =>
      rw [prune, if_pos hbuild]
      exact List.forall₂_same.mpr fun _ _ => ⟨rfl, fun _ => rfl⟩
    | false =>
      rw [prune, if_neg (by simp [hbuild]), List.forall₂_map_left_iff]
      exact List.forall₂_same.mpr fun _ _ =>
        ⟨rfl, fun h => absurd (hbuild.symm.trans h) Bool.false_ne_true⟩
  strategy := rfl
  metrics := rfl
  notes := Note.prune_prune _ _
  calls := rfl
  tree hbuild := if_pos hbuild

theorem Likeness.Invocations.prune_eq {i i' : Invocation} {L : Likeness} (h : L.Invocations i i') :
    i.prune = i'.prune := by
  rw [Invocation.prune, Invocation.prune, h.rest]

/-- The same is left of runs that are alike. -/
theorem Likeness.Runs.prune_eq (h : (Likeness.pruned options ts hnumbered).Runs r r') :
    options.prune r = options.prune r' := by
  have hframes : (if options.buildTree then r.frames else r.frames.map Invocation.prune) =
      if options.buildTree then r'.frames else r'.frames.map Invocation.prune := by
    split
    · rename_i hbuild
      have hsame := h.frames.imp fun i i' hi => hi.eq_of_oneTree hbuild
      exact (List.forall₂_eq_eq_eq ▸ hsame : r.frames = r'.frames)
    · have hsame := h.frames.imp fun i i' hi => hi.prune_eq
      rw [← List.forall₂_eq_eq_eq, List.forall₂_map_left_iff, List.forall₂_map_right_iff]
      exact hsame
  have htree : (if options.buildTree then r.tree else none) =
      if options.buildTree then r'.tree else none := by
    split
    · rename_i hbuild
      exact h.tree hbuild
    · rfl
  have hnotes : Note.prune options.maxErrors r.notes.toList =
      Note.prune options.maxErrors r'.notes.toList := h.notes
  have hstream : r.stream = r'.stream := h.stream.supply
  rw [ParserOptions.prune, ParserOptions.prune, hframes, htree, hnotes, hstream, h.state, h.stack,
    h.strategy, h.metrics, h.calls]

/-- A loop that prunes is the loop, and prunes its run in the end. -/
theorem Interpreter.pruningLoop_eq (interp : Interpreter) (options : ParserOptions)
    (hnumbered : Numbered ts) (hat : r.stream.At ts i) (steps : Nat) :
    interp.pruningLoop options steps (options.prune r) =
      ((interp.loop steps r).1, options.prune (interp.loop steps r).2) := by
  induction steps generalizing r i with
  | zero => rfl
  | succ steps ih =>
    obtain ⟨hend, hruns⟩ := interp.uniform_step _ _ (options.runs_prune hnumbered hat)
    rw [pruningLoop, loop]
    generalize interp.step.run (options.prune r) = x at hend hruns
    generalize interp.step.run r = x' at hend hruns
    obtain ⟨ending, s⟩ := x
    obtain ⟨ending', s'⟩ := x'
    obtain rfl : ending = ending' := hend
    cases ending with
    | running =>
      obtain ⟨j, _, hat'⟩ := hruns.stream.place
      dsimp only
      rw [hruns.prune_eq]
      exact ih hat'
    | finished => exact congrArg (Prod.mk Halt.finished) hruns.flushLexErrors.prune_eq
    | defect d => exact congrArg (Prod.mk (Halt.defect d)) hruns.prune_eq

end

section

variable {p : Parser} {ts : List Token} {i : Nat}

/-- A parse that prunes its run ends as the other one does, with what the options
ask for. -/
theorem Parser.pruningParse_eq (hnumbered : Numbered ts) (hat : p.stream.At ts i) (hooks : Hooks)
    (steps : Nat) (start : String) : p.pruningParse hooks steps start =
      p.report (p.parse hooks steps start).halt
        (p.options.prune (p.parse hooks steps start).run) := by
  cases hstart : (p.grammar.network.ruleIndex? start).bind fun i =>
      (p.grammar.network.rule? i).map fun info => (i, info) with
  | none =>
    have hempty : p.options.prune { stream := p.stream } = { stream := p.stream } := by
      unfold ParserOptions.prune
      cases p.options.buildTree <;> rfl
    simp only [pruningParse, parse, hstart, report, hempty]
  | some found =>
    obtain ⟨rule, hindex, hfound⟩ := Option.bind_eq_some_iff.mp hstart
    obtain ⟨span, hspan, hfound⟩ := Option.map_eq_some_iff.mp hfound
    have hbegin := (Run.is_begin hspan hat).stream
    simp only [pruningParse, hstart, ← hfound]
    rw [Interpreter.pruningLoop_eq _ _ hnumbered hbegin, Parser.parse_eq hindex hspan]
    rfl

/-- What is forgotten would not have been handed out. -/
theorem Parser.result_report_prune (p : Parser) (halt : Halt) (run : Run) :
    (p.report halt (p.options.prune run)).result = (p.report halt run).result ∧
      (p.report halt (p.options.prune run)).delivered = (p.report halt run).delivered := by
  have hrecorded : p.recorded (p.options.prune run) = p.recorded run := by
    rw [recorded, recorded, ParserOptions.diagnostics_prune, List.take_take, Nat.min_self]
  have htree : (if p.options.buildTree then
        (p.options.prune run).tree.map ParseTree.asRoot else none) =
      if p.options.buildTree then run.tree.map ParseTree.asRoot else none := by
    split
    · rename_i hbuild
      exact congrArg (Option.map ParseTree.asRoot) (if_pos hbuild)
    · rfl
  have hresult (run : Run) : (p.report halt run).result =
      ⟨if p.options.buildTree then run.tree.map ParseTree.asRoot else none, p.recorded run,
        run.metrics⟩ := rfl
  refine ⟨?_, by rw [report, report, hrecorded]⟩
  rw [hresult, hresult, htree, hrecorded]
  rfl

end

/-- Every rule of a network that runs rules begins and ends in a state of it. -/
theorem Network.Runs.anchored {n : Network} {v : Vocabulary} {rules : List Rule}
    (h : n.Runs v rules) : n.toGraph.Anchored := by
  intro rule span hspan
  have hlength : n.rules.toList.length = rules.length := by
    simpa using congrArg List.length h.laid.names_eq
  have hlt : rule < rules.length := by
    obtain ⟨hlt, _⟩ := Array.getElem?_eq_some_iff.mp hspan
    rw [← hlength]
    exact hlt
  obtain ⟨span', _, hlaid⟩ := h.laid.rule rule _ (List.getElem?_eq_getElem hlt)
  obtain rfl := Option.some.inj (hlaid.span_eq.symm.trans hspan)
  obtain ⟨_, hfirst, _⟩ := Graph.state?_of_shape? hlaid.start_shape
  obtain ⟨_, hlast, _⟩ := Graph.state?_of_shape? hlaid.stop_shape
  exact ⟨Graph.lt_of_state? hfirst, Graph.lt_of_state? hlast⟩

def ParseReport.heard (report : ParseReport) (name : String) : List Diagnostic :=
  report.delivered.filterMap fun told => if told.1 = name then some told.2 else none

section

variable {p p' : Parser} {ts : List Token} {i : Nat} {hooks : Hooks} {steps : Nat} {start : String}

/-- A parse reports on its run. -/
theorem Parser.parse_eq_report (p : Parser) (hooks : Hooks) (steps : Nat) (start : String) :
    p.parse hooks steps start =
      p.report (p.parse hooks steps start).halt (p.parse hooks steps start).run := by
  unfold parse
  dsimp only
  split <;> rfl

/-- A listener hears of every diagnostic of the result, as often as it was added. -/
theorem Parser.heard_parse (p : Parser) (hooks : Hooks) (steps : Nat) (start name : String) :
    (p.parse hooks steps start).heard name =
      (p.parse hooks steps start).result.diagnostics.flatMap fun d =>
        List.replicate (p.listeners.count name) d := by
  have htold (names : List String) (d : Diagnostic) :
      (names.map fun other => (other, d)).filterMap
        (fun told => if told.1 = name then some told.2 else none) =
          List.replicate (names.count name) d := by
    induction names with
    | nil => rfl
    | cons other names ih =>
      rw [List.map_cons, List.filterMap_cons, ih, List.count_cons]
      by_cases hname : other = name
      · simp [hname, List.replicate_succ]
      · simp [hname]
  rw [p.parse_eq_report, ParseReport.heard, report, List.filterMap_flatMap]
  exact congrArg (fun f => List.flatMap f _) (funext (htold p.listeners))

/-- A result has a tree if and only if one was asked for. -/
theorem Parser.isSome_tree_iff {P : NetworkDefect → Prop} {result : ParseResult}
    (hstops : (p.parse hooks steps start).run.Stops ts P (p.parse hooks steps start).halt)
    (hok : (p.parse hooks steps start).result? = some (.ok result)) :
    result.tree.isSome = true ↔ p.options.buildTree = true := by
  obtain ⟨hfinished, rfl⟩ := ParseReport.result?_eq_ok.mp hok
  rw [hfinished] at hstops
  obtain ⟨tree, _, htree⟩ := Parser.finish_of_stops hstops
  constructor
  · intro hsome
    rw [p.result_parse] at hsome
    by_contra hbuild
    simp [hbuild] at hsome
  · intro hbuild
    rw [htree hbuild]
    rfl

/-- Grammar and stream say what a parse does. -/
theorem Parser.parse_congr (hgrammar : p.grammar = p'.grammar) (hstream : p.stream = p'.stream)
    (hooks : Hooks) (steps : Nat) (start : String) :
    (p.parse hooks steps start).halt = (p'.parse hooks steps start).halt ∧
      (p.parse hooks steps start).run = (p'.parse hooks steps start).run := by
  obtain ⟨grammar, stream, _, _⟩ := p
  obtain ⟨_, _, _, _⟩ := p'
  obtain rfl : grammar = _ := hgrammar
  obtain rfl : stream = _ := hstream
  unfold parse
  dsimp only
  split <;> exact ⟨rfl, rfl⟩

theorem Parser.sameCourse_parse (hgrammar : p.grammar = p'.grammar)
    (hstream : p.stream = p'.stream) :
    (p.parse hooks steps start).SameCourse (p'.parse hooks steps start) := by
  obtain ⟨hhalt, hrun⟩ := Parser.parse_congr hgrammar hstream hooks steps start
  refine ⟨hhalt, ?_, congrArg Run.events hrun, congrArg Run.calls hrun⟩
  rw [p.result_parse, p'.result_parse, hrun]

/-- The diagnostics of a parse are the first ones of those of a parse that has room
for all. -/
theorem Parser.diagnostics_parse (hgrammar : p.grammar = p'.grammar)
    (hstream : p.stream = p'.stream)
    (hroom : (p'.parse hooks steps start).result.diagnostics.length < p'.options.maxErrors) :
    (p.parse hooks steps start).result.diagnostics =
      (p'.parse hooks steps start).result.diagnostics.take p.options.maxErrors := by
  have hrun := (Parser.parse_congr hgrammar hstream hooks steps start).2
  rw [p'.result_parse, List.length_take] at hroom
  rw [p.result_parse, p'.result_parse, hrun]
  dsimp only
  rw [List.take_of_length_le (i := p'.options.maxErrors) (by omega)]

/-- There is but one tree to be asked for. -/
theorem Parser.tree_parse (hgrammar : p.grammar = p'.grammar) (hstream : p.stream = p'.stream)
    (hoptions : p.options.buildTree = p'.options.buildTree) :
    (p.parse hooks steps start).result.tree = (p'.parse hooks steps start).result.tree := by
  have hrun := (Parser.parse_congr hgrammar hstream hooks steps start).2
  rw [p.result_parse, p'.result_parse, hrun, hoptions]

/-- A parse that prunes its run takes the course of the other one, has the same
result, and tells the listeners the same. -/
theorem Parser.pruningParse_course (hnumbered : Numbered ts) (hat : p.stream.At ts i)
    (hooks : Hooks) (steps : Nat) (start : String) :
    (p.pruningParse hooks steps start).SameCourse (p.parse hooks steps start) ∧
      (p.pruningParse hooks steps start).result = (p.parse hooks steps start).result ∧
      (p.pruningParse hooks steps start).delivered = (p.parse hooks steps start).delivered := by
  rw [Parser.pruningParse_eq hnumbered hat, p.parse_eq_report]
  generalize (p.parse hooks steps start).halt = halt
  generalize (p.parse hooks steps start).run = run
  obtain ⟨hresult, hdelivered⟩ := p.result_report_prune halt run
  exact ⟨⟨rfl, congrArg ParseResult.metrics hresult, ParserOptions.events_prune _ run, rfl⟩,
    hresult, hdelivered⟩

end

/-- Neither options nor listeners steer a parse.  With any of them it ends in one
way and has the same events, counts and calls of the host program.  Its diagnostics
are the first ones of those that a parse with enough room has, and every listener
hears them in order.  There is a tree if and only if one was asked for, and it is
always the same; the calls that build it all go through.  A parse that keeps no more
than the options ask for has the same result and tells the listeners the same. -/
theorem Definition.parse_unsteered {d : Definition} {g : Grammar} {p : Parser}
    (hbuild : d.build = .ok g) (h : p.Serves g) (options options' : ParserOptions)
    (listeners listeners' : List String) (hooks : Hooks) (steps : Nat) (start : String) :
    let configured : Parser := { p with options, listeners }
    let configured' : Parser := { p with options := options', listeners := listeners' }
    let report := configured.parse hooks steps start
    let report' := configured'.parse hooks steps start
    report.SameCourse report' ∧
      (report'.result.diagnostics.length < options'.maxErrors →
        report.result.diagnostics = report'.result.diagnostics.take options.maxErrors) ∧
      (∀ name, report.heard name =
        report.result.diagnostics.flatMap fun d => List.replicate (listeners.count name) d) ∧
      (∀ result, report.result? = some (.ok result) →
        (result.tree.isSome = true ↔ options.buildTree = true)) ∧
      (options.buildTree = true → options'.buildTree = true →
        report.result.tree = report'.result.tree) ∧
      (∃ calls, TreeDraft.replay {} calls = .ok report.run.draft ∧
        calls.filter TreeCall.isTold = report.run.treeCalls) ∧
      (report.halt = .finished → ∃ tree, report.run.draft.finish = .ok tree ∧
        (options.buildTree = true → report.result.tree = some tree)) ∧
      (configured.pruningParse hooks steps start).SameCourse report ∧
      (configured.pruningParse hooks steps start).result = report.result ∧
      (configured.pruningParse hooks steps start).delivered = report.delivered := by
  intro configured configured' report report'
  obtain ⟨rules, _, _, hruns⟩ := Definition.runs_of_build hbuild
  obtain ⟨rfl, ts, i, hnumbered, hat⟩ := h.stands hruns
  have hstops : report.run.Stops ts _ report.halt :=
    Parser.parse_stops (p := configured) (Graph.check_of_toNetwork hruns.checked) hruns.anchored
      hnumbered.genuine hat hooks steps start
  refine ⟨Parser.sameCourse_parse rfl rfl, Parser.diagnostics_parse rfl rfl,
    configured.heard_parse hooks steps start, fun _ hok => Parser.isSome_tree_iff hstops hok,
    fun htree htree' => Parser.tree_parse rfl rfl (htree.trans htree'.symm),
    hstops.builds.replayed, fun hfinished => ?_,
    Parser.pruningParse_course (p := configured) hnumbered hat hooks steps start⟩
  rw [hfinished] at hstops
  exact Parser.finish_of_stops hstops

theorem isOk_build_endings : endings.build.isOk = true := by decide +kernel

/-- Of three reports the first one is kept and told, and there is no tree. -/
theorem parse_unsteered_misplaced :
    let p := Parser.ofTokens (endings.grammar isOk_build_endings) misplaced
    let brief :=
      Parser.parse { p with options := ⟨false, 1⟩, listeners := ["log"] } .permissive 40 "s"
    let full := Parser.parse { p with options := {}, listeners := [] } .permissive 40 "s"
    brief.halt = .finished ∧ full.result.diagnostics.length = 3 ∧ brief.SameCourse full ∧
      brief.result.diagnostics = full.result.diagnostics.take 1 ∧
      brief.heard "log" = brief.result.diagnostics ∧ brief.result.tree.isSome = false := by
  intro p brief full
  have hfinished : brief.halt = .finished := by decide +kernel
  have hlength : full.result.diagnostics.length = 3 := by decide +kernel
  have hserves : p.Serves (endings.grammar isOk_build_endings) := .made (.ofList misplaced) {} []
  obtain ⟨hcourse, hfirst, hheard, htree, _⟩ :=
    Definition.parse_unsteered (endings.build_eq isOk_build_endings) hserves ⟨false, 1⟩ {} ["log"]
      [] .permissive 40 "s"
  refine ⟨hfinished, hlength, hcourse, hfirst (hlength.trans_lt (by decide)), ?_, ?_⟩
  · have honce : ["log"].count "log" = 1 := by decide
    rw [hheard, honce]
    exact List.flatMap_singleton' _
  · have hiff := htree _ (ParseReport.result?_eq_ok.mpr ⟨hfinished, rfl⟩)
    exact Bool.eq_false_iff.mpr fun hsome => Bool.false_ne_true (hiff.mp hsome)

end AdaptiveLL
