/-
Repaired trees are derivations.

Whatever is dropped or put in on the way, the node of a rule in which no mismatch
was met spells a path from the start to the end of its rule.
-/
import AdaptiveLL.Proofs.OperatorForm
import AdaptiveLL.Proofs.Parser.Spelling

namespace AdaptiveLL

theorem Graph.ruleName_eq {g : Graph} {rule : RuleIndex} {span : RuleSpan}
    (hspan : g.rule? rule = some span) : g.ruleName rule = span.name := by
  rw [Graph.ruleName, hspan]
  rfl

section Steps

variable {interp : Interpreter} {v : Vocabulary} {rules : List Rule} {start : RuleIndex}
  {ts : List Token} {x y : View}

theorem View.Coherent.eq_stop {n : Network} (hruns : n.Runs v rules)
    (hx : x.Coherent n.toGraph start) {s : State} (hs : n.state? x.state = some s)
    (hstop : s.isStop = true) (_ : n.Loopless x.current.rule) (span : RuleSpan)
    (hspan : n.rule? x.current.rule = some span) : x.state = span.stop := by
  obtain ⟨s', hs', hrule⟩ := hx.state
  obtain rfl := Option.some.inj (hs.symm.trans hs')
  exact hruns.laid.eq_stop hs hstop (hrule ▸ hspan)

namespace View.Spelled

variable {n : Network}

/-- The current invocation goes on along a path that its new parts spell. -/
theorem along (h : x.Spelled n) {more : List ParseTree} (hcurrent : y.current = x.current)
    (houter : y.outer = x.outer) (hchildren : y.children = x.children ++ more)
    (hmore : ∀ part ∈ more, part.Spelled n) (hspells : Spells n x.state more y.state) :
    y.Spelled n := by
  obtain ⟨hcurrentSound, houterSound⟩ := List.forall_mem_cons.mp h.sound
  refine ⟨List.forall_mem_cons.mpr ⟨?_, houter ▸ houterSound⟩, ?_, ?_⟩
  · rw [hcurrent, hchildren]
    exact hcurrentSound.append hmore
  · rw [hcurrent, hchildren]
    exact h.path.append hspells
  · rw [hcurrent, houter]
    exact h.waits

/-- Dropping tokens stays on the path. -/
theorem onto (h : x.Spelled n) {z : Standing} (hz : Drops x.toStanding z) :
    (x.onto z).Spelled n := by
  obtain ⟨tokens, hchildren, htokens⟩ := hz
  refine h.along rfl rfl hchildren (fun part hpart => ?_) ?_
  · obtain ⟨t, _, rfl⟩ := List.mem_map.mp hpart
    exact .leaf n t true
  · clear hchildren
    induction tokens with
    | nil => exact .done
    | cons t rest ih =>
      obtain ⟨ht, hrest⟩ := List.forall_mem_cons.mp htokens
      exact .dropped ht (ih hrest)

/-- One more part is read, put in or left out on the way through a transition. -/
theorem leaf (h : x.Spelled n) (t : Token) (skipped : Bool) (hcurrent : y.current = x.current)
    (houter : y.outer = x.outer) (hchildren : y.children = x.children ++ [t.leaf skipped])
    (hspells : Spells n x.state [t.leaf skipped] y.state) : y.Spelled n := by
  refine h.along hcurrent houter hchildren (fun part hpart => ?_) hspells
  obtain rfl := List.mem_singleton.mp hpart
  exact .leaf n t skipped

/-- Marks on the node of an invocation do not change what it spells. -/
theorem setAlt (h : x.Spelled n) (mark : Nat) : (x.setAlt mark).Spelled n := by
  obtain ⟨hcurrent, houter⟩ := List.forall_mem_cons.mp h.sound
  exact ⟨List.forall_mem_cons.mpr ⟨⟨hcurrent.known, hcurrent.parts⟩, houter⟩, h.path,
    h.waits.congr rfl rfl⟩

/-- Nothing is claimed of the node of an invocation that a mismatch ended. -/
theorem fail (h : x.Spelled n) (target : StateId) : (x.fail.goto target).Spelled n := by
  obtain ⟨hcurrent, houter⟩ := List.forall_mem_cons.mp h.sound
  exact ⟨List.forall_mem_cons.mpr ⟨⟨hcurrent.known, hcurrent.parts⟩, houter⟩, nofun,
    h.waits.congr rfl rfl⟩

/-- The node of a run is right where the current rule ends, or if it says nothing. -/
theorem node (hruns : n.Runs v rules) (h : x.Spelled n)
    (hpath : n.Loopless x.current.rule → ∀ span, n.rule? x.current.rule = some span →
      x.state = span.stop) : x.node.Spelled n := by
  refine (h.sound _ List.mem_cons_self).node_spelled hruns fun hclear hloopless => ?_
  obtain ⟨span, hspan, hspells⟩ := h.path hclear hloopless
  exact ⟨span, hspan, hpath hloopless span hspan ▸ hspells⟩

/-- A node that is put into another one belongs to a rule with a loop over operators. -/
theorem wrap (hruns : n.Runs v rules) (h : x.Spelled n) (hloop : ¬n.Loopless x.current.rule)
    (target : StateId) : (x.wrap.goto target).Spelled n := by
  obtain ⟨hcurrent, houter⟩ := List.forall_mem_cons.mp h.sound
  refine ⟨List.forall_mem_cons.mpr ⟨⟨hcurrent.known, ?_⟩, houter⟩,
    fun _ hloopless => absurd hloopless hloop, h.waits.congr rfl rfl⟩
  exact List.forall_mem_singleton.mpr (h.node hruns fun hloopless => absurd hloopless hloop)

theorem hop (hruns : interp.network.Runs v rules) (hx : x.Coherent interp.network.toGraph start)
    (h : x.Spelled interp.network) {s : State} {target : StateId}
    (hs : interp.network.state? x.state = some s) (ht : .epsilon target ∈ s.transitions) :
    (interp.hop s target x).Spelled interp.network := by
  obtain ⟨s', hs', hrule⟩ := hx.state
  obtain rfl := Option.some.inj (hs.symm.trans hs')
  unfold Interpreter.hop
  split
  · rename_i hround
    refine h.wrap hruns (fun hloopless => ?_) target
    simp only [Interpreter.beginsRound, Bool.and_eq_true, beq_iff_eq] at hround
    exact hloopless x.state s hs hrule hround.1
  · exact h.along rfl rfl (List.append_nil _).symm nofun (.pass hs ht rfl rfl .done)

/-- A rule is called, and its node will be a part of the caller's. -/
theorem call (hruns : n.Runs v rules) (h : x.Spelled n) {s : State} {target follow : StateId}
    {rule : RuleIndex} {level : Int} (hs : n.state? x.state = some s)
    (ht : .call target rule follow level ∈ s.transitions) :
    (x.call (n.ruleName rule) target rule follow level).Spelled n := by
  obtain ⟨r, span, part, _, hlaid, rfl⟩ := hruns.laid.call_target hs ht
  have hname := Graph.ruleName_eq hlaid.span_eq
  refine ⟨List.forall_mem_cons.mpr ⟨⟨⟨span, hlaid.span_eq, hname.symm⟩, nofun⟩, h.sound⟩,
    fun _ _ => ⟨span, hlaid.span_eq, .done⟩, .call (fun part hpart => ?_) h.waits⟩
  exact h.path.append (.call hs ht hpart .done)

/-- At the end of a rule its node becomes a part of the caller's. -/
theorem back (hruns : n.Runs v rules) (hx : x.Coherent n.toGraph start) (h : x.Spelled n)
    {s : State} {caller : Pending} {outer : List Pending} (hs : n.state? x.state = some s)
    (hstop : s.isStop = true) (houter : x.outer = caller :: outer) :
    (x.back caller outer).Spelled n := by
  have hnode := h.node hruns (hx.eq_stop hruns hs hstop)
  obtain ⟨_, hsound⟩ := List.forall_mem_cons.mp h.sound
  rw [houter] at hsound
  obtain ⟨hcaller, hrest⟩ := List.forall_mem_cons.mp hsound
  have hwaits := h.waits
  rw [houter] at hwaits
  cases hwaits with
  | call hback hwaits =>
    exact ⟨List.forall_mem_cons.mpr ⟨hcaller.append (List.forall_mem_singleton.mpr hnode), hrest⟩,
      hback x.node rfl, hwaits⟩

end View.Spelled

theorem Ready.spelled {n : Network} (hnumbered : Numbered ts) (h : Ready interp ts x y)
    (hx : x.Spelled n) : y.Spelled n := by
  cases h with
  | fits => exact hx
  | drop =>
    refine hx.onto ((Drops.of_children (x.report_children ts)).trans ?_)
    exact (Drops.eat hnumbered _).trans (.of_children rfl)
  | skip _ hskips =>
    exact hx.onto ((Drops.of_children (x.report_children ts)).trans (hskips.drops hnumbered))

theorem GivesUp.spelled {n : Network} (hnumbered : Numbered ts) (h : GivesUp n ts x y)
    (hx : x.Spelled n) : y.Spelled n := by
  cases h with
  | @«at» span z _ hskips =>
    have hnoted : Drops ((x.report ts).force ts span.stop)
        (((x.report ts).force ts span.stop).note span.stop) := .of_children rfl
    refine (hx.fail _).onto ((Drops.of_children (x.report_children ts)).trans ?_)
    exact (Drops.force hnumbered _ _).trans (hnoted.trans (hskips.drops hnumbered))

theorem Takes.spelled (hruns : interp.network.Runs v rules)
    (hcoherent : x.Coherent interp.network.toGraph start) {s : State} {t : Transition}
    (hs : interp.network.state? x.state = some s) (ht : s.transitions = [t])
    (h : Takes interp ts s x t y) (hx : x.Spelled interp.network) (hnumbered : Numbered ts) :
    y.Spelled interp.network := by
  have hmem : t ∈ s.transitions := ht ▸ List.mem_singleton_self t
  cases h with
  | hop => exact hx.hop hruns hcoherent hs hmem
  | pass hsilent hcall =>
    exact hx.along rfl rfl (List.append_nil _).symm nofun (.pass hs hmem hsilent hcall .done)
  | call => exact hx.call hruns hs hmem
  | @read _ tok htok ha =>
    refine hx.leaf tok false rfl rfl ?_ (.read hs hmem ha .done)
    change x.children ++ (ts[x.place]?).toList.map _ = _
    rw [htok]
    rfl
  | @drop _ tok hreads _ htok hexpected =>
    have hdrops : Drops x.toStanding ((x.report ts).eat ts true).matched :=
      (Drops.of_children (x.report_children ts)).trans
        ((Drops.eat hnumbered _).trans (.of_children rfl))
    refine (hx.onto hdrops).leaf tok false rfl rfl ?_
      (.read hs hmem (hruns.accepts_of_expected hs ht hreads hexpected) .done)
    change _ ++ (ts[nextPlace ts (x.report ts).place]?).toList.map _ = _
    rw [Standing.report_place ts, htok]
    rfl
  | @insert _ tok hreads _ _ htok =>
    refine (hx.onto (.of_children (x.report_children ts))).leaf tok true rfl rfl rfl
      (.put hs hmem hreads htok .done)

/-- Every step builds on the paths that the nodes so far spell. -/
theorem Step.spelled (hruns : interp.network.Runs v rules) (hnumbered : Numbered ts)
    (hcoherent : x.Coherent interp.network.toGraph start) (hx : x.Spelled interp.network)
    (h : Step interp ts x y) : y.Spelled interp.network := by
  cases h with
  | back hs hstop houter => exact hx.back hruns hcoherent hs hstop houter
  | @branch s y alt mark target hs hready hchosen ht =>
    have hy := hready.spelled hnumbered hx
    obtain ⟨z, rfl⟩ := hready.onto
    exact (hy.setAlt mark).hop hruns ((hcoherent.onto z).setAlt mark) hs (List.mem_of_getElem? ht)
  | unfit _ _ hup => exact hup.spelled hnumbered hx
  | undecided _ _ hready _ hup => exact hup.spelled hnumbered (hready.spelled hnumbered hx)
  | take hs ht htakes => exact htakes.spelled hruns hcoherent hs ht hx hnumbered
  | refused _ _ _ hup => exact hup.spelled hnumbered hx

end Steps

/-- A rule whose body has no loop over operators has none in the network. -/
theorem Network.Runs.loopless {n : Network} {v : Vocabulary} {rules : List Rule}
    (hruns : n.Runs v rules) {i : Nat} {r : Rule} (hr : rules[i]? = some r)
    (hbody : ∀ body, .operatorLoop body ∉ r.body.subterms) : n.Loopless i := by
  intro id s hs hrule hrole
  obtain ⟨r', span, part, hr', hlaid, ⟨_, hstop⟩ | ⟨_, hform⟩⟩ := hruns.laid.state_cases hs
  · rw [State.isStop, hrole] at hstop
    cases hstop
  · rw [hrule] at hr'
    obtain rfl := Option.some.inj (hr.symm.trans hr')
    rw [hrole] at hform
    generalize s.transitions = ts at hform
    cases hform with
    | edge _ _ _ hbasic => cases hbasic
    | hop _ hhop => exact hhop true rfl
    | block _ hblock => exact hblock.2 true rfl
    | loop _ _ _ _ _ hoperators =>
      obtain ⟨body, hmem⟩ := hoperators rfl
      exact hbody body hmem

theorem View.spelled_begin {n : Network} {rule : RuleIndex} {span : RuleSpan}
    (hspan : n.rule? rule = some span) (place : Nat) :
    (View.begin place rule span (n.ruleName rule)).Spelled n :=
  ⟨List.forall_mem_singleton.mpr ⟨⟨span, hspan, (Graph.ruleName_eq hspan).symm⟩, nofun⟩,
    fun _ _ => ⟨span, hspan, .done⟩, .outermost⟩

/-- The trees of a root are those of the tree before its alternative was settled,
the root apart. -/
theorem ParseTree.Spelled.asRoot {n : Network} {tree : ParseTree} (h : tree.Spelled n) :
    tree.asRoot.Spelled n := by
  intro rule span alt children hspan hloopless hmem
  cases tree with
  | node name alt' failed parts =>
    rw [ParseTree.asRoot, ParseTree.subtrees, List.mem_cons] at hmem
    rcases hmem with heq | hmem
    · obtain ⟨hname, _, hfailed, rfl⟩ := ParseTree.node.inj heq
      subst hname hfailed
      exact h rule span alt' children hspan hloopless List.mem_cons_self
    · exact h rule span alt children hspan hloopless (List.mem_cons_of_mem _ hmem)
  | leaf | error => exact h rule span alt children hspan hloopless hmem

/-- In the tree of a parse, whatever its input was, a node that met no mismatch
spells a path of its rule, unless the rule is left-recursive or was written with a
loop over operators. -/
theorem Definition.parse_tree_spells {d : Definition} {g : Grammar} (hbuild : d.build = .ok g)
    (source : TokenSource) (options : ParserOptions) (listeners : List String) (hooks : Hooks)
    (steps : Nat) (start : String) {result : ParseResult} {tree : ParseTree}
    (hresult : (Parser.parse ⟨g, .ofSource source, options, listeners⟩ hooks steps start).result? =
      some (.ok result)) (htree : result.tree = some tree) {r : Rule} (hr : r ∈ d.merge.rules)
    (hleft : r.body.isLeftRecursive r.name = false)
    (hloops : ∀ body, .operatorLoop body ∉ r.body.subterms) {alt : Nat} {children : List ParseTree}
    (hnode : .node r.name alt false children ∈ tree.subtrees) :
    ∃ i span, g.network.ruleIndex? r.name = some i ∧ g.network.rule? i = some span ∧
      Spells g.network span.start children span.stop := by
  obtain ⟨rules, hrules, _, hruns⟩ := Definition.runs_of_build hbuild
  obtain ⟨ts, hts, hat⟩ := TokenStream.exists_at_ofSource source
  obtain ⟨hhalt, rfl⟩ := ParseReport.result?_eq_ok.mp hresult
  obtain ⟨first, span₀, hindex₀, hspan₀⟩ := Parser.exists_start hhalt
  obtain ⟨r₀, part₀, hr₀, _, hlaid₀⟩ := hruns.laid.rule_of_name hindex₀ hspan₀
  have hspelled : tree.Spelled g.network := by
    rw [Parser.parse_eq hindex₀ hspan₀] at hhalt htree
    obtain ⟨z, s, hz, hcoherent, hs, hstop, _, _, hroot⟩ := Run.Is.finished hruns hts.numbered
      (fun _ _ hx hspells hstep => hstep.spelled hruns hts.numbered hx hspells) steps
      (Run.is_begin hspan₀ hat) (View.coherent_begin hlaid₀ _)
      (View.spelled_begin hspan₀ _) hhalt
    have hbuilt : options.buildTree = true ∧ z.node.asRoot = tree := by
      simpa [ParseReport.result, Parser.report, hroot] using htree
    exact hbuilt.2 ▸ (hz.node hruns (hcoherent.eq_stop hruns hs hstop)).asRoot
  obtain ⟨r', hr', hoperators⟩ := withOperators_exists hrules hr
  obtain ⟨hname, ⟨_, _, hbody⟩ | ⟨hrecursive, _⟩⟩ := Rule.withOperators_cases hoperators
  · obtain ⟨i, span, part, hindex, hri, hlaid⟩ := hruns.exists_ruleIndex hr'
    refine ⟨i, span, hname ▸ hindex, hlaid.span_eq, ?_⟩
    refine hspelled i span alt children hlaid.span_eq (hruns.loopless hri (hbody ▸ hloops)) ?_
    rw [hlaid.name_eq, hname]
    exact hnode
  · exact absurd (hleft.symm.trans hrecursive) Bool.false_ne_true

def pairs : Definition where
  name := "Pairs"
  rules := [
    { name := "s", body := .seq [.rule "pair" 0, .rule "pair" 0, .eof] },
    { name := "pair", body := .seq [.literal "x", .literal "y"] }]

/-- Pairs of which the first lacks its second token, and the second has one too many. -/
def unpaired : List Token :=
  [.make 1 "x" 0 0 1 0, .make 1 "x" 1 1 1 1, .make 1 "x" 2 2 1 2, .make 2 "y" 3 3 1 3]

def unpairedParts : List ParseTree :=
  [.leaf ((Token.make 1 "x" 1 1 1 1).atIndex 1), .error ((Token.make 1 "x" 2 2 1 2).atIndex 2),
    .leaf ((Token.make 2 "y" 3 3 1 3).atIndex 3)]

theorem parse_tree_spells_unpaired :
    let g := pairs.grammar (by decide +kernel)
    ∃ result tree, (Parser.parse (.ofTokens g unpaired) .permissive 30 "s").result? =
        some (.ok result) ∧ result.tree = some tree ∧
      .node "pair" 0 false unpairedParts ∈ tree.subtrees ∧
      ∃ i span, g.network.ruleIndex? "pair" = some i ∧ g.network.rule? i = some span ∧
        Spells g.network span.start unpairedParts span.stop := by
  intro g
  have hresult : (Parser.parse (.ofTokens g unpaired) .permissive 30 "s").result? =
      some (.ok (Parser.parse (.ofTokens g unpaired) .permissive 30 "s").result) :=
    ParseReport.result?_eq_ok.mpr ⟨by decide +kernel, rfl⟩
  obtain ⟨tree, htree, hnode⟩ :
      ∃ tree ∈ (Parser.parse (.ofTokens g unpaired) .permissive 30 "s").result.tree,
        .node "pair" 0 false unpairedParts ∈ tree.subtrees := by decide +kernel
  refine ⟨_, tree, hresult, htree, hnode, ?_⟩
  exact Definition.parse_tree_spells (pairs.build_eq _) (.ofList unpaired) {} [] .permissive 30 "s"
    hresult htree
    (r := { name := "pair", body := .seq [.literal "x", .literal "y"] })
    (List.mem_cons_of_mem _ List.mem_cons_self) rfl
    (by simp [Expr.subterms, Expr.subtermsOfAll]) hnode

/-- A part that is a node is read by a call of its rule. -/
theorem Spells.exists_call {n : Network} {id stop : StateId} {parts : List ParseTree}
    (h : Spells n id parts stop) {part : ParseTree} {name : String} (hpart : part ∈ parts)
    (hname : part.ruleName? = some name) : ∃ call ∈ n.calls, n.ruleName call.2.1 = name := by
  induction h with
  | done => cases hpart
  | dropped _ _ ih | put _ _ _ _ _ ih =>
    rcases List.mem_cons.mp hpart with rfl | hpart
    · cases hname
    · exact ih hpart
  | pass _ _ _ _ _ ih => exact ih hpart
  | read _ _ _ _ ih =>
    rcases List.mem_cons.mp hpart with rfl | hpart
    · cases hname
    · exact ih hpart
  | @call _ _ start rule follow level _ _ _ hs ht hcalled _ ih =>
    rcases List.mem_cons.mp hpart with rfl | hpart
    · exact ⟨_, Graph.mem_calls hs ht, Option.some.inj (hcalled.symm.trans hname)⟩
    · exact ih hpart

/-- A rule that was written with a loop over operators, of which no one is
left-recursive. -/
def handLoop : Definition where
  name := "Loop"
  rules := [{ name := "s", body := .seq [.operatorLoop (.literal "a"), .eof] }]

/-- The parts of its node for one token: the loop has put a first node into it. -/
def handLoopParts : List ParseTree :=
  [.node "s" 1 false [], .leaf ((Token.make 1 "a" 0 0 1 0).atIndex 0),
    .leaf { Token.make .eof "<EOF>" 1 0 1 1 with index := 1 }]

/-- With such a loop there is a node that spells no path of its rule, as nothing
calls the rule of the node in it. -/
theorem exists_not_spells_handLoop :
    let g := handLoop.grammar (by decide +kernel)
    (∀ r ∈ handLoop.merge.rules, r.body.isLeftRecursive r.name = false) ∧
    ∃ result tree, (Parser.parse (.ofTokens g [.make 1 "a" 0 0 1 0]) .permissive 30 "s").result? =
        some (.ok result) ∧ result.tree = some tree ∧
      .node "s" 1 false handLoopParts ∈ tree.subtrees ∧
      ¬∃ i span, g.network.ruleIndex? "s" = some i ∧ g.network.rule? i = some span ∧
        Spells g.network span.start handLoopParts span.stop := by
  intro g
  obtain ⟨tree, htree, hnode⟩ :
      ∃ tree ∈ (Parser.parse (.ofTokens g [.make 1 "a" 0 0 1 0]) .permissive 30 "s").result.tree,
        .node "s" 1 false handLoopParts ∈ tree.subtrees := by decide +kernel
  refine ⟨by decide +kernel, _, tree, ParseReport.result?_eq_ok.mpr ⟨by decide +kernel, rfl⟩,
    htree, hnode, ?_⟩
  rintro ⟨i, span, _, _, hspells⟩
  obtain ⟨call, hcall, _⟩ := hspells.exists_call List.mem_cons_self rfl
  have hnone : g.network.calls = [] := by decide +kernel
  rw [hnone] at hcall
  cases hcall

end AdaptiveLL
