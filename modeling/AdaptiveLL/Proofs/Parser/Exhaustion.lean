/-
Parses that read all of their input.

If the body of the outermost rule ends with the end of the input, a run comes behind
the body only by reading this end, or by giving the rule up; then no call is
pending, and tokens are skipped up to the end.  So no token is left over, however
many mismatches were repaired.
-/
import AdaptiveLL.Proofs.OperatorForm
import AdaptiveLL.Proofs.Parser.Coverage
import AdaptiveLL.Proofs.Parser.Spelling

namespace AdaptiveLL

def View.AtInputEnd (ts : List Token) (x : View) : Prop :=
  ∃ t, ts[x.place]? = some t ∧ t.isEof = true

/-- A run that is behind the body of the outermost rule is at the end of the input. -/
def View.Exhausts (g : Graph) (start : RuleIndex) (ts : List Token) (x : View) : Prop :=
  x.outer = [] → g.Closing start x.state → x.AtInputEnd ts

section Steps

variable {interp : Interpreter} {v : Vocabulary} {rules : List Rule} {start : RuleIndex} {r₀ : Rule}
  {ts : List Token} {x y : View}

/-- Nothing is made to fit at the end of the input. -/
theorem Ready.eq_of_atInputEnd (h : Ready interp ts x y) (hend : x.AtInputEnd ts) : y = x := by
  obtain ⟨t, ht, heof⟩ := hend
  have hfits : ¬(interp.site x).Unfit ts x.toStanding := by
    rintro ⟨_, t', ht', hrun, _⟩
    obtain rfl := Option.some.inj (ht.symm.trans ht')
    exact absurd (hrun.symm.trans heof) Bool.false_ne_true
  cases h with
  | fits => rfl
  | drop hunfit | skip hunfit => exact absurd hunfit hfits

/-- When the outermost rule is given up, all tokens are skipped. -/
theorem GivesUp.exhausts {n : Network} (h : GivesUp n ts x y) (houter : y.outer = []) :
    y.AtInputEnd ts := by
  cases h with
  | «at» _ hskips =>
    obtain ⟨t, ht, heof | hin⟩ := hskips.stopped
    · exact ⟨t, ht, heof⟩
    · have hstack : x.stack = [] := by
        rw [View.stack, show x.outer = [] from houter]
        rfl
      rw [hstack] at hin
      cases hin

/-- Behind the body of the outermost rule, only the end of the input can be read. -/
theorem Network.Runs.eof_of_lookInContext {n : Network} (hruns : n.Runs v rules) {id : StateId}
    {s : State} (hs : n.state? id = some s) (hrule : s.rule = start)
    (hid : n.toGraph.Closing start id) {a : TokenType}
    (ha : (n.lookInContext id []).contains a = true) : a = .eof := by
  rw [Graph.lookInContext, Graph.contains_lookFrom] at ha
  obtain ⟨x, hx, hcontains⟩ := ha
  let Behind (x : LookVisit) : Prop := x.stack = [] ∧ n.toGraph.Closing start x.state ∧
    ∃ s, n.state? x.state = some s ∧ s.rule = start
  have hnext (x : LookVisit) (hbehind : Behind x) : ∀ y ∈ n.lookNext x, Behind y := by
    intro y hy
    obtain ⟨hstack, hclosing, s, hs, hrule⟩ := hbehind
    cases hstop : s.isStop with
    | true =>
      rw [Graph.lookNext] at hy
      simp only [hs, hstop, if_true, hstack] at hy
      cases hy
    | false =>
      rw [Network.Orderly.lookNext_of_run hs hstop] at hy
      obtain ⟨t, ht, hy⟩ := List.mem_filterMap.mp hy
      obtain ⟨s', hs', hrule'⟩ : ∃ s', n.state? t.target = some s' ∧ s'.rule = s.rule := by
        obtain ⟨span, _, rfl⟩ := hruns.transition_of_closing hs hrule hclosing ht
        exact hruns.laid.target_state hs ht rfl
      obtain ⟨span, hspan, rfl⟩ := hruns.transition_of_closing hs hrule hclosing ht
      obtain rfl := Option.some.inj hy
      exact ⟨hstack, ⟨span, hspan, .inl rfl⟩, s', hs', hrule'.trans hrule⟩
  obtain ⟨hstack, hclosing, s, hs, hrule⟩ :=
    Graph.forall_lookVisits (P := Behind) ⟨rfl, hid, s, hs, hrule⟩ hnext x hx
  rw [Graph.lookTypes] at hcontains
  simp only [hs, hstack, List.isEmpty_nil, if_true] at hcontains
  split at hcontains
  · exact TypeSet.contains_single.mp hcontains
  · rw [TypeSet.contains_foldl_union (f := fun types => types)] at hcontains
    obtain ⟨types, htypes, _⟩ := hcontains.resolve_left (by simp)
    obtain ⟨t, ht, hlabel⟩ := List.mem_filterMap.mp htypes
    obtain ⟨span, _, rfl⟩ := hruns.transition_of_closing hs hrule hclosing ht
    cases hlabel

/-- A transition leads behind the body of the outermost rule from there, or it reads
the end of the input. -/
theorem Network.Runs.closing_or_reads_end {n : Network} (hruns : n.Runs v rules)
    (hstart : rules[start]? = some r₀) (hbody : r₀.body.Ends) {id : Nat} {s : State}
    {t : Transition} (hs : n.state? id = some s) (hrule : s.rule = start) (ht : t ∈ s.transitions)
    (hland : n.toGraph.Closing start t.lands) :
    n.toGraph.Closing start id ∧ (∃ target, t = .epsilon target) ∨
      ∃ exit, t = .atom exit .eof := by
  by_cases hid : n.toGraph.Closing start id
  · obtain ⟨span, _, rfl⟩ := hruns.transition_of_closing hs hrule hid ht
    exact .inl ⟨hid, _, rfl⟩
  · exact .inr (hruns.ending_of_lands hstart hbody hs hrule hid ht hland)

theorem View.Coherent.rule_of_outermost {g : Graph} {s : State} (hx : x.Coherent g start)
    (hs : g.state? x.state = some s) (houter : x.outer = []) : s.rule = start := by
  obtain ⟨s', hs', hrule⟩ := hx.state
  obtain rfl := Option.some.inj (hs.symm.trans hs')
  have hchain := hx.chain
  rw [houter] at hchain
  cases hchain with
  | outermost hcurrent => exact hrule.trans hcurrent

/-- A way that reads nothing comes behind the body from there only. -/
theorem View.Exhausts.hop (hruns : interp.network.Runs v rules) (hstart : rules[start]? = some r₀)
    (hbody : r₀.body.Ends) (hcoherent : x.Coherent interp.network.toGraph start)
    (hx : x.Exhausts interp.network.toGraph start ts) {s : State} {target : StateId} {z : Standing}
    (hs : interp.network.state? x.state = some s) (ht : .epsilon target ∈ s.transitions)
    (hready : Ready interp ts x (x.onto z)) (mark : Nat) :
    (interp.hop s target ((x.onto z).setAlt mark)).Exhausts interp.network.toGraph start ts := by
  intro houter hclosing
  obtain ⟨hplace, houter', hstate⟩ :
    (interp.hop s target ((x.onto z).setAlt mark)).place = z.place ∧
      (interp.hop s target ((x.onto z).setAlt mark)).outer = x.outer ∧
      (interp.hop s target ((x.onto z).setAlt mark)).state = target := by
    rcases interp.hop_cases s target ((x.onto z).setAlt mark) with heq | heq <;> rw [heq] <;>
      exact ⟨rfl, rfl, rfl⟩
  rw [houter'] at houter
  rw [hstate] at hclosing
  have hrule := hcoherent.rule_of_outermost hs houter
  obtain ⟨hid, _⟩ | ⟨_, heq⟩ := hruns.closing_or_reads_end hstart hbody hs hrule ht hclosing
  · have hend := hx houter hid
    have hsame : z.place = x.place :=
      congrArg (fun y : View => y.toStanding.place) (hready.eq_of_atInputEnd hend)
    rw [View.AtInputEnd, hplace, hsame]
    exact hend
  · cases heq

theorem Takes.exhausts (hruns : interp.network.Runs v rules) (hstart : rules[start]? = some r₀)
    (hbody : r₀.body.Ends) (hcoherent : x.Coherent interp.network.toGraph start)
    (hx : x.Exhausts interp.network.toGraph start ts) {s : State} {t : Transition}
    (hs : interp.network.state? x.state = some s) (ht : s.transitions = [t])
    (h : Takes interp ts s x t y) : y.Exhausts interp.network.toGraph start ts := by
  have hmem : t ∈ s.transitions := ht ▸ List.mem_singleton_self t
  have hreads (houter : x.outer = []) (hreads : t.isEpsilon = false)
      (hclosing : interp.network.toGraph.Closing start t.target) : ∃ exit, t = .atom exit .eof := by
    have hland : t.lands = t.target :=
      t.lands_of_not_call (by cases t <;> first | rfl | cases hreads)
    obtain ⟨_, _, rfl⟩ | hend := hruns.closing_or_reads_end hstart hbody hs
      (hcoherent.rule_of_outermost hs houter) hmem (hland ▸ hclosing)
    · cases hreads
    · exact hend
  have hstay {tok : Token} {i : Nat} (htok : ts[i]? = some tok) (heof : tok.type = .eof) :
      ∃ t, ts[nextPlace ts i]? = some t ∧ t.isEof = true := by
    have hend : tok.isEof = true := beq_iff_eq.mpr heof
    exact ⟨tok, (nextPlace_of_isEof htok hend).symm ▸ htok, hend⟩
  cases h with
  | hop => exact View.Exhausts.hop hruns hstart hbody hcoherent hx hs hmem .fits x.current.alt
  | pass hsilent hcall _ hhop =>
    intro houter hclosing
    obtain ⟨_, target, rfl⟩ | ⟨_, rfl⟩ := hruns.closing_or_reads_end hstart hbody hs
      (hcoherent.rule_of_outermost hs houter) hmem ((t.lands_of_not_call hcall).symm ▸ hclosing)
    · exact absurd rfl (hhop target)
    · cases hsilent
  | call => exact fun houter => nomatch houter
  | read htok ha =>
    intro houter hclosing
    obtain ⟨_, rfl⟩ := hreads houter (by cases t <;> first | rfl | cases ha) hclosing
    exact hstay htok (beq_iff_eq.mp ha).symm
  | @drop _ tok hreads' _ htok hexpected =>
    intro houter hclosing
    have ha := hruns.accepts_of_expected hs ht hreads' hexpected
    obtain ⟨_, rfl⟩ := hreads houter hreads' hclosing
    have htok' : ts[nextPlace ts (x.report ts).place]? = some tok := by
      rw [x.report_place ts]
      exact htok
    exact hstay htok' (beq_iff_eq.mp ha).symm
  | insert hreads' ha hbridges _ =>
    -- A token is put in only in front of one that can be read behind it, so not in
    -- front of the end.
    intro houter hclosing
    exfalso
    obtain ⟨_, rfl⟩ := hreads houter hreads' hclosing
    obtain ⟨tok, htok, hrefused⟩ := ha
    obtain ⟨tok', s', t', htok', hs', hhead, hcontains⟩ := hbridges
    obtain rfl := Option.some.inj (htok.symm.trans htok')
    obtain rfl := Option.some.inj (hs.symm.trans hs')
    rw [ht] at hhead
    obtain rfl := Option.some.inj hhead
    obtain ⟨s₁, hs₁, hrule₁⟩ := hruns.laid.target_state hs hmem rfl
    have hstack : (interp.site x).stack = [] := by
      rw [Interpreter.site, View.stack, show x.outer = [] from houter]
      rfl
    rw [hstack] at hcontains
    have heof := hruns.eof_of_lookInContext hs₁
      (hrule₁.trans (hcoherent.rule_of_outermost hs houter)) hclosing hcontains
    simp [Transition.accepts, heof] at hrefused

/-- Every step comes behind the body of the outermost rule at the end of the input
only. -/
theorem Step.exhausts (hruns : interp.network.Runs v rules) (hstart : rules[start]? = some r₀)
    (hbody : r₀.body.Ends) (hcoherent : x.Coherent interp.network.toGraph start)
    (hx : x.Exhausts interp.network.toGraph start ts) (h : Step interp ts x y) :
    y.Exhausts interp.network.toGraph start ts := by
  cases h with
  | back hs hstop houter =>
    intro hlast hclosing
    have hchain := hcoherent.chain
    rw [houter] at hchain
    cases hchain with
    | @call _ _ _ _ s' _ hs' hrule ht hcaller =>
      obtain rfl := hlast
      cases hcaller with
      | outermost hcaller =>
        obtain ⟨_, _, heq⟩ | ⟨_, heq⟩ := hruns.closing_or_reads_end hstart hbody hs'
          (hrule.trans hcaller) ht hclosing
        · cases heq
        · cases heq
  | branch hs hready _ ht =>
    obtain ⟨z, rfl⟩ := hready.onto
    exact .hop hruns hstart hbody hcoherent hx hs (List.mem_of_getElem? ht) hready _
  | unfit _ _ hup | undecided _ _ _ _ hup | refused _ _ _ hup =>
    exact fun houter _ => hup.exhausts houter
  | take hs ht htakes => exact htakes.exhausts hruns hstart hbody hcoherent hx hs ht

/-- A run of a rule whose body ends with the end of the input finishes at this end. -/
theorem Run.Is.finished_atInputEnd {n : Network} {hooks : Hooks} (hruns : n.Runs v rules)
    (hstart : rules[start]? = some r₀) (hbody : r₀.body.Ends) {span : RuleSpan}
    (hspan : n.rule? start = some span) (hnumbered : Numbered ts) {stream : TokenStream} {i : Nat}
    (hat : stream.At ts i) {steps : Nat}
    (hhalt : (Interpreter.loop ⟨n, v, hooks⟩ steps
      (Run.enterRule n start span.stop 0 { stream })).1 = .finished) :
    ∃ j t, (Interpreter.loop ⟨n, v, hooks⟩ steps
      (Run.enterRule n start span.stop 0 { stream })).2.stream.At ts j ∧
        ts[j]? = some t ∧ t.isEof = true := by
  obtain ⟨span', part, hlaid⟩ := hruns.laid.rule start r₀ hstart
  obtain rfl := Option.some.inj (hlaid.span_eq.symm.trans hspan)
  let interp : Interpreter := ⟨n, v, hooks⟩
  have hkept : ∀ x y, x.Coherent interp.network.toGraph start →
      x.Exhausts interp.network.toGraph start ts → Step interp ts x y →
        y.Exhausts interp.network.toGraph start ts :=
    fun _ _ hcoherent hx hstep => hstep.exhausts hruns hstart hbody hcoherent hx
  obtain ⟨z, s, hz, hcoherent, hs, hstop, houter, hstream, _⟩ :=
    Run.Is.finished hruns hnumbered hkept
    steps (Run.is_begin hspan hat) (View.coherent_begin hlaid _)
    (fun _ hclosing => absurd hclosing hlaid.not_closing_start) hhalt
  have hrule := hcoherent.rule_of_outermost hs houter
  have hclosing : n.toGraph.Closing start z.state :=
    hruns.laid.eq_stop hs hstop (hrule ▸ hspan) ▸ hlaid.closing_stop
  obtain ⟨t, ht, heof⟩ := hz houter hclosing
  exact ⟨z.place, t, hstream, ht, heof⟩

end Steps

section

variable {g : Grammar} {hooks : Hooks} {steps : Nat} {start : String} {ts : List Token}
  {stream : TokenStream} {options : ParserOptions} {listeners : List String}

/-- Where a parse begins, nothing was read. -/
theorem Run.tells_begin {n : Network} {i : Nat} (hat : stream.At ts i)
    (hnew : upcoming ts i = upcoming ts 0) (rule : RuleIndex) (follow : StateId) :
    (Run.enterRule n rule follow 0 { stream }).Tells ts := by
  have hnone : (ts.take i).filter Token.isVisible = [] := by
    have hsplit := List.filter_append (p := Token.isVisible) (ts.take i) (ts.drop i)
    rw [List.take_append_drop] at hsplit
    have hall : ts.filter Token.isVisible = (ts.drop i).filter Token.isVisible := hnew.symm
    exact List.self_eq_append_left.mp (hall.symm.trans hsplit)
  exact Run.Told.enterRule (r := { stream }) ⟨⟨i, hat, hnone.symm⟩, rfl⟩ n rule follow 0

end

/-- The tokens of the input in the tree of a parse are the visible tokens in front
of the place where the parse ended, each once and in order, and they were counted.
If the body of the start rule is a sequence that ends with the end of the input,
they are all visible tokens of the input. -/
theorem Parser.parse_leaves (g : Grammar) (source : TokenSource) (options : ParserOptions)
    (hbuilds : options.buildTree = true) (listeners : List String) (hooks : Hooks) (steps : Nat)
    (start : String) {result : ParseResult}
    (hresult : (Parser.parse ⟨g, .ofSource source, options, listeners⟩ hooks steps start).result? =
      some (.ok result)) :
    ∃ ts tree, Supplies source 0 ts ∧ result.tree = some tree ∧
      tree.leaves.filter Token.isInput = (ts.take (Parser.parse ⟨g, .ofSource source, options,
        listeners⟩ hooks steps start).parser.stream.index.1).filter Token.isVisible ∧
      result.metrics.tokens = (tree.leaves.filter Token.isInput).length ∧
      ∀ (d : Definition) (r : Rule) (items : List Expr) (e : Expr), d.build = .ok g →
        r ∈ d.merge.rules → r.name = start → r.body = .seq (items ++ [e]) → e.isEnd = true →
          tree.leaves.filter Token.isInput = ts.filter fun t => t.isVisible && !t.isEof := by
  obtain ⟨ts, hts, hat⟩ := TokenStream.exists_at_ofSource source
  obtain ⟨hhalt, rfl⟩ := ParseReport.result?_eq_ok.mp hresult
  obtain ⟨rule, span, hindex, hspan⟩ := Parser.exists_start hhalt
  rw [Parser.parse_eq hindex hspan] at hhalt ⊢
  have hnew : upcoming ts (visiblePlace ts 0) = upcoming ts 0 := by
    obtain ⟨_, _, _, hplace⟩ := hat.ends.visiblePlace_spec 0
    exact (hplace hat.ends.pos).2
  let interp : Interpreter := ⟨g.network, g.vocabulary, hooks⟩
  obtain ⟨tree, htree, ⟨i, hi, hleaves⟩, htokens⟩ := interp.loop_told hts.numbered steps
    (Run.tells_begin hat hnew rule span.stop) hhalt
  refine ⟨ts, tree.asRoot, hts, ?_, ?_, ?_, ?_⟩
  · exact (Parser.tree_report hbuilds _ _).trans (congrArg (Option.map ParseTree.asRoot) htree)
  · rw [ParseTree.leaves_asRoot, hleaves]
    exact congrArg (fun i => (ts.take i).filter Token.isVisible) hi.index.1.symm
  · rw [ParseTree.leaves_asRoot]
    exact htokens
  · intro d r items e hbuild hr hname hbody hend
    obtain ⟨rules, hrules, _, hruns⟩ := Definition.runs_of_build hbuild
    obtain ⟨r', hr', hoperators⟩ := withOperators_exists hrules hr
    obtain ⟨hname', _⟩ := Rule.withOperators_cases hoperators
    obtain ⟨r₀, _, hr₀, hname₀, _⟩ := hruns.laid.rule_of_name hindex hspan
    obtain rfl : r₀ = r' := hruns.rule_inj (List.mem_of_getElem? hr₀) hr'
      (hname₀.trans (hname.symm.trans hname'.symm))
    have hends : r₀.body.Ends := by
      rw [Rule.body_withOperators_of_seq hbody hoperators, hbody]
      exact .seq items hend
    obtain ⟨j, t, hj, ht, heof⟩ :=
      Run.Is.finished_atInputEnd hruns hr₀ hends hspan hts.numbered hat hhalt
    obtain rfl : i = j := hi.index.1.symm.trans hj.index.1
    rw [ParseTree.leaves_asRoot, hleaves]
    exact hat.ends.visible_take_of_isEof ht heof

def listing : Definition where
  name := "Listing"
  rules := [{ name := "s", body := .seq [.star (.seq [.literal "a", .literal "b"]), .eof] }]

theorem isOk_build_listing : listing.build.isOk = true := by decide +kernel

/-- Two pairs with a blank in the first, a token too many between them and one too
few at the end. -/
def scattered : List Token :=
  [.make 1 "a" 0 0 1 0, { Token.make 3 " " 1 1 1 1 with channel := .hidden }, .make 2 "b" 2 2 1 2,
    .make 2 "b" 3 3 1 3, .make 1 "a" 4 4 1 4]

theorem parse_leaves_scattered :
    let g := listing.grammar (by decide +kernel)
    ∃ result tree, (Parser.parse (.ofTokens g scattered) .permissive 40 "s").result? =
        some (.ok result) ∧ result.metrics.errors = 2 ∧ result.tree = some tree ∧
      result.metrics.tokens = 4 ∧ tree.leaves.filter Token.isInput =
        [(Token.make 1 "a" 0 0 1 0).atIndex 0, (Token.make 2 "b" 2 2 1 2).atIndex 2,
          (Token.make 2 "b" 3 3 1 3).atIndex 3, (Token.make 1 "a" 4 4 1 4).atIndex 4] := by
  intro g
  have hresult : (Parser.parse (.ofTokens g scattered) .permissive 40 "s").result? =
      some (.ok (Parser.parse (.ofTokens g scattered) .permissive 40 "s").result) :=
    ParseReport.result?_eq_ok.mpr ⟨by decide +kernel, rfl⟩
  obtain ⟨ts, tree, hts, htree, _, htokens, hall⟩ :=
    Parser.parse_leaves g (.ofList scattered) {} rfl [] .permissive 40 "s" hresult
  have hleaves := hall listing _ [_] .eof (listing.build_eq _) List.mem_cons_self rfl rfl rfl
  obtain rfl := hts.unique (.more rfl (.more rfl (.more rfl (.more rfl (.more rfl (.last rfl))))))
  exact ⟨_, tree, hresult, by decide +kernel, htree, htokens.trans (congrArg List.length hleaves),
    hleaves⟩

end AdaptiveLL
