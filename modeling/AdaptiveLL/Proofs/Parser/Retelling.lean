/-
The tree that the record of a run tells.

Whoever hears the events of a parse in their order can build its tree: a rule that
is entered opens a node, a token that is consumed or put in becomes a leaf, and a
rule that is left closes its node and says whether a mismatch was met in it.  Only
the numbers of the alternatives are not told, and no event says that a loop over
operators puts what was built into a new node.
-/
import AdaptiveLL.Proofs.Parser.Lasting
import AdaptiveLL.Proofs.Parser.Recoveries
import AdaptiveLL.Proofs.Parser.Repaired

namespace AdaptiveLL

namespace ParseTree

mutual

/-- The tree without the numbers of its alternatives. -/
def withoutAlts : ParseTree → ParseTree
  | .node rule _ failed children => .node rule 0 failed (withoutAltsAll children)
  | .leaf token => .leaf token
  | .error token => .error token

def withoutAltsAll : List ParseTree → List ParseTree
  | [] => []
  | t :: rest => t.withoutAlts :: withoutAltsAll rest

end

theorem withoutAltsAll_eq (ts : List ParseTree) : withoutAltsAll ts = ts.map withoutAlts := by
  induction ts with
  | nil => rfl
  | cons t rest ih => rw [withoutAltsAll, ih, List.map_cons]

@[simp] theorem withoutAlts_asRoot (t : ParseTree) : t.asRoot.withoutAlts = t.withoutAlts := by
  cases t <;> rfl

end ParseTree

namespace NodeDraft

/-- What is told of a node while it is open. -/
def told (n : NodeDraft) : NodeDraft :=
  { rule := n.rule, children := ParseTree.withoutAltsAll n.children }

def setFailed (n : NodeDraft) (failed : Bool) : NodeDraft :=
  { n with failed }

theorem told_add (n : NodeDraft) (t : ParseTree) :
    (n.add t).told = n.told.add t.withoutAlts := by
  simp [told, add, ParseTree.withoutAltsAll_eq]

theorem told_setAlt (n : NodeDraft) (alt : Nat) : (n.setAlt alt).told = n.told := by
  unfold setAlt
  split <;> rfl

/-- A node that is closed with its own mark is told in full. -/
theorem close_told (n : NodeDraft) : (n.told.setFailed n.failed).close = n.close.withoutAlts :=
  rfl

end NodeDraft

namespace TreeDraft

def told (b : TreeDraft) : TreeDraft :=
  ⟨b.stack.map NodeDraft.told, b.root.map ParseTree.withoutAlts⟩

/-- What becomes of the nodes when an event is heard. -/
def hear (b : TreeDraft) : Event → Except TreeDefect TreeDraft
  | .enterRule rule _ => .ok (b.start rule)
  | .exitRule _ failed => do
    let b ← b.modifyNode fun n => n.setFailed failed
    b.finishNode
  | .consume t false => b.addToken t
  | .consume t true => b.addError t
  | .insert t => b.addError t
  | .predict .. | .ambiguity .. | .beginRecovery _ | .endRecovery | .resync _ => .ok b

/-- What becomes of the nodes when these events are heard one after the other. -/
def retell (b : TreeDraft) (events : List Event) : Except TreeDefect TreeDraft :=
  events.foldlM hear b

variable {b b' : TreeDraft}

theorem retell_append {events more : List Event} (h : b.retell events = .ok b') :
    b.retell (events ++ more) = b'.retell more := by
  rw [retell, List.foldlM_append, ← retell, h]
  rfl

@[simp] theorem retell_singleton (b : TreeDraft) (e : Event) : b.retell [e] = b.hear e := by
  rw [retell, List.foldlM_cons]
  cases b.hear e <;> rfl

/-- An event that tells of no node and no leaf changes nothing. -/
theorem hear_silent (b : TreeDraft) {e : Event} (he : e.treeCall? = none) : b.hear e = .ok b := by
  cases e with
  | enterRule | exitRule | consume | insert => cases he
  | _ => rfl

/-- What is told of a node changes with it. -/
theorem told_modifyNode {f g : NodeDraft → NodeDraft} (hf : ∀ n, (f n).told = g n.told)
    (h : b.modifyNode f = .ok b') : b.told.modifyNode g = .ok b'.told := by
  obtain ⟨stack, root⟩ := b
  cases stack with
  | nil => cases h
  | cons n outer =>
    cases h
    simp [told, modifyNode, hf]

theorem hear_consume {t : Token} {skipped : Bool}
    (h : b.modifyNode (fun n => n.add (if skipped then .error t else .leaf t)) = .ok b') :
    b.told.hear (.consume t skipped) = .ok b'.told := by
  cases skipped with
  | true => exact told_modifyNode (fun n => n.told_add _) h
  | false => exact told_modifyNode (fun n => n.told_add _) h

theorem hear_insert {t : Token} (h : b.modifyNode (fun n => n.add (.error t)) = .ok b') :
    b.told.hear (.insert t) = .ok b'.told :=
  told_modifyNode (fun n => n.told_add _) h

theorem hear_enterRule (b : TreeDraft) (rule : String) (index : Nat) :
    b.told.hear (.enterRule rule index) = .ok (b.start rule).told :=
  rfl

/-- To hear that the innermost rule is left is to close its node. -/
theorem hear_exitRule {n : NodeDraft} {outer : List NodeDraft} {root : Option ParseTree}
    (h : finishNode ⟨n :: outer, root⟩ = .ok b') (rule : String) :
    (told ⟨n :: outer, root⟩).hear (.exitRule rule n.failed) = .ok b'.told := by
  cases outer with
  | nil =>
    cases h
    rfl
  | cons parent rest =>
    cases h
    simp only [told, List.map_cons, NodeDraft.told_add, ← NodeDraft.close_told]
    rfl

end TreeDraft

/-- An invocation and its node are marked alike.  The events tell the mark of the
invocation, and the tree keeps that of the node. -/
def Invocation.Agrees (i : Invocation) : Prop :=
  i.failed = i.node.failed

namespace Invocation

variable {i : Invocation}

theorem Agrees.of_same {f : Invocation → Invocation} (hnode : (f i).node.failed = i.node.failed)
    (hfailed : (f i).failed = i.failed) (h : i.Agrees) : (f i).Agrees :=
  hfailed.trans (h.trans hnode.symm)

/-- A rule that is given up is marked together with its node. -/
theorem agrees_fail (i : Invocation) : i.fail.Agrees := rfl

theorem Agrees.setAlt (h : i.Agrees) (alt : Nat) :
    Agrees { i with node := i.node.setAlt alt } := by
  refine h.of_same (f := fun i => { i with node := i.node.setAlt alt }) ?_ rfl
  dsimp only [NodeDraft.setAlt]
  split <;> rfl

theorem Agrees.addToken (h : i.Agrees) (t : Token) (isError : Bool) :
    (i.addToken t isError).Agrees :=
  h.of_same (f := fun i => i.addToken t isError) rfl rfl

end Invocation

/-- A run in which some rule is open, and whose events tell of its nodes. -/
structure Run.Retold (ts : List Token) (r : Run) : Prop where
  placed : ∃ i, r.stream.At ts i
  opened : r.frames ≠ []
  agree : ∀ i ∈ r.frames, i.Agrees
  heard : TreeDraft.retell {} r.events = .ok r.draft.told

namespace Run.Retold

variable {ts : List Token} {r r' : Run}

/-- Nothing is told that was not heard. -/
theorem of_same (h : r.Retold ts) (hplaced : ∃ i, r'.stream.At ts i) (hopened : r'.frames ≠ [])
    (hagree : ∀ i ∈ r'.frames, i.Agrees) (hevents : r'.events = r.events)
    (hdraft : r'.draft.told = r.draft.told) : r'.Retold ts :=
  ⟨hplaced, hopened, hagree, by rw [hevents, hdraft, h.heard]⟩

/-- One more event is heard. -/
theorem heard_snoc (h : r.Retold ts) {e : Event} (hevents : r'.events = r.events ++ [e])
    (hhear : r.draft.told.hear e = .ok r'.draft.told) :
    TreeDraft.retell {} r'.events = .ok r'.draft.told := by
  rw [hevents, TreeDraft.retell_append h.heard, TreeDraft.retell_singleton, hhear]

theorem emit (h : r.Retold ts) {e : Event} (he : e.treeCall? = none) : (r.emit e).Retold ts :=
  ⟨h.placed, h.opened, h.agree, h.heard_snoc (r.events_emit e) (TreeDraft.hear_silent _ he)⟩

theorem opened_modifyFrame (hopened : r.frames ≠ []) (f : Invocation → Invocation) :
    (r.modifyFrame f).frames ≠ [] := by
  obtain ⟨i, outer, hframes⟩ := List.exists_cons_of_ne_nil hopened
  rw [r.frames_modifyFrame f hframes]
  exact List.cons_ne_nil _ _

theorem agree_modifyFrame (hagree : ∀ i ∈ r.frames, i.Agrees) {f : Invocation → Invocation}
    (hf : ∀ i : Invocation, i.Agrees → (f i).Agrees) :
    ∀ i ∈ (r.modifyFrame f).frames, i.Agrees := by
  unfold Run.modifyFrame
  split
  · exact hagree
  · rename_i i outer hframes
    rw [hframes] at hagree
    obtain ⟨hi, houter⟩ := List.forall_mem_cons.mp hagree
    exact List.forall_mem_cons.mpr ⟨hf i hi, houter⟩

/-- What is not told of the current invocation can change. -/
theorem modifyFrame (h : r.Retold ts) {f : Invocation → Invocation}
    (hf : ∀ i, (f i).node.told = i.node.told) (hagree : ∀ i : Invocation, i.Agrees → (f i).Agrees) :
    (r.modifyFrame f).Retold ts := by
  obtain ⟨hstream, _, _, hnotes, _⟩ := r.modifyFrame_rest f
  refine h.of_same (hstream ▸ h.placed) (opened_modifyFrame h.opened f)
    (agree_modifyFrame h.agree hagree) (events_of_notes hnotes) ?_
  obtain ⟨i, outer, hframes⟩ := List.exists_cons_of_ne_nil h.opened
  rw [draft, draft, Run.modifyFrame, hframes]
  simp only [TreeDraft.told, List.map_cons, hf]

theorem draft_addToken (hopened : r.frames ≠ []) (t : Token) (isError : Bool) :
    r.draft.modifyNode (fun n => n.add (if isError then .error t else .leaf t)) =
      .ok (r.modifyFrame fun i => i.addToken t isError).draft :=
  draft_modifyFrame hopened fun _ => rfl

theorem carryOut (h : r.Retold ts) {step : RepairStep} (hplain : step.isPlain = true) :
    (r.carryOut step).Retold ts := by
  cases step with
  | event e => exact h.emit (Option.isNone_iff_eq_none.mp hplain)
  | report lexical d =>
    exact h.of_same h.placed h.opened h.agree
      ((r.events_carryOut (.report lexical d)).trans (List.append_nil _)) rfl
  | consume t skipped =>
    have hadded : (r.carryOut (.consume t skipped)).stream = r.stream ∧
        (r.carryOut (.consume t skipped)).frames =
          (r.modifyFrame fun i => i.addToken t skipped).frames ∧
        (r.carryOut (.consume t skipped)).draft =
          (r.modifyFrame fun i => i.addToken t skipped).draft := by
      have hstream := (r.modifyFrame_rest fun i => i.addToken t skipped).1
      unfold Run.carryOut
      dsimp only
      split <;> exact ⟨hstream, rfl, rfl⟩
    refine ⟨hadded.1 ▸ h.placed, hadded.2.1 ▸ opened_modifyFrame h.opened _,
      hadded.2.1 ▸ agree_modifyFrame h.agree fun _ hi => hi.addToken t skipped, ?_⟩
    refine h.heard_snoc (r.events_carryOut (.consume t skipped)) ?_
    rw [hadded.2.2]
    exact TreeDraft.hear_consume (draft_addToken h.opened t skipped)

/-- A token that is put in is told of before it becomes a leaf. -/
theorem insert (h : r.Retold ts) (t : Token) :
    ((r.emit (.insert t)).modifyFrame fun i => i.addToken t true).Retold ts := by
  obtain ⟨hstream, _, _, hnotes, _⟩ :=
    (r.emit (.insert t)).modifyFrame_rest fun i => i.addToken t true
  have hopened : (r.emit (.insert t)).frames ≠ [] := h.opened
  have hagree : ∀ i ∈ (r.emit (.insert t)).frames, i.Agrees := h.agree
  refine ⟨hstream ▸ h.placed, opened_modifyFrame hopened _,
    agree_modifyFrame hagree fun _ hi => hi.addToken t true, ?_⟩
  refine h.heard_snoc ((events_of_notes hnotes).trans (r.events_emit _)) ?_
  exact TreeDraft.hear_insert (draft_addToken hopened t true)

theorem enterRule (h : TreeDraft.retell {} r.events = .ok r.draft.told)
    (hplaced : ∃ i, r.stream.At ts i) (hagree : ∀ i ∈ r.frames, i.Agrees) (n : Network)
    (rule : RuleIndex) (follow : StateId) (level : Int) :
    (r.enterRule n rule follow level).Retold ts := by
  obtain ⟨i, hat⟩ := hplaced
  obtain ⟨hstream, hopened, hevents, _⟩ := r.enterRule_rest n rule follow level
  have hentered : ∀ i ∈ (r.enterRule n rule follow level).frames, i.Agrees := by
    unfold Run.enterRule
    dsimp only
    split <;> exact List.forall_mem_cons.mpr ⟨rfl, hagree⟩
  refine ⟨⟨i, hstream ▸ hat.index.2⟩, hopened, hentered, ?_⟩
  rw [hevents, TreeDraft.retell_append h, TreeDraft.retell_singleton, draft_enterRule,
    TreeDraft.hear_enterRule]

/-- The mark that is told when a rule is left is that of its node. -/
theorem heard_exitRule (h : r.Retold ts) (n : Network) :
    TreeDraft.retell {} (r.exitRule n).events = .ok (r.exitRule n).draft.told := by
  have hfinish := draft_exitRule h.opened n
  obtain ⟨i, outer, hframes⟩ := List.exists_cons_of_ne_nil h.opened
  refine h.heard_snoc (r.events_exitRule n hframes) ?_
  have hdraft : r.draft = ⟨i.node :: outer.map Invocation.node, r.tree⟩ := by
    rw [draft, hframes, List.map_cons]
  rw [h.agree i (hframes ▸ List.mem_cons_self), hdraft]
  rw [hdraft] at hfinish
  exact TreeDraft.hear_exitRule hfinish _

theorem exitRule (h : r.Retold ts) (hcalled : 1 < r.frames.length) (n : Network) :
    (r.exitRule n).Retold ts := by
  have hframes : (r.exitRule n).frames ≠ [] ∧ ∀ i ∈ (r.exitRule n).frames, i.Agrees := by
    obtain ⟨i, outer, hframes⟩ := List.exists_cons_of_ne_nil h.opened
    have hagree := h.agree
    rw [hframes] at hcalled hagree
    cases outer with
    | nil => exact absurd hcalled (Nat.lt_irrefl 1)
    | cons caller others =>
      obtain ⟨_, hcaller, hothers⟩ := List.forall_mem_cons.mp hagree |>.imp_right
        List.forall_mem_cons.mp
      rw [Run.exitRule, hframes]
      exact ⟨List.cons_ne_nil _ _, List.forall_mem_cons.mpr ⟨hcaller, hothers⟩⟩
  exact ⟨(r.exitRule_rest n).1 ▸ h.placed, hframes.1, hframes.2, h.heard_exitRule n⟩

/-- All that a run does is told, but for a loop over operators. -/
theorem enduring (ts : List Token) : Enduring ts (Retold ts) where
  placed h := h.placed
  stream h _ hat := by
    obtain ⟨i, hi⟩ := h.placed
    exact h.of_same ⟨i, hat i hi⟩ h.opened h.agree rfl rfl
  of_same h hstream hframes _ hnotes htree :=
    h.of_same (hstream ▸ h.placed) (hframes ▸ h.opened) (hframes ▸ h.agree) (events_of_notes hnotes)
      (by rw [draft, draft, hframes, htree])
  emit h he := h.emit he
  hidden h hnode hfailed :=
    h.modifyFrame (fun i => congrArg NodeDraft.told (hnode i)) fun i hi =>
      hi.of_same (congrArg NodeDraft.failed (hnode i)) (hfailed i)
  setAlt h alt := h.modifyFrame (fun i => i.node.told_setAlt alt) fun _ hi => hi.setAlt alt
  fail h := h.modifyFrame (fun _ => rfl) fun i _ => i.agrees_fail
  enterRule h := enterRule h.heard h.placed h.agree
  repair {r} h := by
    have hbegin : Repair.Plain ts { strategy := r.strategy, stream := r.stream } :=
      ⟨h.placed, fun _ hstep => absurd hstep List.not_mem_nil⟩
    refine ⟨Repair.Plain ts, Repair.stable_plain ts, hbegin, fun x hx => ?_⟩
    have hmoved : ({ r with strategy := x.strategy, stream := x.stream } : Run).Retold ts :=
      ⟨hx.stream, h.opened, h.agree, h.heard⟩
    exact List.foldlRecOn x.steps Run.carryOut hmoved fun _ h step hstep =>
      h.carryOut (hx.steps step hstep)
  insert h := h.insert
  exitRule h := h.exitRule

end Run.Retold

/-- Without rules that call themselves first, and without loops over operators that
were written by hand, no state of the network starts another round of such a
loop. -/
theorem Definition.role_ne_operatorLoop {d : Definition} {g : Grammar} (hbuild : d.build = .ok g)
    (hplain : ∀ r ∈ d.merge.rules, r.body.isLeftRecursive r.name = false ∧
      ∀ body, .operatorLoop body ∉ r.body.subterms) {id : StateId} {s : State}
    (hs : g.network.state? id = some s) : s.role ≠ .starLoopEntry true := by
  obtain ⟨rules, hrules, _, hruns⟩ := Definition.runs_of_build hbuild
  obtain ⟨r', _, _, hr', _⟩ := hruns.laid.state_cases hs
  obtain ⟨r, hr, hoperators⟩ := exists_of_withOperators hrules (List.mem_of_getElem? hr')
  obtain ⟨hleft, hloops⟩ := hplain r hr
  obtain ⟨_, ⟨_, _, hbody⟩ | ⟨hrecursive, _⟩⟩ := Rule.withOperators_cases hoperators
  · exact hruns.loopless hr' (hbody ▸ hloops) id s hs rfl
  · exact absurd (hleft.symm.trans hrecursive) Bool.false_ne_true

/-- The events of a parse and its tree tell the same, whatever the input was.  To
hear the events one after the other leaves no node open and builds the tree of the
parse, up to the numbers of the alternatives; unless a rule is left-recursive or was
written with a loop over operators. -/
theorem Definition.parse_retells {d : Definition} {g : Grammar} {p : Parser}
    (hbuild : d.build = .ok g) (h : p.Serves g)
    (hplain : ∀ r ∈ d.merge.rules, r.body.isLeftRecursive r.name = false ∧
      ∀ body, .operatorLoop body ∉ r.body.subterms)
    (hooks : Hooks) (steps : Nat) (start : String) {result : ParseResult}
    (hresult : (p.parse hooks steps start).result? = some (.ok result)) :
    ∃ tree, TreeDraft.retell {} (p.parse hooks steps start).run.events =
        .ok ⟨[], some tree.withoutAlts⟩ ∧
      result.tree = if p.options.buildTree then some tree else none := by
  obtain ⟨_, _, _, hruns⟩ := Definition.runs_of_build hbuild
  obtain ⟨rfl, ts, i, hnumbered, hat⟩ := h.stands hruns
  obtain ⟨hhalt, rfl⟩ := ParseReport.result?_eq_ok.mp hresult
  obtain ⟨rule, span, hindex, hspan⟩ := Parser.exists_start hhalt
  rw [Parser.parse_eq hindex hspan] at hhalt ⊢
  let interp : Interpreter := ⟨p.grammar.network, p.grammar.vocabulary, hooks⟩
  have hbegin := Run.Retold.enterRule (r := { stream := p.stream }) rfl ⟨i, hat⟩
    (List.forall_mem_nil _) p.grammar.network rule span.stop 0
  have hwrap (id : StateId) (s : State) (hs : interp.network.state? id = some s)
      (hrole : s.role = .starLoopEntry true) (r : Run) (_ : r.Retold ts) :
      (r.modifyFrame Invocation.wrap).Retold ts :=
    absurd hrole (Definition.role_ne_operatorLoop hbuild hplain hs)
  obtain ⟨r, hr, hlast, hrun⟩ :=
    (Run.Retold.enduring ts).finished hnumbered.genuine hwrap hbegin hhalt
  obtain ⟨j, outer, hframes⟩ := List.exists_cons_of_ne_nil hr.opened
  obtain rfl : outer = [] := by
    rw [hframes, List.length_cons] at hlast
    exact List.length_eq_zero_iff.mp (by omega)
  have hdraft : (r.exitRule p.grammar.network).draft = ⟨[], some j.node.close⟩ := by
    rw [Run.exitRule, hframes]
    rfl
  have hheard := hr.heard_exitRule p.grammar.network
  rw [hdraft] at hheard
  refine ⟨j.node.close.asRoot, ?_, ?_⟩
  · have hevents : (r.exitRule p.grammar.network).flushLexErrors.events =
        (r.exitRule p.grammar.network).events := Run.events_noteLexErrors _ _
    change TreeDraft.retell {} (interp.loop steps _).2.events = _
    rw [hrun, hevents, hheard, ParseTree.withoutAlts_asRoot]
    rfl
  · have htree : (r.exitRule p.grammar.network).flushLexErrors.tree = some j.node.close :=
      congrArg TreeDraft.root hdraft
    change (if p.options.buildTree then (interp.loop steps _).2.tree.map ParseTree.asRoot
      else none) = _
    rw [hrun, htree]
    rfl

theorem isOk_build_pairs : pairs.build.isOk = true := by decide +kernel

/-- Four first tokens of pairs, where there are to be two pairs. -/
def crowded : List Token :=
  [.make 1 "x" 0 0 1 0, .make 1 "x" 1 1 1 1, .make 1 "x" 2 2 1 2, .make 1 "x" 3 3 1 3]

/-- The second token of the first pair is put in, and in the second pair, which is
given up, two tokens are skipped. -/
theorem parse_retells_crowded :
    let report :=
      Parser.parse (.ofTokens (pairs.grammar isOk_build_pairs) crowded) .permissive 40 "s"
    report.halt = .finished ∧
    ∃ tree, TreeDraft.retell {} report.run.events = .ok ⟨[], some tree.withoutAlts⟩ ∧
      report.result.tree = some tree ∧
      tree.render = "(s (pair x <missing 'y'>) (pair x x x) <EOF>)" ∧ tree.errorCount = 3 := by
  intro report
  have hplain : ∀ r ∈ pairs.merge.rules, r.body.isLeftRecursive r.name = false ∧
      ∀ body, .operatorLoop body ∉ r.body.subterms := by
    refine List.forall_mem_cons.mpr ⟨⟨rfl, ?_⟩, List.forall_mem_singleton.mpr ⟨rfl, ?_⟩⟩ <;>
      simp [Expr.subterms, Expr.subtermsOfAll]
  have hhalt : report.halt = .finished := by decide +kernel
  obtain ⟨tree, hretold, htree⟩ := Definition.parse_retells (pairs.build_eq isOk_build_pairs)
    (.made (.ofList crowded) {} []) hplain .permissive 40 "s"
    (ParseReport.result?_eq_ok.mpr ⟨hhalt, rfl⟩)
  have hshown : report.result.tree.map (fun t => (t.render, t.errorCount)) =
      some ("(s (pair x <missing 'y'>) (pair x x x) <EOF>)", 3) := by decide +kernel
  have hsome : report.result.tree = some tree := htree
  rw [hsome] at hshown
  obtain ⟨hrender, herrors⟩ := Prod.mk.inj (Option.some.inj hshown)
  exact ⟨hhalt, tree, hretold, hsome, hrender, herrors⟩

theorem isOk_build_handLoop : handLoop.build.isOk = true := by decide +kernel

/-- A loop over operators that was written by hand puts the node of its rule into a
new one, and no event tells of that. -/
theorem exists_not_retold_handLoop :
    let g := handLoop.grammar isOk_build_handLoop
    let report := Parser.parse (.ofTokens g [.make 1 "a" 0 0 1 0]) .permissive 30 "s"
    (∀ r ∈ handLoop.merge.rules, r.body.isLeftRecursive r.name = false) ∧
    ∃ result tree, report.result? = some (.ok result) ∧ result.tree = some tree ∧
      TreeDraft.retell {} report.run.events ≠ .ok ⟨[], some tree.withoutAlts⟩ := by
  intro g report
  obtain ⟨tree, htree, hroot⟩ : ∃ tree ∈ report.result.tree,
      (TreeDraft.retell {} report.run.events).toOption.bind TreeDraft.root ≠
        some tree.withoutAlts := by decide +kernel
  refine ⟨by decide +kernel, _, tree, ParseReport.result?_eq_ok.mpr ⟨by decide +kernel, rfl⟩, htree,
    fun hretold => hroot ?_⟩
  rw [hretold]
  rfl

end AdaptiveLL
