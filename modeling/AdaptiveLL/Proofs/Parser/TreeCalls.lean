/-
The calls of a tree builder that a run stands for.

A run keeps the node that is being built for an invocation with that invocation.  A
builder that is told of the rules that are entered and left, and of the tokens, in
the order of the run, comes to the same nodes.  Its calls fail where no node is
open, so it has to be shown that a run makes none of them there.
-/
import AdaptiveLL.Proofs.Parser.View
import AdaptiveLL.Proofs.Recovery.Stable

namespace AdaptiveLL

inductive TreeCall where
  | start (rule : String)
  | finish
  | token (t : Token)
  | skipped (t : Token)
  | inserted (t : Token)
  | wrap
  | setAlt (alt : Nat)
  | fail
deriving DecidableEq

/-- Whether an event tells of the call: there are events for nodes and leaves, but
none for what is changed in an open node. -/
def TreeCall.isTold : TreeCall → Bool
  | .wrap | .setAlt _ | .fail => false
  | _ => true

/-- The call that an event tells of. -/
def Event.treeCall? : Event → Option TreeCall
  | .enterRule rule _ => some (.start rule)
  | .exitRule _ _ => some .finish
  | .consume t skipped => some (if skipped then .skipped t else .token t)
  | .insert t => some (.inserted t)
  | _ => none

namespace TreeDraft

def call (b : TreeDraft) : TreeCall → Except TreeDefect TreeDraft
  | .start rule => .ok (b.start rule)
  | .finish => b.finishNode
  | .token t => b.addToken t
  | .skipped t | .inserted t => b.addError t
  | .wrap => b.wrap
  | .setAlt alt => .ok (b.setAlt alt)
  | .fail => .ok b.fail

/-- What calls do one after the other, up to the first one that fails. -/
def replay (b : TreeDraft) (calls : List TreeCall) : Except TreeDefect TreeDraft :=
  calls.foldlM call b

theorem replay_append {b b' : TreeDraft} {calls more : List TreeCall}
    (h : b.replay calls = .ok b') : b.replay (calls ++ more) = b'.replay more := by
  rw [replay, List.foldlM_append, ← replay, h]
  rfl

@[simp] theorem replay_singleton (b : TreeDraft) (c : TreeCall) : b.replay [c] = b.call c := by
  rw [replay, List.foldlM_cons]
  cases b.call c <;> rfl

end TreeDraft

namespace Run

variable {r r' : Run}

/-- The open nodes of the pending invocations, and the tree of the outermost one. -/
def draft (r : Run) : TreeDraft :=
  ⟨r.frames.map Invocation.node, r.tree⟩

/-- The calls of the tree builder that the record of a run tells of. -/
def treeCalls (r : Run) : List TreeCall :=
  r.events.filterMap Event.treeCall?

/-- The tree builder comes to the nodes of a run by calls that go through.  They are
the ones that the record tells of, up to those that are told `ahead` and not made
yet. -/
def Builds (ahead : List TreeCall) (r : Run) : Prop :=
  ∃ calls, TreeDraft.replay {} calls = .ok r.draft ∧
    calls.filter TreeCall.isTold ++ ahead = r.treeCalls

/-- The calls go on with those that are made and told next. -/
theorem Builds.append {ahead ahead' : List TreeCall} (made told : List TreeCall)
    (h : r.Builds ahead) (hmade : r.draft.replay made = .ok r'.draft)
    (htold : r'.treeCalls = r.treeCalls ++ told)
    (heq : ahead ++ told = made.filter TreeCall.isTold ++ ahead') : r'.Builds ahead' := by
  obtain ⟨calls, hreplay, hcalls⟩ := h
  refine ⟨calls ++ made, ?_, ?_⟩
  · rw [TreeDraft.replay_append hreplay, hmade]
  · rw [htold, ← hcalls, List.filter_append, List.append_assoc, List.append_assoc, heq]

/-- Nothing is built and nothing is told. -/
theorem Builds.of_same {ahead : List TreeCall} (h : r.Builds ahead) (hdraft : r'.draft = r.draft)
    (htold : r'.treeCalls = r.treeCalls) : r'.Builds ahead := by
  rw [Builds, hdraft, htold]
  exact h

/-- A call that no event tells of. -/
theorem Builds.untold {ahead : List TreeCall} {c : TreeCall} (h : r.Builds ahead)
    (hc : c.isTold = false) (hcall : r.draft.call c = .ok r'.draft)
    (htold : r'.treeCalls = r.treeCalls) : r'.Builds ahead := by
  refine h.append [c] [] ?_ ?_ ?_
  · rw [TreeDraft.replay_singleton, hcall]
  · rw [htold, List.append_nil]
  · rw [List.filter_cons_of_neg (by simp [hc]), List.append_nil, List.filter_nil, List.nil_append]

/-- A call that is made when it is told. -/
theorem Builds.told {c : TreeCall} (h : r.Builds []) (hc : c.isTold = true)
    (hcall : r.draft.call c = .ok r'.draft) (htold : r'.treeCalls = r.treeCalls ++ [c]) :
    r'.Builds [] := by
  refine h.append [c] [c] ?_ htold ?_
  · rw [TreeDraft.replay_singleton, hcall]
  · rw [List.filter_cons_of_pos hc]
    rfl

/-- A call that was told ahead is made. -/
theorem Builds.made {c : TreeCall} (h : r.Builds [c]) (hc : c.isTold = true)
    (hcall : r.draft.call c = .ok r'.draft) (htold : r'.treeCalls = r.treeCalls) :
    r'.Builds [] := by
  refine h.append [c] [] ?_ ?_ ?_
  · rw [TreeDraft.replay_singleton, hcall]
  · rw [htold, List.append_nil]
  · rw [List.filter_cons_of_pos hc]
    rfl

theorem Builds.replayed (h : r.Builds []) : ∃ calls, TreeDraft.replay {} calls = .ok r.draft ∧
    calls.filter TreeCall.isTold = r.treeCalls := by
  obtain ⟨calls, hreplay, hcalls⟩ := h
  exact ⟨calls, hreplay, (List.append_nil _).symm.trans hcalls⟩

theorem treeCalls_emit (r : Run) (e : Event) :
    (r.emit e).treeCalls = r.treeCalls ++ e.treeCall?.toList := by
  rw [treeCalls, events_emit, List.filterMap_append, filterMap_singleton]
  rfl

theorem treeCalls_noteLexErrors (r : Run) (errors : List LexError) :
    (r.noteLexErrors errors).treeCalls = r.treeCalls :=
  congrArg (List.filterMap Event.treeCall?) (r.events_noteLexErrors errors)

theorem treeCalls_flushLexErrors (r : Run) : r.flushLexErrors.treeCalls = r.treeCalls :=
  treeCalls_noteLexErrors _ _

theorem treeCalls_modifyFrame (r : Run) (f : Invocation → Invocation) :
    (r.modifyFrame f).treeCalls = r.treeCalls :=
  congrArg (List.filterMap Event.treeCall?) (events_of_notes (r.modifyFrame_rest f).2.2.2.1)

theorem treeCalls_carryOut (r : Run) (step : RepairStep) :
    (r.carryOut step).treeCalls = r.treeCalls ++ step.events.filterMap Event.treeCall? := by
  rw [treeCalls, events_carryOut, List.filterMap_append]
  rfl

/-- To change the current invocation is to change the innermost node. -/
theorem draft_modifyFrame (hopened : r.frames ≠ []) {f : Invocation → Invocation}
    {g : NodeDraft → NodeDraft} (hf : ∀ i, (f i).node = g i.node) :
    r.draft.modifyNode g = .ok (r.modifyFrame f).draft := by
  obtain ⟨i, outer, hframes⟩ := List.exists_cons_of_ne_nil hopened
  rw [draft, draft, modifyFrame, hframes]
  simp only [TreeDraft.modifyNode, List.map_cons, hf]

theorem draft_setAlt (r : Run) (alt : Nat) : r.draft.setAlt alt =
    (r.modifyFrame fun i => { i with node := i.node.setAlt alt }).draft := by
  cases hframes : r.frames <;> simp [draft, modifyFrame, TreeDraft.setAlt, hframes]

theorem draft_fail (r : Run) :
    r.draft.fail = (r.modifyFrame Invocation.fail).draft := by
  cases hframes : r.frames <;> simp [draft, modifyFrame, TreeDraft.fail, Invocation.fail, hframes]

theorem draft_enterRule (r : Run) (n : Network) (rule : RuleIndex) (follow : StateId)
    (level : Int) : (r.enterRule n rule follow level).draft = r.draft.start (n.ruleName rule) := by
  unfold enterRule
  dsimp only
  split <;> rfl

/-- The node of a rule that is left goes to its caller, or it is the tree. -/
theorem draft_exitRule (hopened : r.frames ≠ []) (n : Network) :
    r.draft.finishNode = .ok (r.exitRule n).draft := by
  obtain ⟨i, outer, hframes⟩ := List.exists_cons_of_ne_nil hopened
  rw [draft, draft, exitRule, hframes]
  cases outer <;> rfl

theorem treeCalls_enterRule (r : Run) (n : Network) (rule : RuleIndex) (follow : StateId)
    (level : Int) :
    (r.enterRule n rule follow level).treeCalls = r.treeCalls ++ [.start (n.ruleName rule)] := by
  rw [treeCalls, (r.enterRule_rest n rule follow level).2.2.1, List.filterMap_append]
  rfl

theorem treeCalls_exitRule (hopened : r.frames ≠ []) (n : Network) :
    (r.exitRule n).treeCalls = r.treeCalls ++ [.finish] := by
  obtain ⟨i, outer, hframes⟩ := List.exists_cons_of_ne_nil hopened
  rw [treeCalls, r.events_exitRule n hframes, List.filterMap_append]
  rfl

namespace Builds

variable {ahead : List TreeCall}

theorem emit (h : r.Builds ahead) {e : Event} (he : e.treeCall? = none) :
    (r.emit e).Builds ahead :=
  h.of_same rfl (by rw [treeCalls_emit, he, Option.toList_none, List.append_nil])

/-- What goes on in the current invocation besides its node does not show. -/
theorem modifyHidden (h : r.Builds ahead) {f : Invocation → Invocation}
    (hf : ∀ i, (f i).node = i.node) : (r.modifyFrame f).Builds ahead := by
  refine h.of_same ?_ (r.treeCalls_modifyFrame f)
  cases hframes : r.frames <;> simp [draft, modifyFrame, hframes, hf]

theorem setAlt (h : r.Builds ahead) (alt : Nat) :
    (r.modifyFrame fun i => { i with node := i.node.setAlt alt }).Builds ahead :=
  h.untold (c := .setAlt alt) rfl (congrArg _ (r.draft_setAlt alt)) (r.treeCalls_modifyFrame _)

theorem fail (h : r.Builds ahead) :
    (r.modifyFrame Invocation.fail).Builds ahead :=
  h.untold (c := .fail) rfl (congrArg _ r.draft_fail) (r.treeCalls_modifyFrame _)

theorem wrap (h : r.Builds ahead) (hopened : r.frames ≠ []) :
    (r.modifyFrame Invocation.wrap).Builds ahead :=
  h.untold (c := .wrap) rfl (draft_modifyFrame hopened fun _ => rfl) (r.treeCalls_modifyFrame _)

theorem enterRule (h : r.Builds []) (n : Network) (rule : RuleIndex) (follow : StateId)
    (level : Int) : (r.enterRule n rule follow level).Builds [] :=
  h.told (c := .start (n.ruleName rule)) rfl
    (congrArg _ (r.draft_enterRule n rule follow level).symm)
    (r.treeCalls_enterRule n rule follow level)

theorem exitRule (h : r.Builds []) (hopened : r.frames ≠ []) (n : Network) :
    (r.exitRule n).Builds [] :=
  h.told (c := .finish) rfl (draft_exitRule hopened n) (treeCalls_exitRule hopened n)

/-- That a token is put in is told before it becomes a leaf. -/
theorem announce (h : r.Builds []) (t : Token) : (r.emit (.insert t)).Builds [.inserted t] :=
  h.append [] [.inserted t] rfl (r.treeCalls_emit (.insert t)) rfl

/-- The placeholder of a token that was told to be put in becomes a leaf. -/
theorem insert {t : Token} (h : r.Builds [.inserted t]) (hopened : r.frames ≠ []) :
    (r.modifyFrame fun i => i.addToken t true).Builds [] :=
  h.made rfl (draft_modifyFrame hopened fun _ => rfl) (r.treeCalls_modifyFrame _)

/-- A token that is consumed becomes a leaf. -/
theorem consume (h : r.Builds []) (hopened : r.frames ≠ []) (t : Token) (skipped : Bool) :
    (r.carryOut (.consume t skipped)).Builds [] := by
  have hdraft : (r.carryOut (.consume t skipped)).draft =
      (r.modifyFrame fun i => i.addToken t skipped).draft := by
    unfold Run.carryOut
    dsimp only
    split <;> rfl
  have htold : (r.carryOut (.consume t skipped)).treeCalls =
      r.treeCalls ++ [if skipped then .skipped t else .token t] :=
    r.treeCalls_carryOut (.consume t skipped)
  cases skipped with
  | true => exact h.told rfl (hdraft ▸ draft_modifyFrame hopened fun _ => rfl) htold
  | false => exact h.told rfl (hdraft ▸ draft_modifyFrame hopened fun _ => rfl) htold

theorem report (h : r.Builds ahead) (lexical : List LexError) (d : Diagnostic) :
    (r.carryOut (.report lexical d)).Builds ahead :=
  h.of_same rfl ((r.treeCalls_carryOut (.report lexical d)).trans (List.append_nil _))

end Builds

end Run

/-- Whether a step of a repair adds to the tree what it tells of. -/
def RepairStep.isPlain : RepairStep → Bool
  | .event e => e.treeCall?.isNone
  | _ => true

/-- A repair whose stream is on its tokens and whose steps are plain. -/
structure Repair.Plain (ts : List Token) (r : Repair) : Prop where
  stream : ∃ i, r.stream.At ts i
  steps : ∀ step ∈ r.steps, step.isPlain = true

/-- Carrying out a plain step takes the tree builder along. -/
theorem Run.Builds.carryOut {r : Run} (h : r.Builds []) (hopened : r.frames ≠ [])
    {step : RepairStep} (hplain : step.isPlain = true) : (r.carryOut step).Builds [] := by
  cases step with
  | event e => exact h.emit (Option.isNone_iff_eq_none.mp hplain)
  | consume t skipped => exact h.consume hopened t skipped
  | report lexical d => exact h.report lexical d

/-- All that the strategy does is plain, except that a placeholder is put in. -/
theorem Repair.stable_plain (ts : List Token) : Stable ts (Plain ts) where
  placed h := h.stream
  stream h _ hat := ⟨hat, h.steps⟩
  remember h _ := ⟨h.stream, h.steps⟩
  tell h he := by
    refine ⟨h.stream, List.forall_mem_append.mpr ⟨h.steps, List.forall_mem_singleton.mpr ?_⟩⟩
    rename_i e
    cases e with
    | beginRecovery | endRecovery | resync => rfl
    | _ => cases he
  eat h t skipped :=
    ⟨h.stream, List.forall_mem_append.mpr ⟨h.steps, List.forall_mem_singleton.mpr rfl⟩⟩
  report h _ _ _ := by
    obtain ⟨i, hat⟩ := h.stream
    exact ⟨⟨i, hat.takeErrors⟩,
      List.forall_mem_append.mpr ⟨h.steps, List.forall_mem_singleton.mpr rfl⟩⟩

/-- A rule is given up by plain steps, whatever the mismatch was. -/
theorem Repair.giveUp_plain (ts : List Token) (site : Site) (m : Mismatch) :
    Repairing.Keeps (Plain ts) (do
      Repairing.reportMismatch site m
      Repairing.resynchronize site) := by
  refine Repairing.keeps_bind ((stable_plain ts).reportMismatch m fun kind message _ r h => ?_)
    fun _ => (stable_plain ts).resynchronize
  obtain ⟨i, hat⟩ := h.stream
  exact ⟨⟨i, hat.takeErrors⟩,
    List.forall_mem_append.mpr ⟨h.steps, List.forall_mem_singleton.mpr rfl⟩⟩

end AdaptiveLL
