/-
The leaves of a tree are the tokens that were read.

On any network, whatever is repaired on the way, the leaves that a run has built so
far are the visible tokens in front of the place of its stream, placeholders and the
end of the input apart.  Only what the strategy consumes moves the stream, and all
of that becomes leaves; a prediction puts the stream back to where it was.
-/
import AdaptiveLL.Proofs.Parser.Begin

namespace AdaptiveLL

/-- Whether a leaf is a token of the input: neither put in nor its end. -/
def Token.isInput (t : Token) : Bool :=
  !t.isPlaceholder && !t.isEof

section Places

variable {ts : List Token} {i : Nat} {t : Token}

/-- Behind a visible token that does not end the input there is one more token in
front. -/
theorem Ended.visible_take_nextPlace (h : Ended ts) (ht : ts[i]? = some t)
    (hvisible : t.isVisible = true) (hrun : t.isEof = false) :
    (ts.take (nextPlace ts i)).filter Token.isVisible =
      (ts.take i).filter Token.isVisible ++ [t] := by
  have hsplit (j : Nat) : (ts.take j).filter Token.isVisible ++ upcoming ts j =
      ts.filter Token.isVisible := by
    rw [upcoming, ← List.filter_append, List.take_append_drop]
  obtain ⟨hupcoming, _⟩ := h.upcoming_of_run ht hvisible hrun
  have hnext := (hsplit (nextPlace ts i)).trans (hsplit i).symm
  rw [hupcoming, ← List.singleton_append, ← List.append_assoc] at hnext
  exact List.append_cancel_right hnext

/-- At the end of the input all other visible tokens are in front. -/
theorem Ended.visible_take_of_isEof (h : Ended ts) (ht : ts[i]? = some t) (heof : t.isEof = true) :
    (ts.take i).filter Token.isVisible = ts.filter fun t => t.isVisible && !t.isEof := by
  have hlength := (h.isEof_iff ht).mp heof
  obtain ⟨init, last, rfl, hlast, hinit⟩ := h
  have hi : i = init.length := by simpa using hlength
  subst hi
  rw [List.take_left', List.filter_append, List.filter_cons_of_neg (by simp [hlast]),
    List.filter_nil, List.append_nil]
  · exact List.filter_congr fun t ht => by simp [hinit t ht]
  · rfl

end Places

/-- From one standing to another, the node got leaves for the tokens that the stream
moved over. -/
def Consumes (ts : List Token) (x y : Standing) : Prop :=
  (∃ t, ts[x.place]? = some t ∧ t.isVisible = true) →
    (∃ t, ts[y.place]? = some t ∧ t.isVisible = true) ∧
    ∃ parts, y.children = x.children ++ parts ∧
      (∀ t ∈ ParseTree.leavesOfAll parts, t.isPlaceholder = false) ∧
      (ts.take y.place).filter Token.isVisible = (ts.take x.place).filter Token.isVisible ++
        (ParseTree.leavesOfAll parts).filter fun t => !t.isEof

section Consuming

variable {ts : List Token} {set : TypeSet} {x y z : Standing}

theorem Consumes.of_same (hplace : y.place = x.place) (hchildren : y.children = x.children) :
    Consumes ts x y := fun hvisible =>
  ⟨hplace ▸ hvisible, [], by simp [hchildren], nofun, by simp [hplace, ParseTree.leavesOfAll]⟩

theorem Consumes.trans (h : Consumes ts x y) (h' : Consumes ts y z) : Consumes ts x z := by
  intro hvisible
  obtain ⟨hy, parts, hchildren, hread, hplace⟩ := h hvisible
  obtain ⟨hz, parts', hchildren', hread', hplace'⟩ := h' hy
  refine ⟨hz, parts ++ parts', by simp [hchildren', hchildren], ?_, ?_⟩
  · rw [ParseTree.leavesOfAll_append]
    exact fun t ht => (List.mem_append.mp ht).elim (hread t) (hread' t)
  · rw [hplace', hplace, ParseTree.leavesOfAll_append, List.filter_append, List.append_assoc]

theorem Token.leaves_leaf (t : Token) (skipped : Bool) : (t.leaf skipped).leaves = [t] := by
  unfold Token.leaf
  split <;> rfl

/-- A token that is consumed becomes a leaf, and the stream moves over it. -/
theorem Consumes.eat (hends : Ended ts) (hnumbered : Numbered ts) (x : Standing) (skipped : Bool) :
    Consumes ts x (x.eat ts skipped) := by
  intro hvisible
  obtain ⟨t, ht, hshown⟩ := hvisible
  have hleaf : ParseTree.leavesOfAll [t.leaf skipped] = [t] := by
    rw [ParseTree.leavesOfAll, ParseTree.leavesOfAll, Token.leaves_leaf, List.append_nil]
  refine ⟨hends.nextPlace_visible ⟨t, ht, hshown⟩, [t.leaf skipped], ?_, ?_, ?_⟩
  · rw [Standing.eat, ht]
    rfl
  · rw [hleaf, List.forall_mem_singleton]
    exact hnumbered.not_placeholder ht
  · rw [hleaf]
    change (ts.take (nextPlace ts x.place)).filter Token.isVisible = _
    cases hend : t.isEof with
    | true => simp [nextPlace_of_isEof ht hend, hend]
    | false => simpa [hend] using hends.visible_take_nextPlace ht hshown hend

theorem Consumes.report (x : Standing) : Consumes ts x (x.report ts) := by
  unfold Standing.report
  split
  · exact .of_same rfl rfl
  · exact .of_same rfl rfl

theorem Consumes.force (hends : Ended ts) (hnumbered : Numbered ts) (x : Standing)
    (state : StateId) : Consumes ts x (x.force ts state) := by
  unfold Standing.force
  split
  · exact .eat hends hnumbered x true
  · exact .of_same rfl rfl

theorem Consumes.note (x : Standing) (state : StateId) : Consumes ts x (x.note state) :=
  .of_same rfl rfl

theorem Skips.consumes (hends : Ended ts) (hnumbered : Numbered ts) (h : Skips ts set x y) :
    Consumes ts x y := by
  induction h with
  | stop => exact .of_same rfl rfl
  | more _ _ _ ih => exact (Consumes.eat hends hnumbered _ true).trans ih

end Consuming

namespace Run

def leaves (r : Run) : List Token :=
  r.frames.reverse.flatMap fun i => i.node.leaves

/-- The tokens of the input among the leaves are those in front of the place of the
stream, and they were counted. -/
structure Told (ts : List Token) (leaves : List Token) (r : Run) : Prop where
  stream : ∃ i, r.stream.At ts i ∧
    leaves.filter Token.isInput = (ts.take i).filter Token.isVisible
  tokens : r.metrics.tokens = (leaves.filter Token.isInput).length

/-- Some rule is being parsed, and the leaves built so far are the tokens that were
read. -/
structure Tells (ts : List Token) (r : Run) : Prop where
  opened : r.frames ≠ []
  told : r.Told ts r.leaves

end Run

namespace RepairStep

def consumed : RepairStep → List Token
  | .consume t _ => [t]
  | _ => []

theorem leavesOfAll_leaf? (steps : List RepairStep) :
    ParseTree.leavesOfAll (steps.filterMap leaf?) = steps.flatMap consumed := by
  induction steps with
  | nil => rfl
  | cons step rest ih =>
    cases step with
    | consume t skipped =>
      rw [List.filterMap_cons_some (by rfl), ParseTree.leavesOfAll, Token.leaves_leaf, ih]
      rfl
    | event | report =>
      rw [List.filterMap_cons_none (by rfl), ih]
      rfl

end RepairStep

namespace Run

variable {ts : List Token} {r : Run}

theorem leaves_cons {i : Invocation} (outer : List Invocation) (h : r.frames = i :: outer) :
    r.leaves = outer.reverse.flatMap (fun i => i.node.leaves) ++ i.node.leaves := by
  simp [leaves, h]

/-- A change of the current invocation shows in its own leaves only. -/
theorem leaves_modifyFrame {f : Invocation → Invocation} {more : List Token} (hne : r.frames ≠ [])
    (hf : ∀ i : Invocation, (f i).node.leaves = i.node.leaves ++ more) :
    (r.modifyFrame f).frames ≠ [] ∧ (r.modifyFrame f).leaves = r.leaves ++ more := by
  obtain ⟨i, outer, hframes⟩ := List.exists_cons_of_ne_nil hne
  have hframes' : (r.modifyFrame f).frames = f i :: outer := by
    rw [modifyFrame, hframes]
  rw [leaves_cons outer hframes', leaves_cons outer hframes, hf, List.append_assoc]
  exact ⟨by simp [hframes'], rfl⟩

theorem Tells.of_same {r' : Run} (h : r.Tells ts) (hframes : r'.frames = r.frames)
    (htokens : r'.metrics.tokens = r.metrics.tokens)
    (hstream : ∀ i, r.stream.At ts i → r'.stream.At ts i) : r'.Tells ts := by
  obtain ⟨i, hat, hleaves⟩ := h.told.stream
  have heq : r'.leaves = r.leaves := by rw [leaves, leaves, hframes]
  exact ⟨hframes ▸ h.opened, ⟨i, hstream i hat, heq ▸ hleaves⟩, by rw [htokens, heq, h.told.tokens]⟩

/-- A change of the current invocation that adds no token of the input. -/
theorem Tells.modifyFrame (h : r.Tells ts) {f : Invocation → Invocation} (more : List Token)
    (hf : ∀ i : Invocation, (f i).node.leaves = i.node.leaves ++ more)
    (hmore : more.filter Token.isInput = []) : (r.modifyFrame f).Tells ts := by
  obtain ⟨hopened, hleaves⟩ := leaves_modifyFrame h.opened hf
  obtain ⟨hstream, _, hmetrics, _⟩ := r.modifyFrame_rest f
  refine ⟨hopened, ?_, ?_⟩
  · rw [hstream, hleaves, List.filter_append, hmore, List.append_nil]
    exact h.told.stream
  · rw [hmetrics, hleaves, List.filter_append, hmore, List.append_nil]
    exact h.told.tokens

/-- A step of a repair adds the tokens that it consumes, and counts them. -/
theorem carryOut_spec (hne : r.frames ≠ []) (step : RepairStep) :
    (r.carryOut step).frames ≠ [] ∧ (r.carryOut step).leaves = r.leaves ++ step.consumed ∧
      (r.carryOut step).stream = r.stream ∧ (r.carryOut step).metrics.tokens =
        r.metrics.tokens + (step.consumed.filter fun t => !t.isEof).length := by
  cases step with
  | event | report => exact ⟨hne, (List.append_nil _).symm, rfl, rfl⟩
  | consume t skipped =>
    have hadd (i : Invocation) : (i.addToken t skipped).node.leaves = i.node.leaves ++ [t] := by
      rw [Invocation.addToken, NodeDraft.leaves_add]
      exact congrArg _ (t.leaves_leaf skipped)
    obtain ⟨hopened, hleaves⟩ := leaves_modifyFrame hne hadd
    obtain ⟨hstream, _, hmetrics, _⟩ := r.modifyFrame_rest fun i => i.addToken t skipped
    unfold Run.carryOut
    dsimp only
    cases hend : t.isEof with
    | true =>
      exact ⟨hopened, hleaves, hstream, by simp [Run.emit, RepairStep.consumed, hend, hmetrics]⟩
    | false =>
      exact ⟨hopened, hleaves, hstream, by simp [Run.emit, RepairStep.consumed, hend, hmetrics]⟩

theorem carryOut_foldl_spec (hne : r.frames ≠ []) (steps : List RepairStep) :
    (steps.foldl Run.carryOut r).frames ≠ [] ∧
      (steps.foldl Run.carryOut r).leaves = r.leaves ++ steps.flatMap RepairStep.consumed ∧
      (steps.foldl Run.carryOut r).stream = r.stream ∧
      (steps.foldl Run.carryOut r).metrics.tokens = r.metrics.tokens +
        ((steps.flatMap RepairStep.consumed).filter fun t => !t.isEof).length := by
  induction steps generalizing r with
  | nil => exact ⟨hne, (List.append_nil _).symm, rfl, rfl⟩
  | cons step rest ih =>
    obtain ⟨hopened, hleaves, hstream, htokens⟩ := carryOut_spec hne step
    obtain ⟨hopened', hleaves', hstream', htokens'⟩ := ih hopened
    rw [List.foldl_cons, List.flatMap_cons]
    refine ⟨hopened', by rw [hleaves', hleaves, List.append_assoc], hstream'.trans hstream, ?_⟩
    rw [htokens', htokens, List.filter_append, List.length_append, Nat.add_assoc]

/-- What the strategy consumes becomes leaves. -/
theorem Tells.consult {α : Type} (h : r.Tells ts) (interp : Interpreter)
    (work : Site → Repairing α)
    (hwork : ∀ (repair : Repair) (x : Standing), repair.Is ts x x →
      (work ⟨interp.network, interp.vocabulary, r.state, r.stack⟩).Yields repair fun _ repair' =>
        ∃ y, repair'.Is ts x y ∧ Consumes ts x y) :
    ((interp.consult work).run r).2.Tells ts := by
  obtain ⟨i, hat, hleaves⟩ := h.told.stream
  obtain ⟨y, hy, hconsumes⟩ := hwork { strategy := r.strategy, stream := r.stream }
    ⟨i, r.strategy, 0, [], []⟩ ⟨hat, rfl, rfl, rfl, rfl⟩
  obtain ⟨_, parts, hchildren, hread, hplace⟩ := hconsumes hat.visible
  generalize hsite : (⟨interp.network, interp.vocabulary, r.state, r.stack⟩ : Site) = site at hy
  generalize hrepair : ((work site).run { strategy := r.strategy, stream := r.stream }).2 = repair
    at hy
  have hrun : ((interp.consult work).run r).2 = repair.steps.foldl Run.carryOut
      { r with strategy := repair.strategy, stream := repair.stream } := by
    rw [← hrepair, ← hsite]
    rfl
  have hconsumed : repair.steps.flatMap RepairStep.consumed = ParseTree.leavesOfAll parts := by
    rw [← RepairStep.leavesOfAll_leaf?]
    exact congrArg _ (hy.children.trans hchildren)
  have hinput : (ParseTree.leavesOfAll parts).filter Token.isInput =
      (ParseTree.leavesOfAll parts).filter fun t => !t.isEof :=
    List.filter_congr fun t ht => by simp [Token.isInput, hread t ht]
  obtain ⟨hopened, hleaves', hstream', htokens'⟩ := carryOut_foldl_spec
    (r := { r with strategy := repair.strategy, stream := repair.stream }) h.opened repair.steps
  rw [← hrun, hconsumed] at hleaves' htokens'
  rw [← hrun] at hopened hstream'
  have hall : ((interp.consult work).run r).2.leaves.filter Token.isInput =
      r.leaves.filter Token.isInput ++ (ParseTree.leavesOfAll parts).filter fun t => !t.isEof := by
    rw [hleaves', List.filter_append, hinput]
    rfl
  refine ⟨hopened, ⟨y.place, hstream' ▸ hy.stream, ?_⟩, ?_⟩
  · rw [hall, hleaves, hplace]
  · rw [htokens', hall, List.length_append, ← h.told.tokens]

end Run

end AdaptiveLL
