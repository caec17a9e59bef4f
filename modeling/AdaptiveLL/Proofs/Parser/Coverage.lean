/-
No token is lost or duplicated.

Every step of a run, on any network, keeps that the leaves are the tokens that were
read.
-/
import AdaptiveLL.Proofs.Parser.Steady

namespace AdaptiveLL

namespace Run

variable {ts : List Token} {r : Run}

/-- A rule that is entered has no leaves yet. -/
theorem Told.enterRule (h : r.Told ts r.leaves) (n : Network) (rule : RuleIndex)
    (follow : StateId) (precedence : Int) : (r.enterRule n rule follow precedence).Tells ts := by
  obtain ⟨i, hat, hleaves⟩ := h.stream
  unfold Run.enterRule
  dsimp only
  have hnil : ({ rule := n.ruleName rule } : NodeDraft).leaves = [] := rfl
  split
  all_goals
    refine ⟨List.cons_ne_nil _ _, ⟨i, hat.index.2, ?_⟩, ?_⟩
    · rw [leaves_cons r.frames rfl, hnil, List.append_nil]
      exact hleaves
    · rw [leaves_cons r.frames rfl, hnil, List.append_nil]
      exact h.tokens

/-- A rule that is left hands its leaves to its caller, or to the tree. -/
theorem Tells.exitRule (h : r.Tells ts) (n : Network) :
    if r.frames.length ≤ 1 then
      ∃ tree, (r.exitRule n).tree = some tree ∧ (r.exitRule n).Told ts tree.leaves
    else (r.exitRule n).Tells ts := by
  obtain ⟨i, outer, hframes⟩ := List.exists_cons_of_ne_nil h.opened
  have hleaves := leaves_cons outer hframes
  have htold := h.told
  rw [hleaves] at htold
  cases outer with
  | nil =>
    rw [if_pos (by simp [hframes])]
    refine ⟨i.node.close, by rw [Run.exitRule, hframes], ?_⟩
    rw [NodeDraft.leaves_close, Run.exitRule, hframes]
    exact ⟨htold.stream, htold.tokens⟩
  | cons caller others =>
    rw [if_neg (by simp [hframes])]
    have hmerged : others.reverse.flatMap (fun i => i.node.leaves) ++
        (caller.node.add i.node.close).leaves =
          (caller :: others).reverse.flatMap (fun i => i.node.leaves) ++ i.node.leaves := by
      simp
    rw [← hmerged] at htold
    rw [Run.exitRule, hframes]
    refine ⟨List.cons_ne_nil _ _, ?_⟩
    rw [leaves_cons others rfl]
    exact ⟨htold.stream, htold.tokens⟩

/-- The leaves are built by what the strategy does. -/
theorem steady_tells (ts : List Token) : Steady ts (Run.Tells ts) where
  stream h := h.told.stream.imp fun _ hat => hat.1
  of_same h hframes htokens _ hstream := h.of_same hframes htokens hstream
  emit h _ := h.of_same rfl rfl fun _ hat => hat
  modifyFrame h hf := h.modifyFrame [] (fun i => (hf i).trans (List.append_nil _).symm) rfl
  enterRule h := h.told.enterRule

end Run

namespace Interpreter

open Running

variable {interp : Interpreter} {ts : List Token}

/-- A repair by the strategy keeps what it consumes. -/
theorem keeps_tryRepair {α : Type} {work : Site → Repairing (Except Mismatch α)}
    (hwork : ∀ (site : Site) (repair : Repair) (x : Standing), repair.Is ts x x →
      (work site).Yields repair fun _ repair' => ∃ y, repair'.Is ts x y ∧ Consumes ts x y) :
    (interp.tryRepair work).Keeps (Run.Tells ts) := by
  refine keeps_bind (fun r h => ends_lift (h.consult interp work (hwork _))) fun result => ?_
  cases result with
  | ok a => exact keeps_pure a
  | error m => exact keeps_throw _

theorem keeps_align (hnumbered : Numbered ts) :
    (interp.tryRepair Repairing.align).Keeps (Run.Tells ts) := by
  refine keeps_tryRepair fun site repair x h => ?_
  have hends := h.stream.ends
  refine h.align ?_ ?_ ?_ ?_
  · exact fun repair' h' => ⟨x, h', .of_same rfl rfl⟩
  · refine fun repair' _ h' => ⟨_, h', (Consumes.report x).trans ?_⟩
    exact (Consumes.eat hends hnumbered _ true).trans (.of_same rfl rfl)
  · exact fun set y repair' _ hskips h' =>
      ⟨y, h', (Consumes.report x).trans (hskips.consumes hends hnumbered)⟩
  · exact fun m repair' _ h' => ⟨x, h', .of_same rfl rfl⟩

theorem keeps_repairInline (hnumbered : Numbered ts) :
    interp.repairInline.Keeps (Run.Tells ts) := by
  refine keeps_bind (keeps_tryRepair fun site repair x h => ?_) fun t => ?_
  · have hends := h.stream.ends
    refine h.repairInline ?_ ?_ ?_
    · refine fun t repair' _ _ h' => ⟨_, h', (Consumes.report x).trans ?_⟩
      exact (Consumes.eat hends hnumbered _ true).trans
        ((Consumes.of_same rfl rfl).trans (.eat hends hnumbered _ false))
    · exact fun t repair' _ _ h' => ⟨_, h', (Consumes.report x).trans (.of_same rfl rfl)⟩
    · exact fun m repair' h' => ⟨x, h', .of_same rfl rfl⟩
  · split
    · rename_i hplaceholder
      refine keeps_bind (keeps_modify fun r h => ?_) fun _ => keeps_pure t
      refine h.modifyFrame [t] (fun i => ?_) (by simp [Token.isInput, hplaceholder])
      rw [Invocation.addToken, NodeDraft.leaves_add]
      exact congrArg _ (t.leaves_leaf true)
    · exact keeps_pure t

theorem keeps_matchToken (hnumbered : Numbered ts) (s : State) (t : Transition) :
    (interp.matchToken s t).Keeps (Run.Tells ts) := by
  have hsteady := Run.steady_tells ts
  refine keeps_bind hsteady.peek fun current => ?_
  dsimp only
  split
  · refine keeps_bind (fun r h => ends_lift (h.consult interp _ fun repair x hx => ?_)) fun _ =>
      keeps_bind (keeps_pure _) fun matched => hsteady.bindLabel s matched
    refine Repairing.yields_bind (hx.matched fun repair' h' => h'.consume fun repair'' h'' => ?_)
    exact ⟨_, h'', (Consumes.of_same rfl rfl).trans (.eat hx.stream.ends hnumbered _ false)⟩
  · exact keeps_bind (keeps_repairInline hnumbered) fun matched => hsteady.bindLabel s matched

theorem keeps_visit (hnumbered : Numbered ts) (id : StateId) (s : State) :
    (interp.visit id s).Keeps (Run.Tells ts) :=
  (Run.steady_tells ts).visit (keeps_align hnumbered) fun t _ _ => keeps_matchToken hnumbered s t

/-- A rule that is given up keeps what was read. -/
theorem giveUp_tells (hnumbered : Numbered ts) {r : Run} (h : r.Tells ts) (m : Mismatch) :
    ((interp.giveUp m).run r).2.Tells ts := by
  have habandon := (Run.steady_tells ts).abandon h interp
  refine Run.Tells.consult habandon interp
    (fun site => do
      Repairing.reportMismatch site m
      Repairing.resynchronize site) fun repair x hx => ?_
  have hends := hx.stream.ends
  refine Repairing.yields_bind (hx.reportMismatch fun r₁ h₁ => ?_)
  refine h₁.resynchronize (Standing.report_recovering ts _) fun y r₂ hskips h₂ => ⟨y, h₂, ?_⟩
  refine (Consumes.report x).trans (Consumes.trans ?_ (hskips.consumes hends hnumbered))
  exact (Consumes.force hends hnumbered _ _).trans (.note _ _)

/-- A step keeps what was read, and the last one hands it out. -/
theorem step_tells (hnumbered : Numbered ts) {r r' : Run} (h : r.Tells ts) {ending : StepEnd}
    (hstep : interp.step.run r = (ending, r')) :
    (ending = .running → r'.Tells ts) ∧
      (ending = .finished → ∃ tree, r'.tree = some tree ∧ r'.Told ts tree.leaves) := by
  have hends := interp.step_ends r (P := fun ending r' =>
    (ending = .running → r'.Tells ts) ∧
      (ending = .finished → ∃ tree, r'.tree = some tree ∧ r'.Told ts tree.leaves))
    (fun _ _ => ⟨nofun, nofun⟩) (fun s _ _ => ?_) fun s _ _ => ⟨_, _,
      keeps_visit hnumbered r.state s r h, fun _ hvisit => ⟨fun _ => hvisit, nofun⟩,
      fun _ _ _ => ⟨nofun, nofun⟩,
      fun m _ hvisit => ⟨fun _ => giveUp_tells hnumbered hvisit m, nofun⟩⟩
  · rwa [hstep] at hends
  · have hexit := h.exitRule interp.network
    by_cases hlast : r.frames.length ≤ 1
    · rw [if_pos hlast] at hexit ⊢
      exact ⟨nofun, fun _ => hexit⟩
    · rw [if_neg hlast] at hexit ⊢
      exact ⟨fun _ => hexit, nofun⟩

/-- When a run has finished, the leaves of its tree are the tokens that it read. -/
theorem loop_told (hnumbered : Numbered ts) (steps : Nat) {r : Run} (h : r.Tells ts)
    (hhalt : (interp.loop steps r).1 = .finished) :
    ∃ tree, (interp.loop steps r).2.tree = some tree ∧
      (interp.loop steps r).2.Told ts tree.leaves := by
  induction steps generalizing r with
  | zero => cases hhalt
  | succ steps ih =>
    rw [loop] at hhalt ⊢
    generalize hstep : interp.step.run r = result at hhalt ⊢
    obtain ⟨ending, r'⟩ := result
    obtain ⟨hrunning, hfinished⟩ := step_tells hnumbered h hstep
    cases ending with
    | running => exact ih (hrunning rfl) hhalt
    | finished =>
      obtain ⟨tree, htree, ⟨i, hat, hleaves⟩, htokens⟩ := hfinished rfl
      exact ⟨tree, htree, ⟨i, hat.takeErrors, hleaves⟩, htokens⟩
    | defect => cases hhalt

end Interpreter

end AdaptiveLL
