/-
The defects of a parse on a checked network.

The check of a graph looks at one state after the other.  That is enough for whole
runs: the state of a run, the states its calls come back to and the states its rules
go on at are all states of the network, a decision takes one of the transitions
there are, and some rule is open until the run has finished.  What remains is a rule
that is called again before a token was read.
-/
import AdaptiveLL.Proofs.Parser.Lasting
import AdaptiveLL.Proofs.Parser.Recoveries
import AdaptiveLL.Proofs.Prediction.Termination

namespace AdaptiveLL

namespace Graph

/-- A graph that was put together by the operations on graphs. -/
inductive Built : Graph → Prop where
  | empty : Built {}
  | addState {g} (h : Built g) (role : StateRole) (rule : RuleIndex) :
    Built (g.addState role rule).2
  | addRule {g} (h : Built g) (name : String) (leftRecursive : Bool) :
      Built (g.addRule name leftRecursive)
  | addTransition {g} (h : Built g) (source : StateId) (t : Transition) :
      Built (g.addTransition source t)
  | setLabel {g} (h : Built g) (id : StateId) (label : String) : Built (g.setLabel id label)
  | setRole {g} (h : Built g) (id : StateId) (role : StateRole) : Built (g.setRole id role)
  | addPredicate {g} (h : Built g) (text : String) : Built (g.addPredicate text).2
  | addAction {g} (h : Built g) (text : String) : Built (g.addAction text).2

/-- Every rule runs between states of the graph. -/
def Anchored (g : Graph) : Prop :=
  ∀ rule span, g.rule? rule = some span →
    span.start < g.states.size ∧ span.stop < g.states.size

variable {g g' : Graph}

theorem Anchored.of_rules (h : g.Anchored) (hrules : g'.rules = g.rules)
    (hsize : g.states.size ≤ g'.states.size) : g'.Anchored := by
  intro rule span hspan
  rw [rule?, hrules] at hspan
  obtain ⟨hstart, hstop⟩ := h rule span hspan
  exact ⟨Nat.lt_of_lt_of_le hstart hsize, Nat.lt_of_lt_of_le hstop hsize⟩

/-- A rule comes into a graph together with its states. -/
theorem Anchored.addRule (h : g.Anchored) (name : String) (leftRecursive : Bool) :
    (g.addRule name leftRecursive).Anchored := by
  intro rule span hspan
  have hsize : (g.addRule name leftRecursive).states.size = g.states.size + 2 := by
    simp [Graph.addRule, Graph.addState]
  have hrules : (g.addRule name leftRecursive).rules =
      g.rules.push ⟨name, g.states.size, g.states.size + 1, leftRecursive⟩ := by
    simp [Graph.addRule, Graph.addState]
  rw [rule?, hrules, Array.getElem?_push] at hspan
  rw [hsize]
  split at hspan
  · obtain rfl := Option.some.inj hspan
    constructor
    · exact Nat.lt_add_of_pos_right (by decide)
    · exact Nat.lt_succ_self _
  · obtain ⟨hstart, hstop⟩ := h rule span hspan
    exact ⟨Nat.lt_add_right 2 hstart, Nat.lt_add_right 2 hstop⟩

theorem Built.anchored (h : g.Built) : g.Anchored := by
  induction h with
  | empty => exact fun rule span hspan => by simp [rule?] at hspan
  | addState _ role rule ih => exact ih.of_rules rfl (by simp [Graph.addState])
  | addRule _ name leftRecursive ih => exact ih.addRule name leftRecursive
  | addTransition _ _ _ ih | setLabel _ _ _ ih | setRole _ _ _ ih =>
    refine ih.of_rules rfl (Nat.le_of_eq ?_)
    exact (Array.size_modify ..).symm
  | addPredicate _ _ ih | addAction _ _ ih => exact ih.of_rules rfl (Nat.le_refl _)

end Graph

/-- The defect that a rule was called again before a token was read. -/
def NetworkDefect.IsCycle (d : NetworkDefect) : Prop :=
  ∃ rule index, d = .recursionCycle rule index

/-- A mismatch, or the one defect that a checked network leaves. -/
def Obstacle.Tame : Obstacle → Prop
  | .mismatch _ => True
  | .defect d => d.IsCycle

namespace Running

variable {α β : Type} {P : Run → Prop}

/-- What holds of a run before the work holds of it behind the work, and the work is
stopped by nothing but a mismatch or a rule that is called again. -/
def Safe (P : Run → Prop) (w : Running α) : Prop :=
  ∀ r, P r → w.Ends r (fun _ => P) fun o r' => P r' ∧ o.Tame

theorem safe_pure (a : α) : Safe P (pure a) := fun _ h => ends_pure h

theorem safe_mismatch (m : Mismatch) : Safe P (throw (.mismatch m) : Running α) :=
  fun _ h => ends_throw ⟨h, trivial⟩

theorem safe_bind {w : Running α} {f : α → Running β} (hw : w.Safe P) (hf : ∀ a, (f a).Safe P) :
    Safe P (w >>= f) :=
  fun r h => ends_bind ((hw r h).mono fun a r' h' => hf a r' h')

theorem safe_modify {g : Run → Run} (hg : ∀ r, P r → P (g r)) : Safe P (modify g) :=
  fun r h => ends_modify (hg r h)

end Running

/-- A run in which some rule is open, whose states are states of the network, and
whose nodes a tree builder comes to. -/
structure Run.Intact (n : Network) (ts : List Token) (ahead : List TreeCall) (r : Run) : Prop where
  stream : ∃ i, r.stream.At ts i
  state : r.state < n.states.size
  returns : ∀ id ∈ r.stack.returnStates, id < n.states.size
  opened : r.frames ≠ []
  follows : ∀ id ∈ r.frames.map Invocation.follow, id < n.states.size
  builds : r.Builds ahead

namespace Run.Intact

variable {n : Network} {ts : List Token} {ahead ahead' : List TreeCall} {r r' : Run}

theorem of_same (h : r.Intact n ts ahead) (hstream : r'.stream = r.stream)
    (hstate : r'.state = r.state) (hstack : r'.stack = r.stack)
    (hframes : r'.frames.map Invocation.follow = r.frames.map Invocation.follow)
    (hbuilds : r'.Builds ahead') : r'.Intact n ts ahead' where
  stream := hstream ▸ h.stream
  state := hstate ▸ h.state
  returns := hstack ▸ h.returns
  opened hnil := h.opened (List.map_eq_nil_iff.mp (hframes.symm.trans (by rw [hnil, List.map_nil])))
  follows := hframes ▸ h.follows
  builds := hbuilds

theorem goto (h : r.Intact n ts ahead) {target : StateId} (htarget : target < n.states.size) :
    ({ r with state := target } : Run).Intact n ts ahead :=
  ⟨h.stream, htarget, h.returns, h.opened, h.follows, h.builds⟩

theorem emit (h : r.Intact n ts ahead) {e : Event} (he : e.treeCall? = none) :
    (r.emit e).Intact n ts ahead :=
  h.of_same rfl rfl rfl rfl (h.builds.emit he)

/-- A change of the current invocation does not change where it goes on. -/
theorem follows_modifyFrame (r : Run) {f : Invocation → Invocation}
    (hf : ∀ i, (f i).follow = i.follow) :
    (r.modifyFrame f).frames.map Invocation.follow = r.frames.map Invocation.follow := by
  unfold Run.modifyFrame
  split
  · rfl
  · rename_i i outer hframes
    rw [hframes, List.map_cons, List.map_cons, hf]

theorem modifyFrame (h : r.Intact n ts ahead) {f : Invocation → Invocation}
    (hf : ∀ i, (f i).follow = i.follow) (hbuilds : (r.modifyFrame f).Builds ahead') :
    (r.modifyFrame f).Intact n ts ahead' := by
  obtain ⟨hstream, _, _, _, hstate, hstack⟩ := r.modifyFrame_rest f
  exact h.of_same hstream hstate hstack (follows_modifyFrame r hf) hbuilds

theorem carryOut (h : r.Intact n ts []) {step : RepairStep} (hplain : step.isPlain = true) :
    (r.carryOut step).Intact n ts [] := by
  have hbuilds := h.builds.carryOut h.opened hplain
  cases step with
  | event | report => exact h.of_same rfl rfl rfl rfl hbuilds
  | consume t skipped =>
    have hframes := follows_modifyFrame r (f := fun i => i.addToken t skipped) fun _ => rfl
    obtain ⟨hstream, _, _, _, hstate, hstack⟩ :=
      r.modifyFrame_rest fun i => i.addToken t skipped
    have hrest : (r.carryOut (.consume t skipped)).stream = r.stream ∧
        (r.carryOut (.consume t skipped)).state = r.state ∧
          (r.carryOut (.consume t skipped)).stack = r.stack ∧
            (r.carryOut (.consume t skipped)).frames.map Invocation.follow =
              r.frames.map Invocation.follow := by
      unfold Run.carryOut
      dsimp only
      split <;> exact ⟨hstream, hstate, hstack, hframes⟩
    exact h.of_same hrest.1 hrest.2.1 hrest.2.2.1 hrest.2.2.2 hbuilds

/-- What the strategy does is carried out in full. -/
theorem repaired (h : r.Intact n ts []) {repair : Repair} (hplain : repair.Plain ts) :
    (repair.steps.foldl Run.carryOut
      { r with strategy := repair.strategy, stream := repair.stream }).Intact n ts [] := by
  refine List.foldlRecOn repair.steps Run.carryOut ?_ fun _ h step hstep =>
    h.carryOut (hplain.steps step hstep)
  exact ⟨hplain.stream, h.state, h.returns, h.opened, h.follows, h.builds.of_same rfl rfl⟩

/-- A token that is missing is put in. -/
theorem insert (h : r.Intact n ts []) (t : Token) :
    ((r.emit (.insert t)).modifyFrame fun i => i.addToken t true).Intact n ts [] := by
  have hannounced : (r.emit (.insert t)).Intact n ts [.inserted t] :=
    h.of_same rfl rfl rfl rfl (h.builds.announce t)
  exact hannounced.modifyFrame (fun _ => rfl) (hannounced.builds.insert hannounced.opened)

/-- A rule is entered between states of the network. -/
theorem enterRule (hspans : n.toGraph.Anchored) {rule : RuleIndex} {follow : StateId}
    (level : Int) (hstream : ∃ i, r.stream.At ts i)
    (hstate : n.rule? rule = none → r.state < n.states.size)
    (hreturns : ∀ id ∈ r.stack.returnStates, id < n.states.size)
    (hfollows : ∀ id ∈ follow :: r.frames.map Invocation.follow, id < n.states.size)
    (hbuilds : r.Builds []) : (r.enterRule n rule follow level).Intact n ts [] := by
  have hbuilds' := hbuilds.enterRule n rule follow level
  obtain ⟨i, hat⟩ := hstream
  unfold Run.enterRule at hbuilds' ⊢
  dsimp only at hbuilds' ⊢
  cases hspan : n.rule? rule with
  | none =>
    rw [hspan] at hbuilds'
    exact ⟨⟨i, hat.index.2⟩, hstate hspan, hreturns, List.cons_ne_nil _ _, hfollows, hbuilds'⟩
  | some span =>
    rw [hspan] at hbuilds'
    exact ⟨⟨i, hat.index.2⟩, (hspans rule span hspan).1, hreturns, List.cons_ne_nil _ _, hfollows,
      hbuilds'⟩

/-- When the outermost rule is left there is a tree, and otherwise its caller goes
on. -/
theorem exitRule (h : r.Intact n ts []) : (r.exitRule n).Builds [] ∧
    (∃ i, (r.exitRule n).stream.At ts i) ∧
      if r.frames.length ≤ 1 then
        (r.exitRule n).frames = [] ∧ ∃ tree, (r.exitRule n).tree = some tree
      else (r.exitRule n).Intact n ts [] := by
  have hbuilds := h.builds.exitRule h.opened n
  have hfollows := h.follows
  obtain ⟨i, outer, hframes⟩ := List.exists_cons_of_ne_nil h.opened
  rw [hframes, List.map_cons, List.forall_mem_cons] at hfollows
  rw [Run.exitRule, hframes] at hbuilds ⊢
  cases outer with
  | nil => exact ⟨hbuilds, h.stream, rfl, _, rfl⟩
  | cons caller others =>
    refine ⟨hbuilds, h.stream, h.stream, hfollows.1, ?_, List.cons_ne_nil _ _, hfollows.2, hbuilds⟩
    intro id hid
    refine h.returns id ?_
    rw [CallStack.returnStates] at hid ⊢
    exact List.map_subset _ (List.tail_subset r.stack) hid

/-- Noting a prediction may record an alternative. -/
theorem notePrediction (h : r.Intact n ts ahead) (interp : Interpreter) (id : StateId)
    (p : Prediction) : (interp.notePrediction id p r).Intact n ts ahead := by
  have hcounted : ({ r with metrics.lookahead := max r.metrics.lookahead p.lookahead } :
      Run).Intact n ts ahead := h.of_same rfl rfl rfl rfl (h.builds.of_same rfl rfl)
  have hnoted (r' : Run) (h' : r'.Intact n ts ahead) : (if interp.isRuleBody id then
      r'.modifyFrame fun i => { i with node := i.node.setAlt p.alt } else
      r').Intact n ts ahead := by
    split
    · exact h'.modifyFrame (fun _ => rfl) (h'.builds.setAlt p.alt)
    · exact h'
  unfold Interpreter.notePrediction
  dsimp only
  refine hnoted _ (emit ?_ rfl)
  split
  · refine emit ?_ rfl
    exact hcounted.of_same rfl rfl rfl rfl (hcounted.builds.of_same rfl rfl)
  · exact hcounted

end Run.Intact

namespace Interpreter

open Running

variable {α : Type} {interp : Interpreter} {ts : List Token} {r : Run}

theorem safe_onStream {f : TokenStream → α × TokenStream}
    (hf : ∀ s i, s.At ts i → ∃ j, (f s).2.At ts j) :
    (onStream f).Safe (Run.Intact interp.network ts []) := by
  intro r h
  obtain ⟨i, hat⟩ := h.stream
  exact ends_modifyGet ⟨hf _ i hat, h.state, h.returns, h.opened, h.follows,
    h.builds.of_same rfl rfl⟩

theorem safe_peek : (onStream fun s => s.peek 1).Safe (Run.Intact interp.network ts []) :=
  safe_onStream fun _ i hat => ⟨i, hat.peek_one.2⟩

theorem consult_intact {work : Site → Repairing α}
    (hwork : ∀ site, (work site).Keeps (Repair.Plain ts)) (h : r.Intact interp.network ts []) :
    ((interp.consult work).run r).2.Intact interp.network ts [] :=
  h.repaired (hwork _ _ ⟨h.stream, nofun⟩)

theorem safe_consult {work : Site → Repairing α}
    (hwork : ∀ site, (work site).Keeps (Repair.Plain ts)) :
    Safe (Run.Intact interp.network ts []) (ExceptT.lift (interp.consult work)) :=
  fun _ h => ends_lift (consult_intact hwork h)

theorem safe_align :
    (interp.tryRepair Repairing.align).Safe (Run.Intact interp.network ts []) := by
  refine safe_bind (safe_consult fun _ => (Repair.stable_plain ts).align.keeps) fun result => ?_
  cases result with
  | ok => exact safe_pure _
  | error m => exact safe_mismatch m

/-- A placeholder is told of by the strategy, and it becomes a leaf behind that. -/
theorem safe_repairInline (hgenuine : Genuine ts) :
    interp.repairInline.Safe (Run.Intact interp.network ts []) := by
  intro r h
  have hplain : Repair.Plain ts { strategy := r.strategy, stream := r.stream } :=
    ⟨h.stream, nofun⟩
  refine ends_bind (ends_bind (ends_consult ?_))
  refine ((Repair.stable_plain ts).repairInline hplain).mono fun result repair hrepair => ?_
  rcases hrepair with ⟨hrepair, hreal, _⟩ | ⟨t, repair₀, rfl, hplaceholder, hrepair₀, rfl⟩
  · cases result with
    | error m => exact ends_throw ⟨h.repaired hrepair, trivial⟩
    | ok t =>
      have ht := hgenuine t (hreal t rfl)
      refine ends_pure ?_
      rw [ht]
      exact ends_pure (h.repaired hrepair)
  · have hrepaired := h.repaired hrepair₀
    refine ends_pure ?_
    rw [hplaceholder, List.foldl_append]
    exact ends_bind (ends_modify (ends_pure (hrepaired.insert t)))

theorem safe_bindLabel (s : State) (t : Token) :
    (bindLabel s t).Safe (Run.Intact interp.network ts []) := by
  have hnode (name : String) (i : Invocation) :
      (i.bindLabel name t).node = i.node ∧ (i.bindLabel name t).follow = i.follow := by
    unfold Invocation.bindLabel
    split <;> exact ⟨rfl, rfl⟩
  unfold bindLabel
  split
  · exact safe_pure _
  · refine safe_modify fun r h => h.modifyFrame (fun i => (hnode _ i).2) ?_
    exact h.builds.modifyHidden fun i => (hnode _ i).1

theorem safe_matchToken (hgenuine : Genuine ts) (s : State) (t : Transition) :
    (interp.matchToken s t).Safe (Run.Intact interp.network ts []) := by
  refine safe_bind safe_peek fun current => ?_
  dsimp only
  split
  · exact safe_bind (safe_consult fun _ => (Repair.stable_plain ts).eatMatched) fun _ =>
      safe_bind (safe_pure current) fun _ => safe_bindLabel s _
  · exact safe_bind (safe_repairInline hgenuine) fun _ => safe_bindLabel s _

theorem safe_failedPredicate (rule : RuleIndex) (predicate : String) :
    (interp.failedPredicate rule predicate : Running α).Safe (Run.Intact interp.network ts []) :=
  safe_bind safe_peek fun _ r h => ends_bind (ends_get (safe_mismatch _ r h))

theorem safe_performAction (text : String) :
    (interp.performAction text).Safe (Run.Intact interp.network ts []) := by
  have hcall (read : String) : Safe (Run.Intact interp.network ts [])
      (modify (interp.callAction text read)) := by
    refine safe_modify fun r h => ?_
    unfold callAction
    split
    · exact h
    · exact h.of_same rfl rfl rfl rfl (h.builds.of_same rfl rfl)
  have hread : invocationText.Safe (Run.Intact interp.network ts []) := by
    have hprevious : (onStream fun s => s.previous 1).Safe (Run.Intact interp.network ts []) :=
      safe_onStream fun _ i hat => ⟨i, hat.previous 1⟩
    refine fun r h => ends_bind (ends_get (safe_bind hprevious (fun t => ?_) r h))
    split
    · exact safe_pure _
    · split
      · exact safe_onStream fun _ i hat => ⟨i, hat.text _ _⟩
      · exact safe_pure _
  exact safe_bind hread hcall

theorem safe_askPredicate (rule : RuleIndex) (text : String) :
    (interp.askPredicate rule text).Safe (Run.Intact interp.network ts []) :=
  fun _ h => ends_modifyGet (h.of_same rfl rfl rfl rfl (h.builds.of_same rfl rfl))

theorem safe_goto {target : StateId} (htarget : target < interp.network.states.size) :
    (Interpreter.take.goto target).Safe (Run.Intact interp.network ts []) :=
  safe_modify fun _ h => h.goto htarget

theorem safe_callRule (hspans : interp.network.toGraph.Anchored) (rule : RuleIndex)
    {follow : StateId} (hfollow : follow < interp.network.states.size) (level : Int) :
    (interp.callRule rule follow level).Safe (Run.Intact interp.network ts []) := by
  refine safe_bind (safe_onStream fun _ i hat => ⟨i, hat.index.2⟩) fun index r h => ?_
  refine ends_bind (ends_get ?_)
  dsimp only
  split
  · exact ends_bind (ends_throw ⟨h, _, _, rfl⟩)
  · refine ends_set (.enterRule hspans level h.stream (fun _ => h.state) ?_ ?_ ?_)
    · exact List.forall_mem_cons.mpr ⟨hfollow, h.returns⟩
    · exact List.forall_mem_cons.mpr ⟨hfollow, h.follows⟩
    · exact h.builds.of_same rfl rfl

/-- A transition of a checked network leads to states of the network. -/
theorem safe_take (hcheck : interp.network.toGraph.check = .ok ())
    (hspans : interp.network.toGraph.Anchored) (hgenuine : Genuine ts) {id : StateId} {s : State}
    (hs : interp.network.state? id = some s) {t : Transition} (ht : t ∈ s.transitions) :
    (interp.take s t).Safe (Run.Intact interp.network ts []) := by
  have htarget : t.target < interp.network.states.size := by
    obtain ⟨_, hs'⟩ := Graph.target_of_check hcheck hs ht
    exact Graph.lt_of_state? hs'
  cases t with
  | epsilon target =>
    simp only [take]
    split
    · refine safe_bind (safe_modify fun r h => ?_) fun _ => safe_goto htarget
      exact h.modifyFrame (fun _ => rfl) (h.builds.wrap h.opened)
    · exact safe_goto htarget
  | atom | set | wildcard =>
    exact safe_bind (safe_matchToken hgenuine s _) fun _ => safe_goto htarget
  | call start rule follow level =>
    obtain ⟨_, _, hfollow⟩ := Graph.call_of_check hcheck hs ht
    exact safe_callRule hspans rule (Graph.lt_of_state? hfollow) level
  | predicate target rule index =>
    refine safe_bind (safe_askPredicate rule _) fun value => ?_
    dsimp only
    split
    · exact safe_goto htarget
    · exact safe_bind (safe_failedPredicate rule _) fun _ => safe_goto htarget
  | precedence target level =>
    refine fun r h => ends_bind (ends_get ?_)
    dsimp only
    split
    · exact safe_bind (safe_failedPredicate s.rule _) (fun _ => safe_goto htarget) r h
    · exact safe_goto htarget r h
  | action target rule index =>
    exact safe_bind (safe_performAction _) fun _ => safe_goto htarget

/-- The way out of a loop is one of its transitions. -/
theorem wayOut?_le {s : State} {alt : Nat} (h : interp.wayOut? s = some alt) :
    0 < alt ∧ alt ≤ s.transitions.length := by
  unfold wayOut? at h
  split at h
  all_goals
    first
    | cases h
    | obtain ⟨i, hi, rfl⟩ := Option.map_eq_some_iff.mp h
      have hlt := (List.findIdx?_eq_some_iff_findIdx_eq.mp hi).1
      exact ⟨Nat.succ_pos i, hlt⟩

/-- In a state with transitions one of them is chosen, or the decision fails with a
mismatch. -/
theorem choose_ends (hcheck : interp.network.toGraph.check = .ok ()) {id : StateId} {s : State}
    (hs : interp.network.state? id = some s) (hsome : s.transitions ≠ [])
    (h : r.Intact interp.network ts []) :
    (interp.choose id s).Ends r
      (fun alt r' => r'.Intact interp.network ts [] ∧ 0 < alt ∧ alt ≤ s.transitions.length)
      fun o r' => r'.Intact interp.network ts [] ∧ o.Tame := by
  obtain ⟨i, hat⟩ := h.stream
  let d : Decision := ⟨id, r.stack, r.precedence⟩
  have hexist : ∀ id' ∈ d.state :: d.stack.returnStates, id' < interp.network.states.size :=
    List.forall_mem_cons.mpr ⟨Graph.lt_of_state? hs, h.returns⟩
  obtain ⟨halt, hdefect⟩ := (d.decides hcheck hexist interp.hooks r.calls hat).2.2 s hs hsome
  have hat' := d.decide_at interp.network interp.hooks r.calls hat
  refine ends_bind (ends_get ?_)
  dsimp only
  generalize d.decide interp.network interp.hooks r.stream r.calls = result
    at halt hdefect hat' ⊢
  obtain ⟨⟨outcome, stream⟩, calls⟩ := result
  have hset : ({ r with stream, calls, metrics.decisions := r.metrics.decisions + 1 } :
      Run).Intact interp.network ts [] :=
    ⟨⟨i, hat'⟩, h.state, h.returns, h.opened, h.follows, h.builds.of_same rfl rfl⟩
  refine ends_bind (ends_set ?_)
  cases outcome with
  | ok p =>
    exact ends_bind (ends_modify (ends_pure ⟨hset.notePrediction interp id p, halt p rfl⟩))
  | error failure =>
    cases failure with
    | defect d => exact absurd rfl (hdefect d)
    | mismatch m =>
      dsimp only
      split
      · rename_i hout _
        exact ends_pure ⟨hset, wayOut?_le hout⟩
      · exact ends_throw ⟨hset, trivial⟩

theorem safe_visit (hcheck : interp.network.toGraph.check = .ok ())
    (hspans : interp.network.toGraph.Anchored) (hgenuine : Genuine ts) {id : StateId} {s : State}
    (hs : interp.network.state? id = some s) (hsome : s.transitions ≠ []) :
    (interp.visit id s).Safe (Run.Intact interp.network ts []) := by
  have hone : 0 < 1 ∧ 1 ≤ s.transitions.length :=
    ⟨Nat.one_pos, List.length_pos_iff.mpr hsome⟩
  intro r h
  have halternative : (interp.alternative id s).Ends r
      (fun alt r' => r'.Intact interp.network ts [] ∧ 0 < alt ∧ alt ≤ s.transitions.length)
      fun o r' => r'.Intact interp.network ts [] ∧ o.Tame := by
    unfold alternative
    split
    · exact ends_bind ((safe_align r h).mono fun _ r₁ h₁ => choose_ends hcheck hs hsome h₁)
    · split
      · exact ends_bind ((safe_align r h).mono fun _ r₁ h₁ => ends_pure ⟨h₁, hone⟩)
      · exact ends_pure ⟨h, hone⟩
  refine ends_bind (halternative.mono fun alt r₁ h₁ => ?_)
  obtain ⟨h₁, hpos, hle⟩ := h₁
  have hlt : alt - 1 < s.transitions.length := by omega
  rw [List.getElem?_eq_getElem hlt]
  exact safe_take hcheck hspans hgenuine hs (List.getElem_mem hlt) r₁ h₁

/-- A rule that is given up goes on at its end. -/
theorem giveUp_intact (hspans : interp.network.toGraph.Anchored)
    (h : r.Intact interp.network ts []) (m : Mismatch) :
    ((interp.giveUp m).run r).2.Intact interp.network ts [] := by
  have hfail := h.modifyFrame (f := Invocation.fail) (fun _ => rfl)
    h.builds.fail
  have habandon : (interp.abandon r).Intact interp.network ts [] := by
    unfold abandon
    dsimp only
    split
    · exact hfail
    · rename_i span hspan
      obtain ⟨i, _, hspan⟩ := Option.bind_eq_some_iff.mp hspan
      exact hfail.goto (hspans i.rule span hspan).2
  exact consult_intact (fun site => Repair.giveUp_plain ts site m) habandon

end Interpreter

/-- A run has halted.  Its tree builder comes along, when it has finished there is a
tree, and a defect that ended it is of this kind. -/
structure Run.Stops (ts : List Token) (P : NetworkDefect → Prop) (halt : Halt) (r : Run) :
    Prop where
  stream : ∃ i, r.stream.At ts i
  builds : r.Builds []
  tree : halt = .finished → ∃ tree, r.draft = ⟨[], some tree⟩
  defect : ∀ d, halt = .defect d → P d

namespace Interpreter

/-- The run behind a step is intact, or it has halted. -/
def StepEnd.Holds (n : Network) (ts : List Token) (r : Run) : StepEnd → Prop
  | .running => r.Intact n ts []
  | .finished => r.Stops ts NetworkDefect.IsCycle .finished
  | .defect d => r.Stops ts NetworkDefect.IsCycle (.defect d)

variable (interp : Interpreter) {ts : List Token} {r : Run}

theorem step_holds (hcheck : interp.network.toGraph.check = .ok ())
    (hspans : interp.network.toGraph.Anchored) (hgenuine : Genuine ts)
    (h : r.Intact interp.network ts []) :
    (interp.step.run r).1.Holds interp.network ts (interp.step.run r).2 := by
  obtain ⟨s, hs⟩ := Graph.exists_state h.state
  have hget := Graph.getState_of_state? hs
  refine interp.step_ends r (P := fun ending r' => ending.Holds interp.network ts r')
    (fun d hd => ?_) (fun s' hs' hstop => ?_) fun s' hs' hrun => ?_
  · exact nomatch hget.symm.trans hd
  · obtain ⟨hbuilds, hstream, hexit⟩ := h.exitRule
    by_cases hlast : r.frames.length ≤ 1
    · rw [if_pos hlast] at hexit ⊢
      obtain ⟨hframes, tree, htree⟩ := hexit
      refine ⟨hstream, hbuilds, fun _ => ⟨tree, ?_⟩, ?_⟩
      · rw [Run.draft, hframes, htree]
        rfl
      · rintro _ ⟨⟩
    · rw [if_neg hlast] at hexit ⊢
      exact hexit
  · obtain rfl := Except.ok.inj (hget.symm.trans hs')
    have hvisit := safe_visit hcheck hspans hgenuine hs (Graph.exits_of_check hcheck hs hrun) r h
    refine ⟨_, _, hvisit, fun _ hintact => hintact, fun d r' hdefect => ?_,
      fun m r' hmismatch => giveUp_intact hspans hmismatch.1 m⟩
    obtain ⟨hintact, htame⟩ := hdefect
    refine ⟨hintact.stream, hintact.builds, ?_, ?_⟩
    · rintro ⟨⟩
    · rintro _ ⟨⟩
      exact htame

/-- However many steps are granted, an intact run halts in order. -/
theorem loop_stops (hcheck : interp.network.toGraph.check = .ok ())
    (hspans : interp.network.toGraph.Anchored) (hgenuine : Genuine ts) (steps : Nat)
    (h : r.Intact interp.network ts []) :
    (interp.loop steps r).2.Stops ts NetworkDefect.IsCycle (interp.loop steps r).1 := by
  induction steps generalizing r with
  | zero =>
    refine ⟨h.stream, h.builds, ?_, ?_⟩
    · rintro ⟨⟩
    · rintro _ ⟨⟩
  | succ steps ih =>
    have hends := interp.step_holds hcheck hspans hgenuine h
    rw [loop]
    generalize interp.step.run r = result at hends ⊢
    obtain ⟨ending, r'⟩ := result
    cases ending with
    | running => exact ih hends
    | defect d => exact hends
    | finished =>
      obtain ⟨i, hat⟩ := hends.stream
      refine ⟨⟨i, hat.takeErrors⟩, hends.builds.of_same rfl (Run.treeCalls_flushLexErrors _),
        hends.tree, ?_⟩
      rintro _ ⟨⟩

end Interpreter

/-- A parser that was made for a grammar on some source, and was used since. -/
inductive Parser.Used (g : Grammar) : Parser → Prop where
  | made (source : TokenSource) (options : ParserOptions) (listeners : List String) :
      Used g ⟨g, .ofSource source, options, listeners⟩
  | parsed {p} (h : Used g p) (hooks : Hooks) (steps : Nat) (start : String) :
      Used g (p.parse hooks steps start).parser
  | changed {p} (h : Used g p) (options : ParserOptions) (listeners : List String) :
      Used g { p with options, listeners }

/-- A decision of a checked network at a state with transitions, under a stack of
existing states, meets no defect. -/
theorem Decision.decide_ne_defect {n : Network} (hcheck : n.toGraph.check = .ok ()) {d : Decision}
    {s : State} (hs : n.state? d.state = some s) (hsome : s.transitions ≠ [])
    (hexist : ∀ id ∈ d.stack.returnStates, id < n.states.size) (hooks : Hooks)
    (calls : Array HookCall) (source : TokenSource) (past : List StreamUse)
    (defect : NetworkDefect) :
    (d.decide n hooks ((TokenStream.ofSource source).after past) calls).1.1 ≠
      .error (.defect defect) := by
  obtain ⟨ts, hts, _⟩ := TokenStream.exists_at_ofSource source
  obtain ⟨i, hat⟩ := TokenStream.exists_at_after hts past
  have hall : ∀ id ∈ d.state :: d.stack.returnStates, id < n.states.size :=
    List.forall_mem_cons.mpr ⟨Graph.lt_of_state? hs, hexist⟩
  exact ((d.decides hcheck hall hooks calls hat).2.2 s hs hsome).2 defect

section

variable {g : Grammar} {p : Parser} {ts : List Token} {i : Nat}

theorem Parser.parse_stops (hcheck : p.grammar.network.toGraph.check = .ok ())
    (hspans : p.grammar.network.toGraph.Anchored) (hgenuine : Genuine ts) (hat : p.stream.At ts i)
    (hooks : Hooks) (steps : Nat) (start : String) :
    let report := p.parse hooks steps start
    report.run.Stops ts (fun d => d = .unknownRule start ∨ d.IsCycle) report.halt := by
  intro report
  cases hstart : (p.grammar.network.ruleIndex? start).bind fun i =>
      (p.grammar.network.rule? i).map fun info => (i, info) with
  | none =>
    have hreport : report = p.report (.defect (.unknownRule start)) { stream := p.stream } := by
      simp only [report, Parser.parse, hstart]
    rw [hreport]
    refine ⟨⟨i, hat⟩, ⟨[], rfl, rfl⟩, ?_, fun d hd => .inl (Halt.defect.inj hd).symm⟩
    rintro ⟨⟩
  | some found =>
    obtain ⟨rule, hindex, hfound⟩ := Option.bind_eq_some_iff.mp hstart
    obtain ⟨span, hspan, _⟩ := Option.map_eq_some_iff.mp hfound
    have hknown : p.grammar.network.rule? rule ≠ none := by simp [hspan]
    have hbegin := Run.Intact.enterRule (r := { stream := p.stream }) hspans 0 ⟨i, hat⟩
      (absurd · hknown) (fun _ hframe => absurd hframe List.not_mem_nil)
      (List.forall_mem_singleton.mpr (hspans rule span hspan).2) ⟨[], rfl, rfl⟩
    let interp : Interpreter := ⟨p.grammar.network, p.grammar.vocabulary, hooks⟩
    have hstops := interp.loop_stops hcheck hspans hgenuine steps hbegin
    have hreport : report = _ := Parser.parse_eq hindex hspan
    rw [hreport]
    exact ⟨hstops.stream, hstops.builds, hstops.tree, fun d hd => .inr (hstops.defect d hd)⟩

/-- Whatever a parser was used for, its stream stands on genuine tokens. -/
theorem Parser.Used.stands (h : p.Used g) (hcheck : g.network.toGraph.check = .ok ())
    (hspans : g.network.toGraph.Anchored) :
    p.grammar = g ∧ ∃ ts i, Genuine ts ∧ p.stream.At ts i := by
  induction h with
  | made source =>
    obtain ⟨ts, hts, hat⟩ := TokenStream.exists_at_ofSource source
    exact ⟨rfl, ts, _, hts.numbered.genuine, hat⟩
  | @parsed p h hooks steps start ih =>
    obtain ⟨rfl, ts, i, hgenuine, hat⟩ := ih
    obtain ⟨j, hj⟩ := (Parser.parse_stops hcheck hspans hgenuine hat hooks steps start).stream
    rw [p.parser_parse]
    exact ⟨rfl, ts, j, hgenuine, hj⟩
  | changed _ _ _ ih => exact ih

/-- The tree builder has finished its tree when the parse has, and that tree is
handed out. -/
theorem Parser.finish_of_stops {hooks : Hooks} {steps : Nat} {start : String}
    {P : NetworkDefect → Prop} (h : (p.parse hooks steps start).run.Stops ts P .finished) :
    ∃ tree, (p.parse hooks steps start).run.draft.finish = .ok tree ∧
      (p.options.buildTree = true → (p.parse hooks steps start).result.tree = some tree) := by
  obtain ⟨tree, hdraft⟩ := h.tree rfl
  have htree : (p.parse hooks steps start).run.tree = some tree := congrArg TreeDraft.root hdraft
  refine ⟨tree.asRoot, by rw [hdraft]; rfl, fun hbuild => ?_⟩
  have hoptions : (p.parse hooks steps start).parser.options.buildTree = true := by
    rw [p.parser_parse]
    exact hbuild
  rw [ParseReport.result, if_pos hoptions, htree]
  rfl

/-- A network that was built and checked has no defect left for a parse but that a
rule is called again before a token was read: however the parser was used before,
every other defect is that there is no rule of the name to start with.  The calls of
the tree builder that the record tells of all go through, and when the parse has
finished there is a tree.  A decision at a state with transitions, under a stack of
existing states, meets no defect at all. -/
theorem Graph.Built.parse_defect {graph : Graph} (hbuilt : graph.Built) {maxType : TokenType}
    (hnetwork : graph.toNetwork maxType = .ok g.network) (hp : p.Used g) (hooks : Hooks)
    (steps : Nat) (start : String) :
    let report := p.parse hooks steps start
    (∀ d, report.halt = .defect d →
      d = .unknownRule start ∨ ∃ rule index, d = .recursionCycle rule index) ∧
    (∃ calls, TreeDraft.replay {} calls = .ok report.run.draft ∧
      calls.filter TreeCall.isTold = report.run.treeCalls) ∧
    (report.halt = .finished → ∃ tree, report.run.draft.finish = .ok tree ∧
      (p.options.buildTree = true → report.result.tree = some tree)) ∧
    ∀ (d : Decision) (s : State), g.network.state? d.state = some s → s.transitions ≠ [] →
      (∀ id ∈ d.stack.returnStates, id < g.network.states.size) →
        ∀ (hooks : Hooks) (calls : Array HookCall) (source : TokenSource) (past : List StreamUse)
          (defect : NetworkDefect),
          (d.decide g.network hooks ((TokenStream.ofSource source).after past) calls).1.1 ≠
            .error (.defect defect) := by
  intro report
  have hcheck := check_of_toNetwork hnetwork
  have hspans : g.network.toGraph.Anchored := by
    rw [(toNetwork_ok hnetwork).1]
    exact hbuilt.anchored
  obtain ⟨rfl, ts, i, hgenuine, hat⟩ := hp.stands hcheck hspans
  have hstops : report.run.Stops ts _ report.halt :=
    Parser.parse_stops hcheck hspans hgenuine hat hooks steps start
  refine ⟨hstops.defect, hstops.builds.replayed, fun hfinished => ?_, ?_⟩
  · rw [hfinished] at hstops
    exact Parser.finish_of_stops hstops
  · exact fun d s hs hsome hexist => Decision.decide_ne_defect hcheck hs hsome hexist

end

/-- A rule that reads a token and calls another one, which may call itself before it
reads. -/
def rounds : Graph :=
  let g : Graph := (({} : Graph).addRule "s" false).addRule "a" false
  let g := (g.addState .basic 0).2
  let g := (g.addState .blockStart 1).2
  let g := (g.addState .basic 1).2
  (((((g.addTransition 0 (.atom 4 1)).addTransition 4 (.call 2 1 1 0)).addTransition 2
    (.epsilon 5)).addTransition 5 (.call 2 1 6 0)).addTransition 5 (.atom 6 2)).addTransition 6
      (.epsilon 3)

theorem built_rounds : rounds.Built :=
  ((((((((((Graph.Built.empty.addRule _ _).addRule _ _).addState _ _).addState _ _).addState _
    _).addTransition _ _).addTransition _ _).addTransition _ _).addTransition _ _).addTransition _
      _).addTransition _ _

def roundsGrammar : Grammar :=
  ⟨"Rounds", rounds.network 2 (by decide +kernel), .empty, []⟩

def roundsReport : ParseReport :=
  Parser.parse (.ofTokens roundsGrammar [.make 2 "b" 0 0 1 0]) .permissive 20 "s"

/-- The first token is put in, and then the second rule calls itself in front of the
one that is there. -/
theorem parse_defect_rounds :
    roundsReport.halt = .defect (.recursionCycle "a" 0) ∧ roundsReport.run.treeCalls.length = 3 ∧
      (∃ calls, TreeDraft.replay {} calls = .ok roundsReport.run.draft ∧
        calls.filter TreeCall.isTold = roundsReport.run.treeCalls) ∧
      ∀ defect, ((⟨5, [⟨6, 0⟩, ⟨1, 0⟩], 0⟩ : Decision).decide roundsGrammar.network .permissive
        ((TokenStream.ofSource (.ofList [])).after []) #[]).1.1 ≠ .error (.defect defect) := by
  have hnetwork : rounds.toNetwork 2 = .ok roundsGrammar.network :=
    Graph.toNetwork_network (by decide +kernel)
  have hstate : (roundsGrammar.network.state? 5).any (fun s => !s.transitions.isEmpty) = true := by
    decide +kernel
  obtain ⟨s, hs, hsome⟩ := (Option.any_eq_true _ _).mp hstate
  obtain ⟨_, hcalls, _, hdecide⟩ := built_rounds.parse_defect hnetwork
    (.made (.ofList [.make 2 "b" 0 0 1 0]) {} []) .permissive 20 "s"
  rw [← Parser.ofTokens, ← roundsReport] at hcalls
  refine ⟨by decide +kernel, by decide +kernel, hcalls, ?_⟩
  exact hdecide _ s hs (by simpa using hsome) (by decide +kernel) .permissive #[] (.ofList []) []

end AdaptiveLL
