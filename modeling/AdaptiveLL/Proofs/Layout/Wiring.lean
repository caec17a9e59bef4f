/-
Wiring lays every rule body.

Wiring only adds states and gives an exit its way on, so a range that was wired
keeps its layout in every later graph.  The main statement is that wiring an
expression lays it on the states that were added for it.
-/
import AdaptiveLL.Proofs.Layout

namespace AdaptiveLL

namespace Wiring

variable {α β : Type} {g g' : Graph}

theorem bind_ok {w : Wiring α} {f : α → Wiring β} {b : β} :
    (w >>= f).run g = .ok (b, g') ↔
      ∃ a h, w.run g = .ok (a, h) ∧ (f a).run h = .ok (b, g') := by
  rw [StateT.run_bind]
  cases hw : w.run g with
  | error d => simp [bind, Except.bind]
  | ok r =>
    obtain ⟨a, h⟩ := r
    simp [bind, Except.bind]

theorem pure_ok {a b : α} :
    (pure a : Wiring α).run g = .ok (b, g') ↔ a = b ∧ g = g' := by
  rw [StateT.run_pure]
  simp [pure, Except.pure]

theorem modify_ok {f : Graph → Graph} {b : Unit} :
    (modify f : Wiring Unit).run g = .ok (b, g') ↔ f g = g' := by
  simp [modify, modifyGet, MonadStateOf.modifyGet, StateT.modifyGet, StateT.run, pure, Except.pure]

theorem modifyGet_ok {f : Graph → α × Graph} {b : α} :
    (modifyGet f : Wiring α).run g = .ok (b, g') ↔ f g = (b, g') := by
  simp [modifyGet, MonadStateOf.modifyGet, StateT.modifyGet, StateT.run, pure, Except.pure]

theorem get_ok {b : Graph} : (get : Wiring Graph).run g = .ok (b, g') ↔ g = b ∧ g = g' := by
  rw [StateT.run_get]
  simp [pure, Except.pure]

theorem lift_ok {x : Except GrammarDefect α} {b : α} :
    (liftM x : Wiring α).run g = .ok (b, g') ↔ x = .ok b ∧ g = g' := by
  cases x with
  | error d =>
    simp [liftM, monadLift, MonadLift.monadLift, StateT.lift, StateT.run, bind, Except.bind]
  | ok a =>
    simp [liftM, monadLift, MonadLift.monadLift, StateT.lift, StateT.run, bind, Except.bind, pure,
      Except.pure]

theorem throw_ok {d : GrammarDefect} {b : α} :
    ¬ (throw d : Wiring α).run g = .ok (b, g') := by
  simp [throw, throwThe, MonadExceptOf.throw, StateT.lift, StateT.run, bind, Except.bind]

end Wiring

namespace Graph

variable {g g' h G : Graph}

@[simp] theorem states_size_addState (role : StateRole) (rule : RuleIndex) :
    (g.addState role rule).2.states.size = g.states.size + 1 := by
  simp [addState]

@[simp] theorem rules_addState (role : StateRole) (rule : RuleIndex) :
    (g.addState role rule).2.rules = g.rules := rfl

@[simp] theorem states_size_addTransition (source : StateId) (t : Transition) :
    (g.addTransition source t).states.size = g.states.size := by
  simp [addTransition, modifyState]

@[simp] theorem rules_addTransition (source : StateId) (t : Transition) :
    (g.addTransition source t).rules = g.rules := rfl

theorem shape?_addState (role : StateRole) (rule : RuleIndex) (id : StateId) :
    (g.addState role rule).2.shape? id =
      if id = g.states.size then some ⟨role, rule, []⟩ else g.shape? id := by
  by_cases hid : id = g.states.size
  · simp [shape?, state?, addState, hid, State.shape]
  · simp [shape?, state?, addState, Array.getElem?_push, hid]

theorem shape?_addTransition (source : StateId) (t : Transition) (id : StateId) :
    (g.addTransition source t).shape? id =
      if id = source then (g.shape? id).map fun s => { s with transitions := s.transitions ++ [t] }
      else g.shape? id := by
  by_cases hid : id = source
  · subst hid
    simp only [shape?, state?, addTransition, modifyState, Array.getElem?_modify, if_true,
      Option.map_map]
    rfl
  · have hne : source ≠ id := fun he => hid he.symm
    simp [shape?, state?, addTransition, modifyState, Array.getElem?_modify, hid, hne]

theorem shape?_setLabel (source : StateId) (label : String) (id : StateId) :
    (g.setLabel source label).shape? id = g.shape? id := by
  by_cases hid : source = id
  · subst hid
    simp only [shape?, state?, setLabel, modifyState, Array.getElem?_modify, if_true,
      Option.map_map]
    rfl
  · simp [shape?, state?, setLabel, modifyState, Array.getElem?_modify, hid]

/-- The states and rules of a graph are kept by a later one. -/
structure Extends (g h : Graph) : Prop where
  size_le : g.states.size ≤ h.states.size
  rules_eq : h.rules = g.rules
  shape_eq : ∀ id : Nat, id < g.states.size → h.shape? id = g.shape? id

theorem Extends.refl (g : Graph) : g.Extends g :=
  ⟨Nat.le_refl _, rfl, fun _ _ => rfl⟩

theorem Extends.trans (hgh : g.Extends h) (hhg : h.Extends g') : g.Extends g' where
  size_le := Nat.le_trans hgh.size_le hhg.size_le
  rules_eq := hhg.rules_eq.trans hgh.rules_eq
  shape_eq id hid := by
    rw [hhg.shape_eq id (Nat.lt_of_lt_of_le hid hgh.size_le), hgh.shape_eq id hid]

/-- Two graphs show the same from `lo` up to `hi`, except for what leaves the exit. -/
structure Agrees (G g : Graph) (lo hi exit : Nat) : Prop where
  rules_eq : G.rules = g.rules
  shape_eq : ∀ id : Nat, lo ≤ id → id < hi → id ≠ exit → G.shape? id = g.shape? id
  exit_eq : ∀ shape, g.shape? exit = some shape →
    ∃ ts, G.shape? exit = some { shape with transitions := ts }

theorem Agrees.trans {lo hi exit lo' hi' exit' : Nat} (hG : G.Agrees g lo hi exit)
    (hg : g.Agrees h lo' hi' exit') (hlo : lo ≤ lo') (hhi : hi' ≤ hi) (hexit' : lo' ≤ exit')
    (hexit'' : exit' < hi') (houtside : exit = exit' ∨ exit < lo' ∨ hi' ≤ exit) :
    G.Agrees h lo' hi' exit' where
  rules_eq := hG.rules_eq.trans hg.rules_eq
  shape_eq id hid hid' hne := by
    rw [hG.shape_eq id (by omega) (by omega) (by omega), hg.shape_eq id hid hid' hne]
  exit_eq shape hshape := by
    obtain ⟨ts, hts⟩ := hg.exit_eq shape hshape
    by_cases hsame : exit' = exit
    · subst hsame
      obtain ⟨ts', hts'⟩ := hG.exit_eq _ hts
      exact ⟨ts', hts'⟩
    · exact ⟨ts, by rw [hG.shape_eq exit' (by omega) (by omega) hsame, hts]⟩

end Graph

theorem EdgeFor.congr {g G : Graph} {v : Vocabulary} {rule : RuleIndex} {exit : StateId}
    {e : Expr} {t : Transition} (hrules : G.rules = g.rules) (h : EdgeFor g v rule exit e t) :
    EdgeFor G v rule exit e t := by
  cases h with
  | token ht => exact .token ht
  | tokens hform htypes => exact .tokens hform htypes
  | wildcard => exact .wildcard
  | empty => exact .empty
  | nothing => exact .nothing
  | action => exact .action
  | predicate => exact .predicate
  | precedence => exact .precedence
  | call hcallee hspan =>
    refine .call ?_ ?_
    · simpa [Graph.ruleIndex?, hrules] using hcallee
    · simpa [Graph.rule?, hrules] using hspan

/-- The expression was wired between two graphs, on the states that the second one has
and the first one has not. -/
structure Wired (scope : WiringScope) (e : Expr) (g : Graph) (entry exit : Nat) (g' : Graph) :
    Prop where
  grown : g.Extends g'
  entry_mem : g.states.size ≤ entry ∧ entry < g'.states.size
  exit_mem : g.states.size ≤ exit ∧ exit < g'.states.size
  exit_open : ∃ role : StateRole, role.Plain ∧ g'.shape? exit = some ⟨role, scope.rule, []⟩
  laid : ∀ G : Graph, G.Agrees g' g.states.size g'.states.size exit →
    Laid G scope.vocabulary scope.rule e entry exit g.states.size g'.states.size

/-- The work wires the expression wherever it succeeds. -/
def Wires (scope : WiringScope) (e : Expr) (w : Wiring Segment) : Prop :=
  ∀ g seg g', w.run g = .ok (seg, g') → Wired scope e g seg.entry seg.exit g'

section

variable {scope : WiringScope} {e : Expr} {g g' : Graph} {seg : Segment}

theorem edge_run {make : StateId → Transition} (h : (scope.edge make).run g = .ok (seg, g')) :
    seg = ⟨g.states.size, g.states.size + 1⟩ ∧
      g' = ((g.addState .basic scope.rule).2.addState .basic scope.rule).2.addTransition
        g.states.size (make (g.states.size + 1)) := by
  simp only [WiringScope.edge, WiringScope.newState, Wiring.bind_ok, Wiring.modifyGet_ok,
    Wiring.modify_ok, Wiring.pure_ok] at h
  obtain ⟨entry, g₁, h₁, exit, g₂, h₂, _, g₃, h₃, hseg, hg⟩ := h
  obtain ⟨rfl, rfl⟩ : entry = g.states.size ∧ g₁ = (g.addState .basic scope.rule).2 := by
    simpa [Graph.addState, eq_comm] using h₁
  obtain ⟨rfl, rfl⟩ : exit = g.states.size + 1 ∧
      g₂ = ((g.addState .basic scope.rule).2.addState .basic scope.rule).2 := by
    simpa [Graph.addState, eq_comm] using h₂
  exact ⟨hseg.symm, by rw [← hg, ← h₃]⟩

/-- Two new states with a transition from the first to the second lay an expression
that needs no more than that. -/
theorem wired_edge {t : Transition}
    (hedge : EdgeFor g scope.vocabulary scope.rule (g.states.size + 1) e t) :
    Wired scope e g g.states.size (g.states.size + 1)
      (((g.addState .basic scope.rule).2.addState .basic scope.rule).2.addTransition
        g.states.size t) where
  grown := {
    size_le := by simp; omega
    rules_eq := by simp only [Graph.rules_addTransition, Graph.rules_addState]
    shape_eq := by
      intro id hid
      have hne : id ≠ g.states.size := by omega
      have hne' : id ≠ g.states.size + 1 := by omega
      simp [Graph.shape?_addTransition, Graph.shape?_addState, hne, hne'] }
  entry_mem := ⟨Nat.le_refl _, by
    simp only [Graph.states_size_addTransition, Graph.states_size_addState]
    omega⟩
  exit_mem := ⟨by simp, by simp⟩
  exit_open := ⟨.basic, by decide, by simp [Graph.shape?_addTransition, Graph.shape?_addState]⟩
  laid := by
    intro G hG
    have hsize : g.states.size < (((g.addState .basic scope.rule).2.addState .basic
        scope.rule).2.addTransition g.states.size t).states.size := by
      simp only [Graph.states_size_addTransition, Graph.states_size_addState]
      omega
    have hentry := hG.shape_eq g.states.size (Nat.le_refl _) hsize (by simp)
    simp [Graph.shape?_addTransition, Graph.shape?_addState] at hentry
    have hrules : G.rules = g.rules := by
      simpa only [Graph.rules_addTransition, Graph.rules_addState] using hG.rules_eq
    simpa using Laid.edge (hedge.congr hrules) hentry

theorem wires_edge {make : StateId → Transition}
    (hedge : ∀ g exit, EdgeFor g scope.vocabulary scope.rule exit e (make exit)) :
    Wires scope e (scope.edge make) := by
  intro g seg g' h
  obtain ⟨rfl, rfl⟩ := edge_run h
  exact wired_edge (hedge g _)

end

end AdaptiveLL
