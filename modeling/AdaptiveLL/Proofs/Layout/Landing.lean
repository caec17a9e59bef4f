/-
Where a transition that reads leads.

Only an edge of its own reads, and it ends in a state of its own.  So what is read
leads neither into a block nor into a loop, and nothing is looked for in the input
right behind it.
-/
import AdaptiveLL.Proofs.Build
import AdaptiveLL.Proofs.Layout.Pieces

namespace AdaptiveLL

/-- Every transition that reads leads to a state without a part to play in a block
or a loop. -/
def Graph.Lands (g : Graph) : Prop :=
  ∀ id shape t, g.shape? id = some shape → t ∈ shape.transitions → t.isEpsilon = false →
    ∃ target, g.shape? t.target = some target ∧ target.role = .basic

namespace Graph.Lands

variable {g : Graph}

theorem of_shapes {g' : Graph} (h : g.Lands) (heq : ∀ id, g'.shape? id = g.shape? id) :
    g'.Lands := by
  intro id shape t hshape ht hreads
  rw [heq] at hshape
  obtain ⟨target, htarget, hrole⟩ := h id shape t hshape ht hreads
  exact ⟨target, (heq _).trans htarget, hrole⟩

theorem empty : Graph.Lands {} := by
  intro id shape t hshape
  simp [shape?, state?] at hshape

theorem addState (h : g.Lands) (role : StateRole) (rule : RuleIndex) :
    (g.addState role rule).2.Lands := by
  have hnew : g.shape? g.states.size = none := by simp [shape?, state?]
  intro id shape t hshape ht hreads
  rw [shape?_addState] at hshape
  split at hshape
  · obtain rfl := Option.some.inj hshape
    cases ht
  · obtain ⟨target, htarget, hrole⟩ := h id shape t hshape ht hreads
    refine ⟨target, ?_, hrole⟩
    rw [shape?_addState, if_neg, htarget]
    intro heq
    rw [heq, hnew] at htarget
    cases htarget

/-- A transition can be added if it reads nothing, or leads to where one that reads
may lead. -/
theorem addTransition (h : g.Lands) (source : StateId) {t : Transition}
    (ht : t.isEpsilon = false → ∃ target, g.shape? t.target = some target ∧ target.role = .basic) :
    (g.addTransition source t).Lands := by
  have hkept (id : StateId) : (∃ target, g.shape? id = some target ∧ target.role = .basic) →
      ∃ target, (g.addTransition source t).shape? id = some target ∧ target.role = .basic := by
    rintro ⟨target, htarget, hrole⟩
    rw [shape?_addTransition, htarget]
    split
    · exact ⟨_, rfl, hrole⟩
    · exact ⟨target, rfl, hrole⟩
  intro id shape t' hshape ht' hreads
  rw [shape?_addTransition] at hshape
  split at hshape
  · obtain ⟨old, hold, rfl⟩ := Option.map_eq_some_iff.mp hshape
    rcases List.mem_append.mp ht' with hbefore | hlast
    · exact hkept _ (h id old t' hold hbefore hreads)
    · obtain rfl := List.mem_singleton.mp hlast
      exact hkept _ (ht hreads)
  · exact hkept _ (h id shape t' hshape ht' hreads)

end Graph.Lands

/-- What holds of a graph holds of it behind the work, if the work succeeds. -/
def Wiring.Keeps {α : Type} (P : Graph → Prop) (w : Wiring α) : Prop :=
  ∀ g a g', P g → w.run g = .ok (a, g') → P g'

open Wiring in
/-- Only edges read, and an edge leads to a state of its own. -/
theorem Graph.Lands.piecewise : Wiring.Piecewise fun w => w.Keeps Graph.Lands where
  pure a := by
    intro g _ g' h hrun
    obtain ⟨_, rfl⟩ := pure_ok.mp hrun
    exact h
  bind hw hf := by
    intro g b g' h hrun
    obtain ⟨a, g₁, hfirst, hrest⟩ := bind_ok.mp hrun
    exact hf a g₁ b g' (hw g a g₁ h hfirst) hrest
  throw _ := fun _ _ _ _ hrun => absurd hrun throw_ok
  get := by
    intro g _ g' h hrun
    obtain ⟨_, rfl⟩ := get_ok.mp hrun
    exact h
  newState scope role := by
    intro g id g' h hrun
    have heq := modifyGet_ok.mp hrun
    have hlast := h.addState role scope.rule
    rwa [heq] at hlast
  connect source target := by
    intro g _ g' h hrun
    obtain rfl := modify_ok.mp hrun
    exact h.addTransition source nofun
  edge scope make hmake := by
    intro g seg g' h hrun
    obtain ⟨_, rfl⟩ := edge_run hrun
    refine ((h.addState _ _).addState _ _).addTransition _ fun hreads => ?_
    rw [(hmake _).resolve_right (by simp [hreads]), Graph.shape?_addState]
    simp
  call source start follow rule level := by
    intro g _ g' h hrun
    obtain rfl := modify_ok.mp hrun
    exact h.addTransition source nofun
  predicate text := by
    intro g index g' h hrun
    have heq := modifyGet_ok.mp hrun
    have hlast : (g.addPredicate text).2.Lands := h.of_shapes fun _ => rfl
    rwa [heq] at hlast
  action text := by
    intro g index g' h hrun
    have heq := modifyGet_ok.mp hrun
    have hlast : (g.addAction text).2.Lands := h.of_shapes fun _ => rfl
    rwa [heq] at hlast
  label id name := by
    intro g _ g' h hrun
    obtain rfl := modify_ok.mp hrun
    exact h.of_shapes fun _ => Graph.shape?_setLabel ..

theorem lands_addRule {g : Graph} (h : g.Lands) (name : String) (leftRecursive : Bool) :
    (g.addRule name leftRecursive).Lands :=
  ((h.addState .ruleStart g.rules.size).addState .ruleStop g.rules.size).of_shapes fun _ => rfl

theorem lands_wireRules {rules : List Rule} {v : Vocabulary} {g : Graph}
    (h : wireRules rules v = .ok g) : g.Lands := by
  have hspans (rules : List Rule) (g : Graph) (hg : g.Lands) :
      (rules.foldl (fun (g : Graph) r => g.addRule r.name r.leftRecursive) g).Lands := by
    induction rules generalizing g with
    | nil => exact hg
    | cons r rules ih => exact ih _ (lands_addRule hg r.name r.leftRecursive)
  have hwork := Graph.Lands.piecewise.wireRules rules v
  simp only [wireRules, bind, Except.bind, pure, Except.pure] at h
  split at h
  · cases h
  · rename_i result hrun
    cases h
    exact hwork _ _ _ (hspans rules {} .empty) hrun

/-- In the network of a grammar, what is read leads to a state without a part to
play. -/
theorem Definition.lands_of_build {d : Definition} {g : Grammar} (h : d.build = .ok g) :
    g.network.toGraph.Lands := by
  obtain ⟨rules, hnet⟩ : ∃ rules, networkOfRules rules g.vocabulary = .ok g.network := by
    simp only [Definition.build, bind, Except.bind, pure, Except.pure] at h
    repeat
      split at h
      · cases h
    cases h
    exact ⟨_, ‹_›⟩
  unfold networkOfRules at hnet
  cases hwire : wireRules rules g.vocabulary with
  | error d => simp [hwire, bind, Except.bind] at hnet
  | ok graph =>
    cases hchecked : graph.toNetwork g.vocabulary.maxType with
    | error d => simp [hwire, hchecked, bind, Except.bind, Except.mapError] at hnet
    | ok n =>
      obtain rfl : n = g.network := by
        simpa [hwire, hchecked, bind, Except.bind, Except.mapError] using hnet
      rw [(Graph.toNetwork_ok hchecked).1]
      exact (lands_wireRules hwire).of_shapes fun _ => rfl

end AdaptiveLL
