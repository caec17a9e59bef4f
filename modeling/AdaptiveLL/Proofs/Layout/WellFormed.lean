/-
The graph of a grammar is well formed.

Wiring makes states of few forms, and each leads on to the exit of the expression
that it belongs to.  So there is a way from every state to the end of its rule, and
the check of the graph finds nothing: what is wrong with a grammar is reported
before its graph is made.
-/
import AdaptiveLL.Proofs.Layout.Pieces
import AdaptiveLL.Proofs.Network
import Mathlib.Logic.Relation

namespace AdaptiveLL

/-- A step within a rule: along a transition, and over a call to where it comes back. -/
def Graph.StepsOver (g : Graph) (rule : RuleIndex) (id id' : StateId) : Prop :=
  ∃ s, g.state? id = some s ∧ s.rule = rule ∧ ∃ t ∈ s.transitions, t.lands = id'

/-- There is a way within a rule, over its calls. -/
def Graph.Reaches (g : Graph) (rule : RuleIndex) : StateId → StateId → Prop :=
  Relation.ReflTransGen (g.StepsOver rule)

/-- What prediction and recovery take for granted about a graph. -/
structure Graph.WellFormed (g : Graph) : Prop where
  exits : ∀ {id : Nat} {s : State}, g.state? id = some s → s.isStop = false → s.transitions ≠ []
  decisions : ∀ {id : Nat} {s : State}, g.state? id = some s → 1 < s.transitions.length →
    s.role.offersAlternatives = true ∧ ∀ t ∈ s.transitions, ∃ target, t = .epsilon target
  reads : ∀ {id : Nat} {s : State} {t : Transition}, g.state? id = some s → t ∈ s.transitions →
    t.isEpsilon = false → s.transitions = [t]
  targets : ∀ {id : Nat} {s : State} {t : Transition}, g.state? id = some s → t ∈ s.transitions →
    t.call? = none → ∃ s', g.state? t.target = some s' ∧ s'.rule = s.rule
  calls : ∀ {id : Nat} {s : State} {start follow : StateId} {callee : RuleIndex} {level : Int},
    g.state? id = some s → .call start callee follow level ∈ s.transitions →
      (∃ span, g.rule? callee = some span ∧ start = span.start ∧
        ∃ s', g.state? start = some s' ∧ s'.role = .ruleStart ∧ s'.rule = callee) ∧
      ∃ s', g.state? follow = some s' ∧ s'.rule = s.rule
  stop : ∀ {id : Nat} {s : State}, g.state? id = some s → ∃ span, g.rule? s.rule = some span ∧
    g.Reaches s.rule id span.stop ∧
      ∃ s', g.state? span.stop = some s' ∧ s'.isStop = true ∧ s'.rule = s.rule

section Reaches

variable {g : Graph} {v : Vocabulary} {rule : RuleIndex} {e : Expr} {entry exit lo hi : Nat}

theorem Graph.Reaches.of_shape {id target : StateId} {role : StateRole} {ts : List Transition}
    {t : Transition} (hshape : g.shape? id = some ⟨role, rule, ts⟩) (ht : t ∈ ts)
    (h : g.Reaches rule t.lands target) : g.Reaches rule id target := by
  obtain ⟨s, hs, heq⟩ := Graph.state?_of_shape? hshape
  obtain ⟨rfl, rfl, rfl⟩ := Shape.mk.inj heq
  exact .head ⟨s, hs, rfl, t, ht, rfl⟩ h

theorem Graph.Reaches.hop {id target : StateId} {next : Nat} (hleads : g.LeadsTo rule id next)
    (h : g.Reaches rule next target) : g.Reaches rule id target := by
  obtain ⟨_, _, hshape⟩ := hleads
  exact .of_shape hshape List.mem_cons_self h

theorem EdgeFor.lands {t : Transition} (h : EdgeFor g v rule exit e t) : t.lands = exit := by
  cases h <;> rfl

/-- From every state of a block there is a way to its exit, if there is one in every
branch. -/
theorem Branches.reaches {role : StateRole} {parts : List Part}
    (hbranches : Branches g rule role entry exit lo hi parts) (hne : parts ≠ [])
    (hparts : ∀ x ∈ parts, Laid g v rule x.expr x.entry x.exit x.lo x.hi)
    (hreaches : ∀ x ∈ parts, ∀ s : Nat, x.lo ≤ s → s < x.hi → g.Reaches rule s x.exit)
    (s : Nat) (hlo : lo ≤ s) (hhi : s < hi) : g.Reaches rule s exit := by
  have hleave (x : Part) (hx : x ∈ parts) (s : Nat) (hlo : x.lo ≤ s) (hhi : s < x.hi) :
      g.Reaches rule s exit :=
    (hreaches x hx s hlo hhi).trans (Graph.Reaches.hop (hbranches.leave x hx) .refl)
  rcases hbranches.cover s hlo hhi with rfl | rfl | ⟨x, hx, hin⟩
  · obtain ⟨x, hx⟩ := List.exists_mem_of_ne_nil parts hne
    have hentry := (hparts x hx).mem.1
    exact .of_shape hbranches.entry_shape (List.mem_map_of_mem hx)
      (hleave x hx x.entry hentry.1 hentry.2)
  · exact .refl
  · exact hleave x hx s hin.1 hin.2

/-- From every state of an expression there is a way to its exit. -/
theorem Laid.reaches (hlaid : Laid g v rule e entry exit lo hi) (s : Nat) (hlo : lo ≤ s)
    (hhi : s < hi) : g.Reaches rule s exit := by
  induction hlaid generalizing s with
  | @edge e t entry hedge hentry =>
    obtain rfl | rfl : s = entry ∨ s = entry + 1 := by omega
    · apply Graph.Reaches.of_shape hentry List.mem_cons_self
      rw [hedge.lands]
      exact .refl
    · exact .refl
  | only _ ih | single _ ih | label _ ih | rightAssoc _ ih => exact ih s hlo hhi
  | @chain e next rest entry mid mid' exit lo cut hi hfirst hrest hmid ih ih' =>
    by_cases hcut : s < cut
    · have hentry := hrest.mem.1
      exact (ih s hlo hcut).trans (Graph.Reaches.hop hmid (ih' mid' hentry.1 hentry.2))
    · exact ih' s (by omega) hhi
  | choice parts hparts hform hmany hbranches hlaid ih =>
    have hne : parts ≠ [] := by
      rintro rfl
      simp [← hparts] at hmany
    exact hbranches.reaches hne hlaid ih s hlo hhi
  | optional parts hparts hbranches hlaid ih =>
    have hne : parts ≠ [] := by
      rintro rfl
      simp at hparts
    exact hbranches.reaches hne hlaid ih s hlo hhi
  | @loop e body operators block blockEnd lo hi parts he hparts hbranches hlaid hentry hend hback
      hexit ih =>
    have hne : parts ≠ [] := by
      rintro rfl
      exact Expr.lent_ne_nil body hparts.symm
    have hhead : g.Reaches rule lo (hi + 1) :=
      .of_shape hentry (List.mem_cons_of_mem _ List.mem_cons_self) .refl
    have hagain : g.Reaches rule hi (hi + 1) := .of_shape hback List.mem_cons_self hhead
    obtain rfl | rfl | rfl | hin : s = lo ∨ s = hi ∨ s = hi + 1 ∨ lo + 1 ≤ s ∧ s < hi := by omega
    · exact hhead
    · exact hagain
    · exact .refl
    · exact (hbranches.reaches hne hlaid ih s hin.1 hin.2).trans (Graph.Reaches.hop hend hagain)
  | @plus body block blockEnd lo hi parts hparts hbranches hlaid hend hback hexit ih =>
    have hne : parts ≠ [] := by
      rintro rfl
      exact Expr.lent_ne_nil body hparts.symm
    have hagain : g.Reaches rule hi (hi + 1) :=
      .of_shape hback (List.mem_cons_of_mem _ List.mem_cons_self) .refl
    obtain rfl | rfl | hin : s = hi ∨ s = hi + 1 ∨ s < hi := by omega
    · exact hagain
    · exact .refl
    · exact (hbranches.reaches hne hlaid ih s hlo hin).trans (Graph.Reaches.hop hend hagain)

end Reaches

namespace RulesLaid

variable {g : Graph} {v : Vocabulary} {rules : List Rule}

/-- From every state of a rule there is a way to its end. -/
theorem reaches_stop (hrules : RulesLaid g v rules) {id : Nat} {s : State}
    (hs : g.state? id = some s) : ∃ span, g.rule? s.rule = some span ∧
      g.Reaches s.rule id span.stop ∧
        ∃ s', g.state? span.stop = some s' ∧ s'.isStop = true ∧ s'.rule = s.rule := by
  obtain ⟨i, r, span, x, hr, hlaid, hcases⟩ := hrules.cover id (Graph.lt_of_state? hs)
  have hbody (s : Nat) (hlo : x.lo ≤ s) (hhi : s < x.hi) : g.Reaches i s span.stop :=
    (hlaid.body.reaches s hlo hhi).trans (Graph.Reaches.hop hlaid.leave .refl)
  have hentry := hlaid.body.mem.1
  obtain ⟨hreaches, s₀, hs₀, rfl⟩ : g.Reaches i id span.stop ∧
      ∃ s₀, g.state? id = some s₀ ∧ s₀.rule = i := by
    rcases hcases with rfl | hnear
    · obtain ⟨s₀, hs₀, heq⟩ := Graph.state?_of_shape? hlaid.start_shape
      refine ⟨?_, s₀, hs₀, (Shape.mk.inj heq).2.1⟩
      exact .of_shape hlaid.start_shape List.mem_cons_self (hbody x.entry hentry.1 hentry.2)
    · refine ⟨?_, state_of_near hlaid hnear⟩
      rcases hnear with rfl | hin
      · exact .refl
      · exact hbody id hin.1 hin.2
  obtain rfl := Option.some.inj (hs.symm.trans hs₀)
  obtain ⟨s', hs', heq⟩ := Graph.state?_of_shape? hlaid.stop_shape
  obtain ⟨hrole, hrule, _⟩ := Shape.mk.inj heq
  exact ⟨span, hlaid.span_eq, hreaches, s', hs', by simp [State.isStop, hrole], hrule⟩

/-- The graph that lays some rules is well formed. -/
theorem wellFormed (hrules : RulesLaid g v rules) : g.WellFormed where
  exits hs hrun := by
    obtain ⟨_, _, _, _, _, ⟨_, hstop⟩ | ⟨_, hform⟩⟩ := hrules.state_cases hs
    · rw [hrun] at hstop
      cases hstop
    · exact hform.ne_nil
  decisions hs hmany := by
    have hmem := List.getElem_mem (Nat.zero_lt_of_lt hmany)
    obtain ⟨_, _, _, _, _, _, hform⟩ := hrules.form_of_mem hs hmem
    exact hform.decides hmany
  reads hs ht hreads := by
    obtain ⟨_, _, _, _, _, _, hform⟩ := hrules.form_of_mem hs ht
    exact (hform.single_of_read ht hreads).1
  targets := hrules.target_state
  calls hs ht := by
    obtain ⟨r, span, x, _, hlaid, hstart⟩ := hrules.call_target hs ht
    obtain ⟨s', hs', heq⟩ := Graph.state?_of_shape? hlaid.start_shape
    obtain ⟨hrole, hrule, _⟩ := Shape.mk.inj heq
    refine ⟨⟨span, hlaid.span_eq, hstart, s', ?_, hrole, hrule⟩, hrules.follow_state hs ht⟩
    rw [hstart]
    exact hs'
  stop := hrules.reaches_stop

end RulesLaid

section Check

variable {g : Graph}

namespace Graph.WellFormed

theorem checkExits (h : g.WellFormed) {id : Nat} {s : State} (hs : g.state? id = some s) :
    Graph.checkExits id s = .ok () := by
  unfold Graph.checkExits
  by_cases hstop : s.isStop = true
  · rw [if_pos (by simp [hstop])]
  · have hne := h.exits hs (by simpa using hstop)
    rw [if_pos (by simp [hne])]

theorem checkTransition (h : g.WellFormed) {id : Nat} {s : State} (hs : g.state? id = some s)
    {t : Transition} (ht : t ∈ s.transitions) : g.checkTransition id t = .ok () := by
  cases hcall : t.call? with
  | none =>
    obtain ⟨s', hs', _⟩ := h.targets hs ht hcall
    simp [Graph.checkTransition, hs', hcall]
  | some call =>
    cases t with
    | call start callee follow level =>
      obtain ⟨⟨_, _, _, s', hs', hrole, hrule⟩, s'', hs'', _⟩ := h.calls hs ht
      have hfollow := Graph.lt_of_state? hs''
      simp [Graph.checkTransition, Transition.target, Transition.call?, hs', hrole, hrule, hfollow]
    | _ => cases hcall

/-- The check finds nothing wrong with a graph that is well formed. -/
theorem check (h : g.WellFormed) : g.check = .ok () := by
  apply Except.forM_eq_ok.mpr
  rintro ⟨s, id⟩ hmem
  have hs : g.state? id = some s := by
    rwa [List.mem_zipIdx_iff_getElem?, Array.getElem?_toList] at hmem
  dsimp only
  rw [h.checkExits hs]
  exact Except.forM_eq_ok.mpr fun t ht => h.checkTransition hs ht

end Graph.WellFormed

end Check

/-- The work does not fail with a defect of a graph. -/
def SparesGraph {α : Type} (x : Except GrammarDefect α) : Prop :=
  ∀ defect, x ≠ .error (.network defect)

namespace SparesGraph

variable {α β : Type}

theorem ok (a : α) : SparesGraph (.ok a) :=
  nofun

theorem error {d : GrammarDefect} (h : ∀ defect, d ≠ .network defect) :
    SparesGraph (.error d : Except GrammarDefect α) :=
  fun defect heq => h defect (Except.error.inj heq)

theorem bind {x : Except GrammarDefect α} {f : α → Except GrammarDefect β} (hx : SparesGraph x)
    (hf : ∀ a, x = .ok a → SparesGraph (f a)) : SparesGraph (x >>= f) := by
  cases x with
  | error d => exact .error fun defect heq => hx defect (congrArg _ heq)
  | ok a => exact hf a rfl

theorem mapM {f : α → Except GrammarDefect β} (hf : ∀ a, SparesGraph (f a)) (xs : List α) :
    SparesGraph (xs.mapM f) := by
  induction xs with
  | nil =>
    rw [List.mapM_nil]
    exact .ok []
  | cons x xs ih =>
    rw [List.mapM_cons]
    exact .bind (hf x) fun y _ => .bind ih fun ys _ => .ok _

theorem mapError {ε : Type} {x : Except ε α} {f : ε → GrammarDefect}
    (h : ∀ e, x = .error e → ∀ defect, f e ≠ .network defect) : SparesGraph (x.mapError f) := by
  cases x with
  | error e => exact .error (h e rfl)
  | ok a => exact .ok a

end SparesGraph

/-- Wiring gives up for reasons of its own only. -/
theorem Wiring.piecewise_sparesGraph :
    Wiring.Piecewise fun {α} (w : Wiring α) => ∀ g, SparesGraph (w.run g) where
  pure a g := .ok (a, g)
  bind hw hf g := by
    rw [StateT.run_bind]
    exact .bind (hw g) fun result _ => hf result.1 result.2
  throw h _ := .error h
  get g := .ok (g, g)
  newState _ _ _ := .ok _
  connect _ _ _ := .ok _
  edge _ _ _ _ := .ok _
  call _ _ _ _ _ _ := .ok _
  predicate _ _ := .ok _
  action _ _ := .ok _
  label _ _ _ := .ok _

theorem sparesGraph_wireRules (rules : List Rule) (v : Vocabulary) :
    SparesGraph (wireRules rules v) := by
  apply SparesGraph.bind (Wiring.piecewise_sparesGraph.wireRules rules v _)
  intro result _
  exact .ok _

/-- The graph of rules that can be wired becomes a network, which is well formed. -/
theorem exists_networkOfRules {rules : List Rule} {v : Vocabulary} {g : Graph}
    (h : wireRules rules v = .ok g) : ∃ n, g.toNetwork v.maxType = .ok n ∧
      networkOfRules rules v = .ok n ∧ n.toGraph.WellFormed := by
  have hformed : Graph.WellFormed { g with maxType := v.maxType } :=
    (rulesLaid_wireRules h v.maxType).wellFormed
  have hcheck : g.check = .ok () := hformed.check
  obtain ⟨n, hn⟩ := Graph.toNetwork_of_check_ok hcheck v.maxType
  refine ⟨n, hn, ?_, ?_⟩
  · rw [networkOfRules, h]
    change (g.toNetwork v.maxType).mapError _ = _
    rw [hn]
    rfl
  · rw [(Graph.toNetwork_ok hn).1]
    exact hformed

theorem sparesGraph_networkOfRules (rules : List Rule) (v : Vocabulary) :
    SparesGraph (networkOfRules rules v) := by
  cases hwire : wireRules rules v with
  | error d =>
    have hspares := sparesGraph_wireRules rules v
    rw [networkOfRules, hwire]
    rw [hwire] at hspares
    exact hspares.bind nofun
  | ok g =>
    obtain ⟨n, _, hn, _⟩ := exists_networkOfRules hwire
    rw [hn]
    exact .ok n

mutual

theorem Definition.sparesGraph_checkNames : ∀ d : Definition, SparesGraph d.checkNames
  | ⟨_, _, _, _, imports⟩ => by
    rw [Definition.checkNames]
    split
    · exact .error nofun
    · exact Definition.sparesGraph_checkNamesOfAll imports

theorem Definition.sparesGraph_checkNamesOfAll : ∀ ds : List Definition,
    SparesGraph (Definition.checkNamesOfAll ds)
  | [] => .ok ()
  | d :: rest => .bind d.sparesGraph_checkNames fun _ _ =>
      Definition.sparesGraph_checkNamesOfAll rest

end

theorem Merged.sparesGraph_lexRules (m : Merged) (v : Vocabulary) : SparesGraph (m.lexRules v) := by
  have hrule (d : LexDefinition) : SparesGraph (Merged.lexRule? m.fragments v d) := by
    unfold Merged.lexRule?
    split
    · exact .ok none
    · apply SparesGraph.bind (.mapError nofun)
      intro pattern _
      dsimp only
      by_cases hnull : pattern.isNullable = true
      · rw [if_pos hnull]
        exact .bind (.error nofun) nofun
      · rw [if_neg hnull]
        split
        · exact .error nofun
        · exact .ok _
  exact .bind (.mapM hrule m.lexer) fun _ _ => .ok _

theorem Rule.sparesGraph_withOperators (r : Rule) : SparesGraph r.withOperators := by
  apply SparesGraph.bind (.mapError nofun)
  intro result _
  split <;> exact .ok _

theorem sparesGraph_checkProgress (rules : List Rule) : SparesGraph (checkProgress rules) := by
  unfold checkProgress
  split
  · exact .error nofun
  · exact .error nofun
  · exact .ok ()

theorem Definition.sparesGraph_build (d : Definition) : SparesGraph d.build := by
  apply SparesGraph.bind d.sparesGraph_checkNames
  intro _ _
  dsimp only
  split
  · exact .bind (.error nofun) nofun
  · apply SparesGraph.bind (d.merge.sparesGraph_lexRules _)
    intro lexRules _
    apply SparesGraph.bind (.mapM Rule.sparesGraph_withOperators _)
    intro rules _
    apply SparesGraph.bind (sparesGraph_checkProgress rules)
    intro _ _
    exact .bind (sparesGraph_networkOfRules rules _) fun _ _ => .ok _

/-- Where the bodies of some rules can be wired, their graph passes the check and is
well formed.  So no definition is refused for a defect of its graph. -/
theorem networkOfRules_wellFormed (rules : List Rule) (v : Vocabulary) :
    (∀ g, wireRules rules v = .ok g → ∃ n, g.toNetwork v.maxType = .ok n ∧
      networkOfRules rules v = .ok n ∧ n.toGraph.WellFormed) ∧
      ∀ (d : Definition) (defect : NetworkDefect), d.build ≠ .error (.network defect) :=
  ⟨fun _ h => exists_networkOfRules h, fun d => d.sparesGraph_build⟩

end AdaptiveLL
