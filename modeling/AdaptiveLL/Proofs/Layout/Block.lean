/-
Wiring lays blocks and loops.

The branches of a block are wired one after the other.  What they add lies behind
the entry and exit of the block, so each keeps its layout while the next ones are
wired.
-/
import AdaptiveLL.Proofs.Layout.Wiring

namespace AdaptiveLL

namespace Graph

variable {g g' G : Graph}

/-- Two graphs show the same from `lo` up to `hi`. -/
structure Matches (G g : Graph) (lo hi : Nat) : Prop where
  rules_eq : G.rules = g.rules
  shape_eq : ∀ id : Nat, lo ≤ id → id < hi → G.shape? id = g.shape? id

theorem Matches.mono {lo hi lo' hi' : Nat} (h : G.Matches g lo hi) (hlo : lo ≤ lo')
    (hhi : hi' ≤ hi) : G.Matches g lo' hi' where
  rules_eq := h.rules_eq
  shape_eq id hid hid' := h.shape_eq id (by omega) (by omega)

theorem Matches.leadsTo {lo hi : Nat} (h : G.Matches g lo hi) {rule : RuleIndex} {id : Nat}
    {target : Nat} (hlo : lo ≤ id) (hhi : id < hi) (hid : g.LeadsTo rule id target) :
    G.LeadsTo rule id target := by
  obtain ⟨role, hrole, hshape⟩ := hid
  exact ⟨role, hrole, by rw [h.shape_eq id hlo hhi, hshape]⟩

theorem Agrees.matches {lo hi exit lo' hi' : Nat} (h : G.Agrees g lo hi exit) (hlo : lo ≤ lo')
    (hhi : hi' ≤ hi) (hexit : exit < lo' ∨ hi' ≤ exit) : G.Matches g lo' hi' where
  rules_eq := h.rules_eq
  shape_eq id hid hid' := h.shape_eq id (by omega) (by omega) (by omega)

/-- An exit that leads on is the only state of a range that may differ from the
graph in which it did not. -/
theorem Matches.agrees {lo hi exit : Nat} (h : G.Matches g' lo hi)
    (hrules : g'.rules = g.rules)
    (hkept : ∀ id : Nat, lo ≤ id → id < hi → id ≠ exit → g'.shape? id = g.shape? id)
    (hlo : lo ≤ exit) (hhi : exit < hi)
    (hexit : ∀ shape, g.shape? exit = some shape →
      ∃ ts, g'.shape? exit = some { shape with transitions := ts }) :
    G.Agrees g lo hi exit where
  rules_eq := h.rules_eq.trans hrules
  shape_eq id hid hid' hne := by rw [h.shape_eq id hid hid', hkept id hid hid' hne]
  exit_eq shape hshape := by
    obtain ⟨ts, hts⟩ := hexit shape hshape
    exact ⟨ts, by rw [h.shape_eq exit hlo hhi, hts]⟩

end Graph

/-- The branches of a block were wired between two graphs, both of which have its
entry and exit. -/
structure Branched (scope : WiringScope) (role : StateRole) (entry exit : Nat) (es : List Expr)
    (g g' : Graph) (parts : List Part) : Prop where
  exprs : parts.map Part.expr = es
  size_le : g.states.size ≤ g'.states.size
  rules_eq : g'.rules = g.rules
  kept : ∀ id : Nat, id < g.states.size → id ≠ entry → g'.shape? id = g.shape? id
  entry_shape : ∀ ts, g.shape? entry = some ⟨role, scope.rule, ts⟩ →
    g'.shape? entry = some ⟨role, scope.rule, ts ++ parts.map fun x => .epsilon x.entry⟩
  leave : ∀ x ∈ parts, g'.LeadsTo scope.rule x.exit exit
  inside : ∀ x ∈ parts, g.states.size ≤ x.lo ∧ x.hi ≤ g'.states.size
  exit_mem : ∀ x ∈ parts, x.lo ≤ x.exit ∧ x.exit < x.hi
  cover : ∀ id : Nat, g.states.size ≤ id → id < g'.states.size →
    ∃ x ∈ parts, x.lo ≤ id ∧ id < x.hi
  laid : ∀ x ∈ parts, ∀ G : Graph, G.Matches g' x.lo x.hi →
    Laid G scope.vocabulary scope.rule x.expr x.entry x.exit x.lo x.hi

section

variable {scope : WiringScope} {role : StateRole} {entry exit : Nat} {e : Expr} {es : List Expr}
  {g g' : Graph}

theorem Branched.nil : Branched scope role entry exit [] g g [] where
  exprs := rfl
  size_le := Nat.le_refl _
  rules_eq := rfl
  kept _ _ _ := rfl
  entry_shape ts hts := by simpa using hts
  leave := by simp
  inside := by simp
  exit_mem := by simp
  cover id hlo hhi := by omega
  laid := by simp

/-- Joining a wired branch to the block changes what leaves the entry of the block
and what leaves the branch. -/
theorem Branched.cons {g₁ : Graph} {seg : Segment} {parts : List Part}
    (hentry : entry < g.states.size) (hwired : Wired scope e g seg.entry seg.exit g₁)
    (hrest : Branched scope role entry exit es
      ((g₁.addTransition entry (.epsilon seg.entry)).addTransition seg.exit (.epsilon exit))
      g' parts) :
    Branched scope role entry exit (e :: es) g g'
      (⟨e, seg.entry, seg.exit, g.states.size, g₁.states.size⟩ :: parts) := by
  have hsize := hwired.grown.size_le
  have hexit := hwired.exit_mem
  have hsize' := hrest.size_le
  simp only [Graph.states_size_addTransition] at hsize'
  have hne : entry ≠ seg.exit := by omega
  have hkept (id : Nat) (hid : id < g₁.states.size) (h₁ : id ≠ entry) (h₂ : id ≠ seg.exit) :
      g'.shape? id = g₁.shape? id := by
    rw [hrest.kept id (by simpa using hid) h₁]
    simp [Graph.shape?_addTransition, h₁, h₂]
  have hrules : g'.rules = g₁.rules := hrest.rules_eq
  obtain ⟨role', hrole', hopen⟩ := hwired.exit_open
  have hexit' : g'.shape? seg.exit = some ⟨role', scope.rule, [.epsilon exit]⟩ := by
    rw [hrest.kept seg.exit (by simpa using hexit.2) hne.symm]
    simp [Graph.shape?_addTransition, hne.symm, hopen]
  refine ⟨by simp [hrest.exprs], by omega, hrules.trans hwired.grown.rules_eq, ?_, ?_, ?_, ?_,
    ?_, ?_, ?_⟩
  · intro id hid h₁
    rw [hkept id (by omega) h₁ (by omega), hwired.grown.shape_eq id hid]
  · intro ts hts
    have hstep := hrest.entry_shape (ts ++ [.epsilon seg.entry]) (by
      simp [Graph.shape?_addTransition, hne, hwired.grown.shape_eq entry hentry, hts])
    simpa using hstep
  · intro x hx
    rcases List.mem_cons.mp hx with rfl | hx
    · exact ⟨role', hrole', hexit'⟩
    · exact hrest.leave x hx
  · intro x hx
    rcases List.mem_cons.mp hx with rfl | hx
    · exact ⟨Nat.le_refl _, hsize'⟩
    · have hx' := hrest.inside x hx
      simp only [Graph.states_size_addTransition] at hx'
      exact ⟨by omega, hx'.2⟩
  · intro x hx
    rcases List.mem_cons.mp hx with rfl | hx
    · exact hexit
    · exact hrest.exit_mem x hx
  · intro id hlo hhi
    by_cases hid : id < g₁.states.size
    · exact ⟨_, List.mem_cons_self, hlo, hid⟩
    · obtain ⟨x, hx, hmem⟩ := hrest.cover id (by simp; omega) hhi
      exact ⟨x, List.mem_cons_of_mem _ hx, hmem⟩
  · intro x hx G hG
    rcases List.mem_cons.mp hx with rfl | hx
    · refine hwired.laid G (hG.agrees hrules ?_ hexit.1 hexit.2 ?_)
      · intro id hlo hhi h₂
        have hlo : g.states.size ≤ id := hlo
        exact hkept id hhi (by omega) h₂
      · intro shape hshape
        rw [hopen, Option.some.injEq] at hshape
        subst hshape
        exact ⟨_, hexit'⟩
    · exact hrest.laid x hx G hG

/-- The work of a block on its alternatives. -/
theorem branches_run (role : StateRole) {ws : List (Wiring Segment)}
    (hws : List.Forall₂ (Wires scope) es ws) (hentry : entry < g.states.size)
    (h : (forIn ws PUnit.unit fun alternative _ => do
        let segment ← alternative
        WiringScope.connect entry segment.entry
        WiringScope.connect segment.exit exit
        pure (ForInStep.yield PUnit.unit) : Wiring PUnit).run g = .ok (PUnit.unit, g')) :
    ∃ parts, Branched scope role entry exit es g g' parts := by
  induction hws generalizing g with
  | nil =>
    rw [List.forIn_nil, Wiring.pure_ok] at h
    obtain ⟨_, rfl⟩ := h
    exact ⟨[], .nil⟩
  | cons hw _ ih =>
    simp only [List.forIn_cons, Wiring.bind_ok, WiringScope.connect, Wiring.modify_ok,
      Wiring.pure_ok] at h
    obtain ⟨_, g₄, ⟨seg, g₁, hseg, _, g₂, rfl, _, g₃, rfl, rfl, rfl⟩, hrest⟩ := h
    have hwired := hw _ _ _ hseg
    have hsize := hwired.grown.size_le
    obtain ⟨parts, hparts⟩ := ih (by simpa using (by omega : entry < g₁.states.size)) hrest
    exact ⟨_, hparts.cons hentry hwired⟩

theorem newState_run {role : StateRole} {id : StateId} :
    (scope.newState role).run g = .ok (id, g') ↔
      id = g.states.size ∧ g' = (g.addState role scope.rule).2 := by
  rw [WiringScope.newState, Wiring.modifyGet_ok, Graph.addState, Prod.mk.injEq, eq_comm,
    @eq_comm _ g']

end

/-- A block was wired between two graphs, on the states that the second one has and
the first one has not. -/
structure WiredBlock (scope : WiringScope) (role : StateRole) (es : List Expr) (g : Graph)
    (entry exit : Nat) (g' : Graph) (parts : List Part) : Prop where
  grown : g.Extends g'
  entry_mem : g.states.size ≤ entry ∧ entry < g'.states.size
  exit_mem : g.states.size ≤ exit ∧ exit < g'.states.size
  ne : entry ≠ exit
  exprs : parts.map Part.expr = es
  exit_shape : g'.shape? exit = some ⟨.blockEnd, scope.rule, []⟩
  branches : ∀ G : Graph, G.Agrees g' g.states.size g'.states.size exit →
    Branches G scope.rule role entry exit g.states.size g'.states.size parts ∧
      ∀ x ∈ parts, Laid G scope.vocabulary scope.rule x.expr x.entry x.exit x.lo x.hi

section

variable {scope : WiringScope} {role : StateRole} {es : List Expr} {g g' : Graph} {seg : Segment}

theorem block_run {ws : List (Wiring Segment)} (hws : List.Forall₂ (Wires scope) es ws)
    (h : (scope.block role ws).run g = .ok (seg, g')) :
    ∃ parts, WiredBlock scope role es g seg.entry seg.exit g' parts := by
  simp only [WiringScope.block, Wiring.bind_ok, newState_run, Wiring.pure_ok] at h
  obtain ⟨entry, g₁, ⟨rfl, rfl⟩, exit, g₂, ⟨rfl, rfl⟩, _, g₃, hloop, rfl, rfl⟩ := h
  have hadded : ((g.addState role scope.rule).2.addState .blockEnd scope.rule).2.states.size =
      g.states.size + 2 := by rw [Graph.states_size_addState, Graph.states_size_addState]
  obtain ⟨parts, hparts⟩ := branches_run role hws (by omega) hloop
  have hsize : g.states.size + 2 ≤ g₃.states.size := hadded ▸ hparts.size_le
  have hentry : g₃.shape? g.states.size =
      some ⟨role, scope.rule, parts.map fun x => .epsilon x.entry⟩ := by
    simpa using hparts.entry_shape [] (by simp [Graph.shape?_addState])
  have hexit : g₃.shape? (g.states.size + 1) = some ⟨.blockEnd, scope.rule, []⟩ := by
    have hkept := hparts.kept (g.states.size + 1) (by simp) (by omega)
    simpa [Graph.shape?_addState] using hkept
  refine ⟨parts, ⟨by omega, hparts.rules_eq, ?_⟩, ⟨Nat.le_refl _, by dsimp only; omega⟩,
    ⟨by simp, by simpa using (by omega : g.states.size + 1 < g₃.states.size)⟩, by simp,
    hparts.exprs, by simpa using hexit, ?_⟩
  · intro id hid
    rw [hparts.kept id (by simp; omega) (by omega)]
    simp [Graph.shape?_addState, Nat.ne_of_lt hid, Nat.ne_of_lt (Nat.lt_succ_of_lt hid)]
  · intro G hG
    simp only [Graph.states_size_addState] at hG ⊢
    have hinside (x : Part) (hx : x ∈ parts) :
        g.states.size + 2 ≤ x.lo ∧ x.hi ≤ g₃.states.size := hadded ▸ hparts.inside x hx
    have hmatches : G.Matches g₃ (g.states.size + 2) g₃.states.size :=
      hG.matches (by omega) (Nat.le_refl _) (by omega)
    have hlaid (x : Part) (hx : x ∈ parts) :
        Laid G scope.vocabulary scope.rule x.expr x.entry x.exit x.lo x.hi :=
      hparts.laid x hx G (hmatches.mono (hinside x hx).1 (hinside x hx).2)
    refine ⟨⟨?_, ?_, by omega, by omega, ?_, ?_⟩, hlaid⟩
    · rw [hG.shape_eq g.states.size (by omega) (by omega) (by omega), hentry]
    · intro x hx
      have hx' := hparts.exit_mem x hx
      have hx'' := hinside x hx
      exact hmatches.leadsTo (by omega) (by omega) (by simpa using hparts.leave x hx)
    · intro x hx
      have hx' := hinside x hx
      exact ⟨by omega, hx'.2⟩
    · intro id hlo hhi
      by_cases hid : g.states.size + 2 ≤ id
      · obtain ⟨x, hx, hmem⟩ := hparts.cover id (hadded ▸ hid) hhi
        exact .inr (.inr ⟨x, hx, hmem⟩)
      · omega

theorem WiredBlock.exit_open {entry exit : Nat} {parts : List Part}
    (hblock : WiredBlock scope role es g entry exit g' parts) :
    ∃ role : StateRole, role.Plain ∧ g'.shape? exit = some ⟨role, scope.rule, []⟩ :=
  ⟨.blockEnd, by decide, hblock.exit_shape⟩

/-- The block lies in a graph that shows what a later one does, if that one leads on from
the exit and is else the same on the states of the block. -/
theorem WiredBlock.branches_of_exit {entry exit : Nat} {parts : List Part} {G G' : Graph}
    {ts : List Transition} (hblock : WiredBlock scope role es g entry exit g' parts)
    (hmatches : G.Matches G' g.states.size g'.states.size) (hrules : G'.rules = g'.rules)
    (hkept : ∀ id : Nat, g.states.size ≤ id → id < g'.states.size → id ≠ exit →
      G'.shape? id = g'.shape? id)
    (hexit : G'.shape? exit = some ⟨.blockEnd, scope.rule, ts⟩) :
    Branches G scope.rule role entry exit g.states.size g'.states.size parts ∧
      ∀ x ∈ parts, Laid G scope.vocabulary scope.rule x.expr x.entry x.exit x.lo x.hi := by
  refine hblock.branches G (hmatches.agrees hrules hkept hblock.exit_mem.1 hblock.exit_mem.2 ?_)
  intro shape hs
  rw [hblock.exit_shape, Option.some.injEq] at hs
  subst hs
  exact ⟨_, hexit⟩

theorem wires_starLoop {e body : Expr} {operators : Bool} {ws : List (Wiring Segment)}
    (he : HeadLoop e body operators) (hws : List.Forall₂ (Wires scope) body.lent ws) :
    Wires scope e (scope.starLoop operators ws) := by
  intro g seg g' h
  simp only [WiringScope.starLoop, Wiring.bind_ok, newState_run, Wiring.pure_ok,
    WiringScope.connect, Wiring.modify_ok] at h
  obtain ⟨_, g₁, ⟨rfl, rfl⟩, block, g₂, hblock, _, g₃, ⟨rfl, rfl⟩, _, g₄, ⟨rfl, rfl⟩,
    _, _, rfl, _, _, rfl, _, _, rfl, _, _, rfl, rfl, rfl⟩ := h
  obtain ⟨parts, hparts⟩ := block_run hws hblock
  obtain ⟨(entry : Nat), (exit : Nat)⟩ := block
  have hsize : g.states.size + 1 ≤ g₂.states.size := by simpa using hparts.grown.size_le
  have hentry : g.states.size + 1 ≤ entry ∧ entry < g₂.states.size := by
    simpa using hparts.entry_mem
  have hexit : g.states.size + 1 ≤ exit ∧ exit < g₂.states.size := by
    simpa using hparts.exit_mem
  have hhead : g₂.shape? g.states.size = some ⟨.starLoopEntry operators, scope.rule, []⟩ := by
    rw [hparts.grown.shape_eq _ (by simp), Graph.shape?_addState, if_pos rfl]
  have hshape : g₂.shape? exit = some ⟨.blockEnd, scope.rule, []⟩ := hparts.exit_shape
  simp only [Graph.states_size_addState]
  set G' :=
    ((((((g₂.addState .starLoopBack scope.rule).2.addState .loopEnd scope.rule).2.addTransition
    g.states.size (.epsilon entry)).addTransition g.states.size
    (.epsilon (g₂.states.size + 1))).addTransition exit (.epsilon g₂.states.size)).addTransition
    g₂.states.size (.epsilon g.states.size)) with hG'
  have hkept (id : Nat) (hid : id < g₂.states.size) (h₁ : id ≠ g.states.size) (h₂ : id ≠ exit) :
      G'.shape? id = g₂.shape? id := by
    simp [hG', Graph.shape?_addTransition, Graph.shape?_addState, h₁, h₂, Nat.ne_of_lt hid,
      Nat.ne_of_lt (Nat.lt_succ_of_lt hid)]
  have hgrow : G'.states.size = g₂.states.size + 2 := by simp [hG']
  have hrules : G'.rules = g₂.rules := by simp [hG']
  have hnotExit : g.states.size ≠ exit := by omega
  have hexit' : G'.shape? exit = some ⟨.blockEnd, scope.rule, [.epsilon g₂.states.size]⟩ := by
    simp [hG', Graph.shape?_addTransition, Graph.shape?_addState, hnotExit.symm,
      Nat.ne_of_lt hexit.2, Nat.ne_of_lt (Nat.lt_succ_of_lt hexit.2), hshape]
  have hend : G'.shape? (g₂.states.size + 1) = some ⟨.loopEnd, scope.rule, []⟩ := by
    have h₁ : g₂.states.size + 1 ≠ g.states.size := by omega
    have h₂ : g₂.states.size + 1 ≠ exit := by omega
    simp [hG', Graph.shape?_addTransition, Graph.shape?_addState, h₁, h₂]
  have hlt : g.states.size < G'.states.size := by omega
  refine ⟨⟨by omega, ?_, ?_⟩, ⟨Nat.le_refl _, hlt⟩, ⟨by omega, by omega⟩,
    ⟨.loopEnd, by decide, hend⟩, ?_⟩
  · exact hrules.trans hparts.grown.rules_eq
  · intro id hid
    rw [hkept id (by omega) (by omega) (by omega),
      hparts.grown.shape_eq id (by simp; omega), Graph.shape?_addState,
      if_neg (Nat.ne_of_lt hid)]
  · intro G hG
    rw [hgrow] at hG ⊢
    have hmatches : G.Matches G' g.states.size (g₂.states.size + 1) :=
      hG.matches (Nat.le_refl _) (by omega) (by omega)
    have hinner := hparts.branches_of_exit
      (hmatches.mono (by simp) (Nat.le_succ _)) hrules
      (fun id hlo hhi hne => hkept id hhi (by simp at hlo; omega) hne) hexit'
    simp only [Graph.states_size_addState] at hinner
    obtain ⟨ts, hts⟩ := hG.exit_eq _ hend
    refine .loop parts he hparts.exprs hinner.1 hinner.2 ?_ ?_ ?_ ⟨ts, hts⟩
    · rw [hmatches.shape_eq g.states.size (Nat.le_refl _) (by omega)]
      have h₁ : g₂.states.size ≠ g.states.size := by omega
      simp [hG', Graph.shape?_addTransition, Graph.shape?_addState, hnotExit, h₁.symm,
        Nat.ne_of_lt (Nat.lt_succ_of_lt hsize), hhead]
    · exact hmatches.leadsTo (by omega) (by omega) ⟨.blockEnd, by decide, hexit'⟩
    · rw [hmatches.shape_eq g₂.states.size (by omega) (by omega)]
      have h₁ : g₂.states.size ≠ g.states.size := by omega
      have h₂ : g₂.states.size ≠ exit := by omega
      simp [hG', Graph.shape?_addTransition, Graph.shape?_addState, h₁, h₂]

theorem wires_plusLoop {body : Expr} {ws : List (Wiring Segment)}
    (hws : List.Forall₂ (Wires scope) body.lent ws) :
    Wires scope (.plus body) (scope.plusLoop ws) := by
  intro g seg g' h
  simp only [WiringScope.plusLoop, Wiring.bind_ok, newState_run, Wiring.pure_ok,
    WiringScope.connect, Wiring.modify_ok] at h
  obtain ⟨block, g₁, hblock, _, g₂, ⟨rfl, rfl⟩, _, g₃, ⟨rfl, rfl⟩, _, _, rfl, _, _, rfl,
    _, _, rfl, rfl, rfl⟩ := h
  obtain ⟨parts, hparts⟩ := block_run hws hblock
  obtain ⟨(entry : Nat), (exit : Nat)⟩ := block
  have hsize := hparts.grown.size_le
  have hentry := hparts.entry_mem
  have hexit := hparts.exit_mem
  have hnotExit := hparts.ne
  have hshape : g₁.shape? exit = some ⟨.blockEnd, scope.rule, []⟩ := hparts.exit_shape
  dsimp only at hentry hexit hnotExit
  simp only [Graph.states_size_addState]
  set G' :=
    (((((g₁.addState .plusLoopBack scope.rule).2.addState .loopEnd scope.rule).2.addTransition
    exit (.epsilon g₁.states.size)).addTransition g₁.states.size (.epsilon entry)).addTransition
    g₁.states.size (.epsilon (g₁.states.size + 1))) with hG'
  have hkept (id : Nat) (hid : id < g₁.states.size) (hne : id ≠ exit) :
      G'.shape? id = g₁.shape? id := by
    simp [hG', Graph.shape?_addTransition, Graph.shape?_addState, hne, Nat.ne_of_lt hid,
      Nat.ne_of_lt (Nat.lt_succ_of_lt hid)]
  have hgrow : G'.states.size = g₁.states.size + 2 := by simp [hG']
  have hrules : G'.rules = g₁.rules := by simp [hG']
  have hexit' : G'.shape? exit = some ⟨.blockEnd, scope.rule, [.epsilon g₁.states.size]⟩ := by
    simp [hG', Graph.shape?_addTransition, Graph.shape?_addState, Nat.ne_of_lt hexit.2,
      Nat.ne_of_lt (Nat.lt_succ_of_lt hexit.2), hshape]
  have hend : G'.shape? (g₁.states.size + 1) = some ⟨.loopEnd, scope.rule, []⟩ := by
    have hne : g₁.states.size + 1 ≠ exit := by omega
    simp [hG', Graph.shape?_addTransition, Graph.shape?_addState, hne]
  refine ⟨⟨by omega, ?_, ?_⟩, ⟨hentry.1, by omega⟩, ⟨by omega, by omega⟩,
    ⟨.loopEnd, by decide, hend⟩, ?_⟩
  · exact hrules.trans hparts.grown.rules_eq
  · intro id hid
    have hne : id ≠ exit := by omega
    rw [hkept id (Nat.lt_of_lt_of_le hid hsize) hne, hparts.grown.shape_eq id hid]
  · intro G hG
    rw [hgrow] at hG ⊢
    have hmatches : G.Matches G' g.states.size (g₁.states.size + 1) :=
      hG.matches (Nat.le_refl _) (by omega) (by omega)
    have hinner := hparts.branches_of_exit (hmatches.mono (Nat.le_refl _) (Nat.le_succ _))
      hrules (fun id _ hhi hne => hkept id hhi hne) hexit'
    obtain ⟨ts, hts⟩ := hG.exit_eq _ hend
    refine .plus parts hparts.exprs hinner.1 hinner.2 ?_ ?_ ⟨ts, hts⟩
    · exact hmatches.leadsTo hexit.1 (Nat.lt_succ_of_lt hexit.2) ⟨.blockEnd, by decide, hexit'⟩
    · rw [hmatches.shape_eq g₁.states.size hsize (by omega)]
      have hne : g₁.states.size ≠ exit := by omega
      simp [hG', Graph.shape?_addTransition, Graph.shape?_addState, hne]

theorem wires_optional {body : Expr} {ws : List (Wiring Segment)}
    (hws : List.Forall₂ (Wires scope) (body.lent ++ [.empty]) ws) :
    Wires scope (.optional body) (scope.block .blockStart ws) := by
  intro g seg g' h
  obtain ⟨parts, hparts⟩ := block_run hws h
  exact ⟨hparts.grown, hparts.entry_mem, hparts.exit_mem, hparts.exit_open, fun G hG =>
    .optional parts hparts.exprs (hparts.branches G hG).1 (hparts.branches G hG).2⟩

theorem wires_block {ws : List (Wiring Segment)} (hform : Expr.formTokenChoice es = false)
    (hmany : 1 < es.length) (hws : List.Forall₂ (Wires scope) es ws) :
    Wires scope (.choice es) (scope.block .blockStart ws) := by
  intro g seg g' h
  obtain ⟨parts, hparts⟩ := block_run hws h
  exact ⟨hparts.grown, hparts.entry_mem, hparts.exit_mem, hparts.exit_open, fun G hG =>
    .choice parts hparts.exprs hform hmany (hparts.branches G hG).1 (hparts.branches G hG).2⟩

end

end AdaptiveLL
