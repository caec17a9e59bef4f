/-
The states of a network, one by one.

A state that ends no rule has one transition, or it is a decision between empty
transitions.  Transitions stay in the rule, but for calls, which come back to it.
-/
import AdaptiveLL.Proofs.Settling

namespace AdaptiveLL

namespace Transition

/-- Where a transition comes to in its own rule: a call comes back there. -/
def lands : Transition → StateId
  | .call _ _ follow _ => follow
  | t => t.target

theorem lands_of_not_call {t : Transition} (h : t.call? = none) : t.lands = t.target := by
  cases t with
  | call => cases h
  | _ => rfl

end Transition

/-- What leads on from a state that ends no rule, if `Near` has the states its
transitions lead to and its calls come back to, and `exprs` the expressions its rule
is made of. -/
inductive Form (g : Graph) (v : Vocabulary) (rule : RuleIndex) (exprs : List Expr)
    (Near : Nat → Prop) : StateRole → List Transition → Prop where
  | edge {role e t exit} (hedge : EdgeFor g v rule exit e t) (he : e ∈ exprs) (hexit : Near exit)
      (hrole : role = .basic) : Form g v rule exprs Near role [t]
  | hop {role target} (htarget : Near target) (hrole : ∀ b, role ≠ .starLoopEntry b) :
      Form g v rule exprs Near role [.epsilon target]
  | block {role : StateRole} {targets : List Nat} (hopens : role.offersAlternatives = true)
      (hrole : role ≠ .plusLoopBack ∧ ∀ b, role ≠ .starLoopEntry b) (hne : targets ≠ [])
      (htargets : ∀ target ∈ targets, Near target) :
      Form g v rule exprs Near role (targets.map .epsilon)
  | loop {role block exit} (hrole : role = .plusLoopBack ∨ ∃ b, role = .starLoopEntry b)
      (hblock : Near block) (hexit : Near exit)
      (hstart : ∀ shape, g.shape? block = some shape → shape.role ≠ .loopEnd)
      (hend : ∃ ts, g.shape? exit = some ⟨.loopEnd, rule, ts⟩)
      (hoperators : role = .starLoopEntry true → ∃ body, .operatorLoop body ∈ exprs) :
      Form g v rule exprs Near role [.epsilon block, .epsilon exit]

theorem Form.mono {g : Graph} {v : Vocabulary} {rule : RuleIndex} {exprs exprs' : List Expr}
    {Near Near' : Nat → Prop} {role : StateRole} {ts : List Transition}
    (h : Form g v rule exprs Near role ts) (hexprs : exprs ⊆ exprs')
    (hnear : ∀ x, Near x → Near' x) : Form g v rule exprs' Near' role ts := by
  cases h with
  | edge hedge he hexit hrole => exact .edge hedge (hexprs he) (hnear _ hexit) hrole
  | hop htarget hrole => exact .hop (hnear _ htarget) hrole
  | block hopens hrole hne htargets =>
    exact .block hopens hrole hne fun x hx => hnear x (htargets x hx)
  | loop hrole hblock hexit hstart hend hoperators =>
    exact .loop hrole (hnear _ hblock) (hnear _ hexit) hstart hend fun h =>
      (hoperators h).imp fun _ hbody => hexprs hbody

section

variable {g : Graph} {v : Vocabulary} {rule : RuleIndex} {exprs : List Expr} {Near : Nat → Prop}
  {role : StateRole} {ts : List Transition}

theorem Form.target (h : Form g v rule exprs Near role ts) {t : Transition} (ht : t ∈ ts)
    (hcall : t.call? = none) : Near t.target := by
  cases h with
  | edge hedge _ hexit =>
    obtain rfl := List.mem_singleton.mp ht
    cases hedge with
    | call => cases hcall
    | _ => exact hexit
  | hop htarget =>
    obtain rfl := List.mem_singleton.mp ht
    exact htarget
  | block _ _ _ htargets =>
    obtain ⟨target, htarget, rfl⟩ := List.mem_map.mp ht
    exact htargets target htarget
  | loop _ hblock hexit =>
    rcases List.mem_pair.mp ht with rfl | rfl
    · exact hblock
    · exact hexit

theorem Form.call (h : Form g v rule exprs Near role ts) {start follow : StateId}
    {callee : RuleIndex} {level : Int} (ht : .call start callee follow level ∈ ts) :
    Near follow ∧ ∃ name span, .rule name level ∈ exprs ∧ g.ruleIndex? name = some callee ∧
      g.rule? callee = some span ∧ start = span.start := by
  cases h with
  | edge hedge he hexit =>
    obtain rfl := List.mem_singleton.mp ht
    cases hedge with
    | call hcallee hspan => exact ⟨hexit, _, _, he, hcallee, hspan, rfl⟩
  | hop => cases List.mem_singleton.mp ht
  | block =>
    obtain ⟨_, _, h⟩ := List.mem_map.mp ht
    cases h
  | loop => rcases List.mem_pair.mp ht with h | h <;> cases h

theorem Form.lands (h : Form g v rule exprs Near role ts) {t : Transition} (ht : t ∈ ts) :
    Near t.lands := by
  cases t with
  | call => exact (h.call ht).1
  | _ => exact h.target ht rfl

theorem Form.ne_nil (h : Form g v rule exprs Near role ts) : ts ≠ [] := by
  cases h with
  | edge | hop | loop => exact List.cons_ne_nil _ _
  | block _ _ hne => simpa using hne

/-- Only a state that offers alternatives has several transitions, and all of them
are empty. -/
theorem Form.decides (h : Form g v rule exprs Near role ts) (hmany : 1 < ts.length) :
    role.offersAlternatives = true ∧ ∀ t ∈ ts, ∃ target, t = .epsilon target := by
  cases h with
  | edge | hop => simp at hmany
  | block hopens =>
    refine ⟨hopens, fun t ht => ?_⟩
    obtain ⟨target, _, rfl⟩ := List.mem_map.mp ht
    exact ⟨target, rfl⟩
  | loop hrole =>
    constructor
    · rcases hrole with rfl | ⟨_, rfl⟩ <;> rfl
    · intro t ht
      rcases List.mem_pair.mp ht with rfl | rfl <;> exact ⟨_, rfl⟩

/-- A transition that reads is the only one of its state, which has no part to play
but that. -/
theorem Form.single_of_read (h : Form g v rule exprs Near role ts) {t : Transition} (ht : t ∈ ts)
    (hreads : t.isEpsilon = false) : ts = [t] ∧ role = .basic := by
  cases h with
  | edge _ _ _ hrole =>
    obtain rfl := List.mem_singleton.mp ht
    exact ⟨rfl, hrole⟩
  | hop =>
    obtain rfl := List.mem_singleton.mp ht
    cases hreads
  | block =>
    obtain ⟨_, _, rfl⟩ := List.mem_map.mp ht
    cases hreads
  | loop => rcases List.mem_pair.mp ht with rfl | rfl <;> cases hreads

end

/-- The calls of a state come back to the state behind it. -/
def CallsNext (s : Nat) (ts : List Transition) : Prop :=
  ∀ start callee follow level, .call start callee follow level ∈ ts → follow = s + 1

/-- A state leads on in some form. -/
def Graph.Forms (g : Graph) (v : Vocabulary) (rule : RuleIndex) (exprs : List Expr)
    (Near : Nat → Prop) (s : Nat) : Prop :=
  ∃ role ts, role ≠ .ruleStop ∧ g.shape? s = some ⟨role, rule, ts⟩ ∧ CallsNext s ts ∧
    Form g v rule exprs Near role ts

section

variable {g : Graph} {v : Vocabulary} {rule : RuleIndex} {exprs exprs' : List Expr}
  {Near Near' : Nat → Prop} {s : Nat}

theorem EdgeFor.callsNext {e : Expr} {t : Transition} (h : EdgeFor g v rule (s + 1) e t) :
    CallsNext s [t] := by
  intro start callee follow level ht
  obtain rfl := List.mem_singleton.mp ht
  cases h
  rfl

theorem CallsNext.epsilons (s : Nat) (targets : List Nat) :
    CallsNext s (targets.map .epsilon) := by
  intro start callee follow level ht
  obtain ⟨_, _, h⟩ := List.mem_map.mp ht
  cases h

theorem Graph.Forms.mono (h : g.Forms v rule exprs Near s) (hexprs : exprs ⊆ exprs')
    (hnear : ∀ x, Near x → Near' x) : g.Forms v rule exprs' Near' s := by
  obtain ⟨role, ts, hrole, hshape, hcalls, hform⟩ := h
  exact ⟨role, ts, hrole, hshape, hcalls, hform.mono hexprs hnear⟩

theorem Graph.Forms.hop {target : Nat} (h : g.LeadsTo rule s target)
    (htarget : Near target) : g.Forms v rule exprs Near s := by
  obtain ⟨role, hrole, hshape⟩ := h
  exact ⟨role, _, hrole.1, hshape, .epsilons s [target], .hop htarget hrole.2⟩

/-- A sequence that is a part of a longer one is no edge itself. -/
theorem Graph.Forms.seq {e next : Expr} {rest : List Expr}
    (h : g.Forms v rule (Expr.seq (next :: rest)).subterms Near s) :
    g.Forms v rule (Expr.seq (e :: next :: rest)).subterms Near s := by
  obtain ⟨role, ts, hrole, hshape, hcalls, hform⟩ := h
  refine ⟨role, ts, hrole, hshape, hcalls, ?_⟩
  have hpart {x : Expr} (hx : x ∈ (Expr.seq (next :: rest)).subterms)
      (hne : x ≠ .seq (next :: rest)) : x ∈ (Expr.seq (e :: next :: rest)).subterms := by
    rw [Expr.subterms] at hx ⊢
    rw [Expr.subtermsOfAll]
    exact List.mem_cons_of_mem _ (List.mem_append_right _ ((List.mem_cons.mp hx).resolve_left hne))
  cases hform with
  | edge hedge he hexit hrole =>
    refine .edge hedge (hpart he ?_) hexit hrole
    rintro rfl
    cases hedge with
    | token ht => cases ht
  | hop htarget hrole => exact .hop htarget hrole
  | block hopens hrole hne htargets => exact .block hopens hrole hne htargets
  | loop hrole hblock hexit hstart hend hoperators =>
    exact .loop hrole hblock hexit hstart hend fun h =>
      (hoperators h).imp fun _ hbody => hpart hbody (by simp)

/-- The option not taken is no part of the expression. -/
theorem Graph.Forms.empty (h : g.Forms v rule (Expr.empty).subterms Near s) :
    g.Forms v rule exprs Near s := by
  obtain ⟨role, ts, hrole, hshape, hcalls, hform⟩ := h
  refine ⟨role, ts, hrole, hshape, hcalls, ?_⟩
  cases hform with
  | edge hedge he hexit hrole =>
    obtain rfl := List.mem_singleton.mp he
    cases hedge with
    | token ht => cases ht
    | empty => exact .hop hexit (by simp [hrole])
  | hop htarget hrole => exact .hop htarget hrole
  | block hopens hrole hne htargets => exact .block hopens hrole hne htargets
  | loop hrole hblock hexit hstart hend hoperators =>
    refine .loop hrole hblock hexit hstart hend fun h => ?_
    obtain ⟨_, hbody⟩ := hoperators h
    cases List.mem_singleton.mp hbody

/-- The states of a block, its exit apart. -/
theorem Branches.forms {role : StateRole} {entry exit lo hi : Nat} {parts : List Part}
    (hbranches : Branches g rule role entry exit lo hi parts)
    (hopens : role.offersAlternatives = true) (hstop : role ≠ .ruleStop)
    (hrole : role ≠ .plusLoopBack ∧ ∀ b, role ≠ .starLoopEntry b) (hne : parts ≠ [])
    (hlaid : ∀ x ∈ parts, Laid g v rule x.expr x.entry x.exit x.lo x.hi)
    (hparts : ∀ x ∈ parts, ∀ s : Nat, x.lo ≤ s → s < x.hi → s ≠ x.exit →
      g.Forms v rule exprs (fun id => x.lo ≤ id ∧ id < x.hi) s)
    (s : Nat) (hlo : lo ≤ s) (hhi : s < hi) (hexit : s ≠ exit) :
    g.Forms v rule exprs (fun id => lo ≤ id ∧ id < hi) s := by
  have hexit_mem := hbranches.exit_mem
  rcases hbranches.cover s hlo hhi with rfl | rfl | ⟨x, hx, hin⟩
  · refine ⟨role, _, hstop, hbranches.entry_shape, ?_⟩
    rw [show (parts.map fun x => Transition.epsilon x.entry) =
      (parts.map Part.entry).map .epsilon by simp]
    refine ⟨.epsilons _ _, ?_⟩
    refine .block hopens hrole (by simpa using hne) fun target htarget => ?_
    obtain ⟨x, hx, rfl⟩ := List.mem_map.mp htarget
    have hmem := (hlaid x hx).mem
    have hinside := hbranches.inside x hx
    omega
  · exact absurd rfl hexit
  · have hinside := hbranches.inside x hx
    by_cases hlast : s = x.exit
    · subst hlast
      exact .hop (hbranches.leave x hx) (by omega)
    · exact (hparts x hx s hin.1 hin.2 hlast).mono (List.Subset.refl _) fun id hid => by omega

/-- The states of a block that a loop goes round and that leads back by the state
behind it. -/
theorem Branches.forms_round {role : StateRole} {entry exit lo hi : Nat} {parts : List Part}
    {body e : Expr} (hbranches : Branches g rule role entry exit lo hi parts)
    (hopens : role.offersAlternatives = true) (hstop : role ≠ .ruleStop)
    (hrole : role ≠ .plusLoopBack ∧ ∀ b, role ≠ .starLoopEntry b)
    (hlaid : ∀ x ∈ parts, Laid g v rule x.expr x.entry x.exit x.lo x.hi)
    (hlent : parts.map Part.expr = body.lent) (hbody : e.inner? = some body)
    (hparts : ∀ x ∈ parts, ∀ s : Nat, x.lo ≤ s → s < x.hi → s ≠ x.exit →
      g.Forms v rule x.expr.subterms (fun id => x.lo ≤ id ∧ id < x.hi) s)
    (hend : g.LeadsTo rule exit hi) (s : Nat) (hlo : lo ≤ s) (hhi : s < hi) :
    g.Forms v rule e.subterms (fun id => lo ≤ id ∧ id < hi + 1) s := by
  by_cases hlast : s = exit
  · subst hlast
    exact .hop hend (by omega)
  have hne : parts ≠ [] := by
    rintro rfl
    exact Expr.lent_ne_nil body hlent.symm
  have hforms := hbranches.forms hopens hstop hrole hne hlaid
    (fun x hx s hlo hhi hne => (hparts x hx s hlo hhi hne).mono
      (Expr.subterms_of_lent (Part.expr_mem hlent hx)) fun _ h => h) s hlo hhi hlast
  exact hforms.mono (Expr.subterms_inner_subset hbody) fun id hid => by omega

/-- The states of an expression, its exit apart. -/
theorem Laid.forms {e : Expr} {entry exit lo hi : Nat} (hlaid : Laid g v rule e entry exit lo hi)
    (s : Nat) (hlo : lo ≤ s) (hhi : s < hi) (hexit : s ≠ exit) :
    g.Forms v rule e.subterms (fun id => lo ≤ id ∧ id < hi) s := by
  induction hlaid generalizing s with
  | @edge e t entry hedge hentry =>
    obtain rfl : s = entry := by omega
    exact ⟨.basic, _, by decide, hentry, hedge.callsNext,
      .edge hedge e.self_mem_subterms (by omega) rfl⟩
  | only _ ih =>
    refine (ih s hlo hhi hexit).mono ?_ fun _ h => h
    rw [Expr.subterms, Expr.subtermsOfAll_eq]
    simp
  | @chain e next rest entry mid mid' exit lo cut hi hfirst hrest hmid ih ih' =>
    have hmem := hfirst.mem
    have hmem' := hrest.mem
    by_cases hcut : s < cut
    · by_cases hlast : s = mid
      · subst hlast
        exact .hop hmid (by omega)
      · refine (ih s hlo hcut hlast).mono ?_ fun id hid => by omega
        rw [Expr.subterms, Expr.subtermsOfAll]
        exact fun x hx => List.mem_cons_of_mem _ (List.mem_append_left _ hx)
    · exact ((ih' s (by omega) hhi hexit).mono (List.Subset.refl _) fun id hid => by omega).seq
  | @single e _ _ _ _ _ ih =>
    exact (ih s hlo hhi hexit).mono (Expr.subterms_choice_subset List.mem_cons_self) fun _ h => h
  | choice parts hparts hform hmany hbranches hlaid ih =>
    refine hbranches.forms rfl (by decide) (by simp) ?_ hlaid (fun x hx s hlo hhi hne =>
      (ih x hx s hlo hhi hne).mono (Expr.subterms_choice_subset (Part.expr_mem hparts hx))
        fun _ h => h) s hlo hhi hexit
    rintro rfl
    simp [← hparts] at hmany
  | @optional body _ _ _ _ parts hparts hbranches hlaid ih =>
    refine hbranches.forms rfl (by decide) (by simp) ?_ hlaid (fun x hx s hlo hhi hne => ?_) s hlo
      hhi hexit
    · rintro rfl
      simp at hparts
    · have hforms := ih x hx s hlo hhi hne
      rcases List.mem_append.mp (Part.expr_mem hparts hx) with hlent | hempty
      · exact hforms.mono (List.Subset.trans (Expr.subterms_of_lent hlent)
          (Expr.subterms_inner_subset rfl)) fun _ h => h
      · rw [List.mem_singleton.mp hempty] at hforms
        exact hforms.empty
  | @loop e body operators block blockEnd lo hi parts he hparts hbranches hlaid hentry hend hback
      hexit' ih =>
    have hmem := hbranches.entry_mem
    obtain rfl | rfl | hin : s = lo ∨ s = hi ∨ lo + 1 ≤ s ∧ s < hi := by omega
    · refine ⟨_, _, by simp, hentry, .epsilons _ [_, _],
        .loop (.inr ⟨_, rfl⟩) (by omega) (by omega) ?_ hexit' ?_⟩
      · intro shape hshape
        obtain rfl := Option.some.inj (hshape.symm.trans hbranches.entry_shape)
        simp
      · intro hoperators
        cases he with
        | star => cases hoperators
        | operators => exact ⟨body, Expr.self_mem_subterms _⟩
    · exact .hop ⟨.starLoopBack, by decide, hback⟩ (by omega)
    · exact (hbranches.forms_round rfl (by decide) (by simp) hlaid hparts he.inner? ih hend s
        hin.1 hin.2).mono (List.Subset.refl _) fun id hid => by omega
  | @plus body block blockEnd lo hi parts hparts hbranches hlaid hend hback hexit' ih =>
    have hmem := hbranches.entry_mem
    obtain rfl | hin : s = hi ∨ s < hi := by omega
    · refine ⟨_, _, by simp, hback, .epsilons _ [_, _],
        .loop (.inl rfl) (by omega) (by omega) ?_ hexit' (by simp)⟩
      intro shape hshape
      obtain rfl := Option.some.inj (hshape.symm.trans hbranches.entry_shape)
      simp
    · exact (hbranches.forms_round rfl (by decide) (by simp) hlaid hparts rfl ih hend s hlo
        hin).mono (List.Subset.refl _) fun id hid => by omega
  | label _ ih =>
    exact (ih s hlo hhi hexit).mono (Expr.subterms_inner_subset rfl) fun _ h => h
  | rightAssoc _ ih =>
    exact (ih s hlo hhi hexit).mono (Expr.subterms_inner_subset rfl) fun _ h => h

end

end AdaptiveLL
