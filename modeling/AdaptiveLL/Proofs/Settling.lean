/-
A network cannot be walked forever without reading a token.

The argument follows the layout.  A part that is not nullable has to read something,
so going on from its exit is a matter for nullable parts only; a call leads to a rule
further down in the order of left calls; and a loop goes round a body that is not
nullable.
-/
import AdaptiveLL.Proofs.Build
import AdaptiveLL.Proofs.Drift
import AdaptiveLL.Proofs.Layout.Inversion

namespace AdaptiveLL

namespace Expr

variable {nullable : List String}

theorem anyNullable_eq (es : List Expr) :
    anyNullable nullable es = es.any fun e => e.isNullable nullable := by
  induction es with
  | nil => rfl
  | cons e es ih => rw [anyNullable, List.any_cons, ih]

theorem leftCallsOfAny_eq (es : List Expr) :
    leftCallsOfAny nullable es = es.flatMap fun e => e.leftCalls nullable := by
  induction es with
  | nil => rfl
  | cons e es ih => rw [leftCallsOfAny, List.flatMap_cons, ih]

theorem subtermsOfAll_eq (es : List Expr) : subtermsOfAll es = es.flatMap subterms := by
  induction es with
  | nil => rfl
  | cons e es ih => rw [subtermsOfAll, List.flatMap_cons, ih]

theorem self_mem_subterms (e : Expr) : e ∈ e.subterms := by
  cases e <;> simp [subterms]

theorem subterms_choice_subset {e : Expr} {es : List Expr} (he : e ∈ es) :
    e.subterms ⊆ (Expr.choice es).subterms := by
  intro x hx
  rw [subterms, subtermsOfAll_eq]
  exact List.mem_cons_of_mem _ (List.mem_flatMap.mpr ⟨e, he, hx⟩)

/-- What an expression is made of that has one part. -/
def inner? : Expr → Option Expr
  | .optional e | .star e | .plus e | .operatorLoop e | .label _ e | .rightAssoc e => some e
  | _ => none

theorem subterms_inner_subset {e body : Expr} (h : e.inner? = some body) :
    body.subterms ⊆ e.subterms := by
  cases e with
  | optional | star | plus | operatorLoop | label | rightAssoc =>
    obtain rfl := Option.some.inj h
    rw [subterms]
    exact List.subset_cons_self _ _
  | _ => cases h

theorem lent_cases (body : Expr) :
    body.lent = [body] ∨ ∃ es, body = .choice es ∧ body.lent = es := by
  unfold lent
  split
  · split
    · exact .inl rfl
    · exact .inr ⟨_, rfl, rfl⟩
  · exact .inl rfl

theorem lent_ne_nil (body : Expr) : body.lent ≠ [] := by
  unfold lent
  split
  · rename_i es
    split
    · simp
    · rename_i hmany
      rintro rfl
      simp at hmany
  · simp

theorem isNullable_of_lent {body e : Expr} (he : e ∈ body.lent)
    (hnull : e.isNullable nullable = true) : body.isNullable nullable = true := by
  rcases body.lent_cases with hself | ⟨es, rfl, hes⟩
  · obtain rfl : e = body := by simpa [hself] using he
    exact hnull
  · rw [isNullable, anyNullable_eq, List.any_eq_true]
    exact ⟨e, hes ▸ he, hnull⟩

theorem leftCalls_of_lent {body e : Expr} (he : e ∈ body.lent) :
    e.leftCalls nullable ⊆ body.leftCalls nullable := by
  rcases body.lent_cases with hself | ⟨es, rfl, hes⟩
  · obtain rfl : e = body := by simpa [hself] using he
    exact List.Subset.refl _
  · intro x hx
    rw [leftCalls, leftCallsOfAny_eq, List.mem_flatMap]
    exact ⟨e, hes ▸ he, hx⟩

theorem leftCalls_head_subset {e : Expr} {rest : List Expr} :
    e.leftCalls nullable ⊆ (Expr.seq (e :: rest)).leftCalls nullable := by
  rw [leftCalls.eq_def nullable (.seq _)]
  exact List.subset_append_left _ _

theorem leftCalls_tail_subset {e : Expr} {rest : List Expr}
    (hnull : e.isNullable nullable = true) :
    (Expr.seq rest).leftCalls nullable ⊆ (Expr.seq (e :: rest)).leftCalls nullable := by
  rw [leftCalls, leftCalls, leftCallsOfSeq.eq_def nullable (e :: rest)]
  dsimp only
  rw [if_pos hnull]
  exact List.subset_append_right _ _

theorem leftCalls_choice_subset {e : Expr} {es : List Expr} (he : e ∈ es) :
    e.leftCalls nullable ⊆ (Expr.choice es).leftCalls nullable := by
  intro x hx
  rw [leftCalls, leftCallsOfAny_eq]
  exact List.mem_flatMap.mpr ⟨e, he, hx⟩

theorem leftCalls_of_option {e body : Expr} (he : e ∈ body.lent ++ [.empty]) :
    e.leftCalls nullable ⊆ (Expr.optional body).leftCalls nullable := by
  rw [leftCalls]
  rcases List.mem_append.mp he with hlent | hempty
  · exact leftCalls_of_lent hlent
  · rw [List.mem_singleton.mp hempty]
    exact List.nil_subset _

theorem subterms_of_lent {body e : Expr} (he : e ∈ body.lent) : e.subterms ⊆ body.subterms := by
  rcases body.lent_cases with hself | ⟨es, rfl, hes⟩
  · obtain rfl : e = body := by simpa [hself] using he
    exact List.Subset.refl _
  · exact subterms_choice_subset (hes ▸ he)

/-- Every loop of an expression has to read something in each round. -/
def LoopsRead (nullable : List String) (e : Expr) : Prop :=
  ∀ x ∈ e.subterms, ∀ body, x.loopBody? = some body → body.isNullable nullable = false

namespace LoopsRead

theorem mono {e e' : Expr} (h : e.LoopsRead nullable) (hsub : e'.subterms ⊆ e.subterms) :
    e'.LoopsRead nullable :=
  fun x hx => h x (hsub hx)

theorem head {e : Expr} {rest : List Expr} (h : (Expr.seq (e :: rest)).LoopsRead nullable) :
    e.LoopsRead nullable := by
  refine h.mono ?_
  rw [subterms, subtermsOfAll]
  exact fun x hx => List.mem_cons_of_mem _ (List.mem_append_left _ hx)

theorem tail {e : Expr} {rest : List Expr} (h : (Expr.seq (e :: rest)).LoopsRead nullable) :
    (Expr.seq rest).LoopsRead nullable := by
  intro x hx body hbody
  rw [subterms] at hx
  rcases List.mem_cons.mp hx with rfl | hx
  · cases hbody
  · refine h x ?_ body hbody
    rw [subterms, subtermsOfAll]
    exact List.mem_cons_of_mem _ (List.mem_append_right _ hx)

theorem alternative {e : Expr} {es : List Expr} (h : (Expr.choice es).LoopsRead nullable)
    (he : e ∈ es) : e.LoopsRead nullable :=
  h.mono (subterms_choice_subset he)

theorem lent {e body : Expr} (h : body.LoopsRead nullable) (he : e ∈ body.lent) :
    e.LoopsRead nullable :=
  h.mono (subterms_of_lent he)

theorem option {e body : Expr} (h : (Expr.optional body).LoopsRead nullable)
    (he : e ∈ body.lent ++ [.empty]) : e.LoopsRead nullable := by
  rcases List.mem_append.mp he with he | he
  · exact LoopsRead.lent (h.mono (subterms_inner_subset rfl)) he
  · obtain rfl : e = .empty := by simpa using he
    intro x hx body hbody
    obtain rfl : x = .empty := by simpa [subterms] using hx
    cases hbody

theorem inner {e body : Expr} (h : e.LoopsRead nullable) (hbody : e.inner? = some body) :
    body.LoopsRead nullable :=
  h.mono (subterms_inner_subset hbody)

end LoopsRead

theorem leftCalls_of_loopBody {e body : Expr} (hbody : e.loopBody? = some body) :
    body.leftCalls nullable ⊆ e.leftCalls nullable := by
  cases e with
  | star | plus | operatorLoop =>
    obtain rfl := Option.some.inj hbody
    rw [leftCalls]
    exact List.Subset.refl _
  | _ => cases hbody

end Expr

namespace HeadLoop

variable {e body : Expr} {operators : Bool}

theorem inner? (h : HeadLoop e body operators) : e.inner? = some body := by
  cases h <;> rfl

theorem loopBody? (h : HeadLoop e body operators) : e.loopBody? = some body := by
  cases h <;> rfl

end HeadLoop

theorem Laid.mem {g : Graph} {v : Vocabulary} {rule : RuleIndex} {e : Expr}
    {entry exit lo hi : Nat} (h : Laid g v rule e entry exit lo hi) :
    (lo ≤ entry ∧ entry < hi) ∧ lo ≤ exit ∧ exit < hi := by
  induction h with
  | edge => omega
  | only _ ih => exact ih
  | chain _ _ _ ih ih' => omega
  | single _ ih => exact ih
  | choice _ _ _ _ hbranches => exact ⟨hbranches.entry_mem, hbranches.exit_mem⟩
  | optional _ _ hbranches => exact ⟨hbranches.entry_mem, hbranches.exit_mem⟩
  | loop _ _ _ hbranches =>
    have hmem := hbranches.entry_mem
    omega
  | plus _ _ hbranches =>
    have hmem := hbranches.entry_mem
    omega
  | label _ ih => exact ih
  | rightAssoc _ ih => exact ih

theorem Part.expr_mem {parts : List Part} {es : List Expr} (hparts : parts.map Part.expr = es)
    {x : Part} (hx : x ∈ parts) : x.expr ∈ es :=
  hparts ▸ List.mem_map_of_mem hx

section Entry

variable {g : Graph} {v : Vocabulary} {rule : RuleIndex} {nullable : List String}

/-- What holds behind a state with one empty transition holds there. -/
theorem Graph.LeadsTo.drift_induction {P : Spot → Prop} {s target : Nat} {precedence : Int}
    {stack : CallStack} (hs : g.LeadsTo rule s target)
    (hstep : (∀ q, Drift g ⟨s, precedence, stack⟩ q → P q) → P ⟨s, precedence, stack⟩)
    (htarget : P ⟨target, precedence, stack⟩) : P ⟨s, precedence, stack⟩ := by
  refine hstep fun q hq => ?_
  obtain ⟨t, ht, hq⟩ := Drift.of_leadsOn hs.leadsOn hq
  obtain rfl : t = .epsilon target := by simpa using ht
  obtain rfl := Option.some.inj hq
  exact htarget

/-- What holds in front of all branches holds in front of the block. -/
theorem Branches.drift_induction {P : Spot → Prop} {role : StateRole} {entry exit lo hi : Nat}
    {parts : List Part} {precedence : Int} {stack : CallStack}
    (hbranches : Branches g rule role entry exit lo hi parts) (hrole : role ≠ .ruleStop)
    (hstep : (∀ q, Drift g ⟨entry, precedence, stack⟩ q → P q) → P ⟨entry, precedence, stack⟩)
    (hparts : ∀ x ∈ parts, P ⟨x.entry, precedence, stack⟩) : P ⟨entry, precedence, stack⟩ := by
  refine hstep fun q hq => ?_
  obtain ⟨t, ht, hq⟩ := Drift.of_leadsOn (.of_shape hbranches.entry_shape hrole) hq
  obtain ⟨x, hx, rfl⟩ := List.mem_map.mp ht
  obtain rfl := Option.some.inj hq
  exact hparts x hx

/-- A property of spots comes back from what the network can drift to, on the states
from `lo` up to `hi`, and over the calls that an expression makes first: it holds in
front of a called rule, if it holds where the call comes back, which it need not if
the rule is not nullable. -/
structure ComesBack (g : Graph) (nullable : List String) (P : Spot → Prop) (precedence : Int)
    (stack : CallStack) (e : Expr) (lo hi : Nat) : Prop where
  step : ∀ s : Nat, lo ≤ s → s < hi → (∀ q, Drift g ⟨s, precedence, stack⟩ q → P q) →
    P ⟨s, precedence, stack⟩
  call : ∀ name ∈ e.leftCalls nullable, ∀ callee span, g.ruleIndex? name = some callee →
    g.rule? callee = some span → ∀ (follow : Nat) level, lo ≤ follow → follow < hi →
    (name ∈ nullable → P ⟨follow, precedence, stack⟩) →
    P ⟨span.start, level, ⟨follow, precedence⟩ :: stack⟩

section ComesBack

variable {P : Spot → Prop} {precedence : Int} {stack : CallStack} {e e' : Expr} {lo hi : Nat}

theorem ComesBack.mono (h : ComesBack g nullable P precedence stack e lo hi) {lo' hi' : Nat}
    (hcalls : e'.leftCalls nullable ⊆ e.leftCalls nullable) (hlo : lo ≤ lo') (hhi : hi' ≤ hi) :
    ComesBack g nullable P precedence stack e' lo' hi' where
  step s hlo' hhi' := h.step s (hlo.trans hlo') (hhi'.trans_le hhi)
  call name hname callee span hcallee hspan follow level hlo' hhi' :=
    h.call name (hcalls hname) callee span hcallee hspan follow level (hlo.trans hlo')
      (hhi'.trans_le hhi)

/-- What comes back over each alternative of a block comes back over the block. -/
theorem BlockLaid.comesBack {role : StateRole} {alternatives : List Expr} {entry exit : Nat}
    {parts : List Part} {lo' hi' : Nat}
    (hblock : BlockLaid g v rule role alternatives entry exit lo' hi' parts)
    (hrole : role ≠ .ruleStop) (h : ComesBack g nullable P precedence stack e lo hi)
    (hlo : lo ≤ lo') (hhi : hi' ≤ hi)
    (hparts : ∀ x ∈ parts, ComesBack g nullable P precedence stack x.expr x.lo x.hi →
      (x.expr.isNullable nullable = true → P ⟨x.exit, precedence, stack⟩) →
      P ⟨x.entry, precedence, stack⟩)
    (hcalls : ∀ x ∈ alternatives, x.leftCalls nullable ⊆ e.leftCalls nullable)
    (hexit : ∀ x ∈ alternatives, x.isNullable nullable = true → P ⟨exit, precedence, stack⟩) :
    P ⟨entry, precedence, stack⟩ := by
  have hentry := hblock.branches.entry_mem
  refine hblock.branches.drift_induction hrole (h.step entry (by omega) (by omega)) fun x hx => ?_
  have hinside := hblock.branches.inside x hx
  have hmem := (hblock.laid x hx).mem
  have hexpr := hblock.expr_mem hx
  exact hparts x hx (h.mono (hcalls _ hexpr) (by omega) (by omega)) fun hnull =>
    (hblock.branches.leave x hx).drift_induction (h.step _ (by omega) (by omega))
      (hexit _ hexpr hnull)

end ComesBack

/-- What comes back over an expression holds in front of it, if it holds behind it;
and it need not hold behind one that is not nullable. -/
theorem Laid.comesBack {P : Spot → Prop} {e : Expr} {entry exit lo hi : Nat}
    {precedence : Int} {stack : CallStack} (hlaid : Laid g v rule e entry exit lo hi)
    (hloops : e.LoopsRead nullable) (h : ComesBack g nullable P precedence stack e lo hi)
    (hexit : e.isNullable nullable = true → P ⟨exit, precedence, stack⟩) :
    P ⟨entry, precedence, stack⟩ := by
  induction hlaid with
  | @edge e t entry hedge hentry =>
    refine h.step entry (Nat.le_refl _) (by omega) fun q hq => ?_
    obtain ⟨t', ht', hq⟩ := Drift.of_leadsOn (.of_shape hentry (by decide)) hq
    obtain rfl : t' = t := by simpa using ht'
    cases hedge with
    | token | tokens | wildcard => cases hq
    | empty | nothing | action | predicate | precedence =>
      obtain rfl := Option.some.inj hq
      exact hexit rfl
    | call hcallee hspan =>
      obtain rfl := Option.some.inj hq
      refine h.call _ List.mem_cons_self _ _ hcallee hspan _ _ (by omega) (by omega) fun hnull => ?_
      exact hexit (by simpa [Expr.isNullable] using hnull)
  | only _ ih =>
    refine ih hloops.head
      (h.mono Expr.leftCalls_head_subset (Nat.le_refl _) (Nat.le_refl _)) ?_
    simpa [Expr.isNullable, Expr.allNullable] using hexit
  | @chain e next rest entry mid mid' exit lo cut hi hfirst hrest hmid ih ih' =>
    have hmem := hfirst.mem
    have hmem' := hrest.mem
    refine ih hloops.head (h.mono Expr.leftCalls_head_subset (Nat.le_refl _) (by omega))
      fun hnull => hmid.drift_induction (h.step mid hmem.2.1 (by omega)) ?_
    refine ih' hloops.tail (h.mono (Expr.leftCalls_tail_subset hnull) (by omega) (Nat.le_refl _))
      fun hnull' => hexit ?_
    rw [Expr.isNullable] at hnull' ⊢
    rw [Expr.allNullable, hnull, hnull']
    rfl
  | single _ ih =>
    refine ih (hloops.alternative List.mem_cons_self)
      (h.mono (Expr.leftCalls_choice_subset List.mem_cons_self) (Nat.le_refl _) (Nat.le_refl _)) ?_
    simpa [Expr.isNullable, Expr.anyNullable] using hexit
  | choice parts hparts _ _ hbranches hlaid ih =>
    have hblock : BlockLaid .. := ⟨hparts, hbranches, hlaid⟩
    refine hblock.comesBack (by decide) h (Nat.le_refl _) (Nat.le_refl _)
      (fun x hx => ih x hx (hloops.alternative (hblock.expr_mem hx)))
      (fun _ => Expr.leftCalls_choice_subset) fun x hx hnull => hexit ?_
    rw [Expr.isNullable, Expr.anyNullable_eq]
    exact List.any_eq_true.mpr ⟨x, hx, hnull⟩
  | optional parts hparts hbranches hlaid ih =>
    have hblock : BlockLaid .. := ⟨hparts, hbranches, hlaid⟩
    exact hblock.comesBack (by decide) h (Nat.le_refl _) (Nat.le_refl _)
      (fun x hx => ih x hx (hloops.option (hblock.expr_mem hx)))
      (fun _ => Expr.leftCalls_of_option) fun _ _ _ => hexit rfl
  | @loop e body operators block blockEnd lo hi parts he hparts hbranches hlaid hentry _ _ _ ih =>
    have hblock : BlockLaid .. := ⟨hparts, hbranches, hlaid⟩
    have hmem := hbranches.entry_mem
    -- A round has to read something, so nothing need hold behind it.
    have hread : body.isNullable nullable = false :=
      hloops e e.self_mem_subterms body he.loopBody?
    have hround : P ⟨block, precedence, stack⟩ :=
      hblock.comesBack (by decide) h (by omega) (by omega)
        (fun x hx => ih x hx ((hloops.inner he.inner?).lent (hblock.expr_mem hx)))
        (fun _ hx => List.Subset.trans (Expr.leftCalls_of_lent hx)
          (Expr.leftCalls_of_loopBody he.loopBody?))
        fun _ hx hnull => absurd (Expr.isNullable_of_lent hx hnull) (by simp [hread])
    refine h.step lo (Nat.le_refl _) (by omega) fun q hq => ?_
    obtain ⟨t, ht, hq⟩ := Drift.of_leadsOn (.of_shape hentry (by simp)) hq
    rcases List.mem_pair.mp ht with rfl | rfl
    · obtain rfl := Option.some.inj hq
      exact hround
    · obtain rfl := Option.some.inj hq
      exact hexit (by cases he <;> rfl)
  | @plus body block blockEnd lo hi parts hparts hbranches hlaid _ _ _ ih =>
    have hblock : BlockLaid .. := ⟨hparts, hbranches, hlaid⟩
    have hread : body.isNullable nullable = false :=
      hloops (.plus body) (Expr.self_mem_subterms _) body rfl
    exact hblock.comesBack (by decide) h (Nat.le_refl _) (by omega)
      (fun x hx => ih x hx ((hloops.inner rfl).lent (hblock.expr_mem hx)))
      (fun _ hx => List.Subset.trans (Expr.leftCalls_of_lent hx) (Expr.leftCalls_of_loopBody rfl))
      fun _ hx hnull => absurd (Expr.isNullable_of_lent hx hnull) (by simp [hread])
  | label _ ih => exact ih (hloops.inner rfl) (h.mono (by simp [Expr.leftCalls]) (Nat.le_refl _)
      (Nat.le_refl _)) hexit
  | rightAssoc _ ih => exact ih (hloops.inner rfl) (h.mono (by simp [Expr.leftCalls])
      (Nat.le_refl _) (Nat.le_refl _)) hexit

/-- A spot settles if all spots it can drift to do. -/
theorem Settles.of_drift {p : Spot} (h : ∀ q, Drift g p q → Settles g q) : Settles g p :=
  Acc.intro p h

theorem Settles.of_leadsOn {s : Nat} {precedence : Int} {stack : CallStack} {ts : List Transition}
    (hs : g.LeadsOn rule s ts) (hts : ∀ t ∈ ts, ∃ target : Nat,
      t = .epsilon target ∧ Settles g ⟨target, precedence, stack⟩) :
    Settles g ⟨s, precedence, stack⟩ := by
  refine .of_drift fun q hq => ?_
  obtain ⟨t, ht, hq⟩ := Drift.of_leadsOn hs hq
  obtain ⟨target, rfl, hsettles⟩ := hts t ht
  obtain rfl := Option.some.inj hq
  exact hsettles

/-- Where the exit of a block settles, and with it the branches, all its states do. -/
theorem Branches.settles {role : StateRole} {entry exit lo hi : Nat} {parts : List Part}
    {precedence : Int} {stack : CallStack}
    (hbranches : Branches g rule role entry exit lo hi parts)
    (hlaid : ∀ x ∈ parts, Laid g v rule x.expr x.entry x.exit x.lo x.hi) (hrole : role ≠ .ruleStop)
    (hexit : Settles g ⟨exit, precedence, stack⟩)
    (hparts : ∀ x ∈ parts, Settles g ⟨x.exit, precedence, stack⟩ → ∀ s : Nat, x.lo ≤ s → s < x.hi →
      Settles g ⟨s, precedence, stack⟩) (s : Nat) (hlo : lo ≤ s) (hhi : s < hi) :
    Settles g ⟨s, precedence, stack⟩ := by
  have hpart (x : Part) (hx : x ∈ parts) :=
    hparts x hx ((hbranches.leave x hx).drift_induction Settles.of_drift hexit)
  rcases hbranches.cover s hlo hhi with rfl | rfl | ⟨x, hx, hin⟩
  · refine hbranches.drift_induction hrole Settles.of_drift fun x hx => ?_
    have hmem := (hlaid x hx).mem
    exact hpart x hx _ hmem.1.1 hmem.1.2
  · exact hexit
  · exact hpart x hx s hin.1 hin.2

/-- Where the rules that can be called settle and the exit of an expression does,
all its states do. -/
theorem Laid.settles {e : Expr} {entry exit lo hi : Nat} {precedence : Int} {stack : CallStack}
    (hlaid : Laid g v rule e entry exit lo hi) (hloops : e.LoopsRead nullable)
    (hcall : ∀ name callee span, g.ruleIndex? name = some callee → g.rule? callee = some span →
      ∀ (follow : Nat) level, (name ∈ nullable → Settles g ⟨follow, precedence, stack⟩) →
      Settles g ⟨span.start, level, ⟨follow, precedence⟩ :: stack⟩)
    (hexit : Settles g ⟨exit, precedence, stack⟩) (s : Nat) (hlo : lo ≤ s) (hhi : s < hi) :
    Settles g ⟨s, precedence, stack⟩ := by
  -- The entry of an expression settles because of the layout as a whole.
  have hfront {e : Expr} {entry exit lo hi : Nat} (hlaid : Laid g v rule e entry exit lo hi)
      (hloops : e.LoopsRead nullable) (hexit : Settles g ⟨exit, precedence, stack⟩) :
      Settles g ⟨entry, precedence, stack⟩ :=
    hlaid.comesBack hloops ⟨fun _ _ _ => Settles.of_drift,
      fun name _ callee span hcallee hspan follow level _ _ =>
        hcall name callee span hcallee hspan follow level⟩ fun _ => hexit
  induction hlaid generalizing s with
  | @edge e t entry hedge hentry =>
    obtain rfl | rfl : s = entry ∨ s = entry + 1 := by omega
    · exact hfront (.edge hedge hentry) hloops hexit
    · exact hexit
  | only _ ih => exact ih hloops.head hexit s hlo hhi
  | @chain e next rest entry mid mid' exit lo cut hi hfirst hrest hmid ih ih' =>
    have hmem := hrest.mem
    by_cases hcut : s < cut
    · refine ih hloops.head (.of_leadsOn hmid.leadsOn fun t ht => ⟨mid', by simpa using ht, ?_⟩)
        s hlo hcut
      exact ih' hloops.tail hexit mid' hmem.1.1 hmem.1.2
    · exact ih' hloops.tail hexit s (by omega) hhi
  | single _ ih => exact ih (hloops.alternative List.mem_cons_self) hexit s hlo hhi
  | choice parts hparts hform hmany hbranches hlaid ih =>
    exact hbranches.settles hlaid (by decide) hexit
      (fun x hx => ih x hx (hloops.alternative (Part.expr_mem hparts hx))) s hlo hhi
  | optional parts hparts hbranches hlaid ih =>
    exact hbranches.settles hlaid (by decide) hexit
      (fun x hx => ih x hx (hloops.option (Part.expr_mem hparts hx))) s hlo hhi
  | @loop e body operators block blockEnd lo hi parts he hparts hbranches hlaid hentry hend hback
      hexit' ih =>
    have hloops' := hloops.inner he.inner?
    have hhead : Settles g ⟨lo, precedence, stack⟩ :=
      hfront (.loop parts he hparts hbranches hlaid hentry hend hback hexit') hloops hexit
    have hagain : Settles g ⟨hi, precedence, stack⟩ :=
      .of_leadsOn (.of_shape hback (by decide)) fun t ht => ⟨lo, by simpa using ht, hhead⟩
    obtain rfl | rfl | rfl | hin : s = lo ∨ s = hi ∨ s = hi + 1 ∨ lo + 1 ≤ s ∧ s < hi := by omega
    · exact hhead
    · exact hagain
    · exact hexit
    · exact hbranches.settles hlaid (by decide)
        (.of_leadsOn hend.leadsOn fun t ht => ⟨hi, by simpa using ht, hagain⟩)
        (fun x hx => ih x hx (hloops'.lent (Part.expr_mem hparts hx))) s hin.1 hin.2
  | @plus body block blockEnd lo hi parts hparts hbranches hlaid hend hback hexit' ih =>
    have hloops' := hloops.inner rfl
    have hhead : Settles g ⟨block, precedence, stack⟩ :=
      hfront (.plus parts hparts hbranches hlaid hend hback hexit') hloops hexit
    have hagain : Settles g ⟨hi, precedence, stack⟩ := by
      refine .of_leadsOn (.of_shape hback (by decide)) fun t ht => ?_
      simp only [List.mem_cons, List.not_mem_nil, or_false] at ht
      rcases ht with rfl | rfl
      · exact ⟨_, rfl, hhead⟩
      · exact ⟨_, rfl, hexit⟩
    obtain rfl | rfl | hin : s = hi ∨ s = hi + 1 ∨ s < hi := by omega
    · exact hagain
    · exact hexit
    · exact hbranches.settles hlaid (by decide)
        (.of_leadsOn hend.leadsOn fun t ht => ⟨hi, by simpa using ht, hagain⟩)
        (fun x hx => ih x hx (hloops'.lent (Part.expr_mem hparts hx))) s hlo hin
  | label _ ih => exact ih (hloops.inner rfl) hexit s hlo hhi
  | rightAssoc _ ih => exact ih (hloops.inner rfl) hexit s hlo hhi

end Entry

end AdaptiveLL
