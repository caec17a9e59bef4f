/-
What the operator form of a left-recursive rule consists of.

Each alternative gives one operand.  An operator has lost the call at its left end,
and a call at the right end of an operand has a new precedence; everything else
stands as it was written.
-/
import AdaptiveLL.Proofs.Outermost
import Mathlib.Data.List.TakeWhile

namespace AdaptiveLL

namespace Expr

/-- What becomes of an alternative that has this precedence. -/
inductive Operates (rule : String) (level : Int) (alternative : Expr) : Operand → Prop where
  | binary {left right mid trailing} (htrailing : ∀ x ∈ trailing, x.isSemantic = true)
      (helements : alternative.elements =
        .rule rule left :: (mid ++ .rule rule right :: trailing)) :
      Operates rule level alternative (.operator (.seq (.precedence level :: (mid ++
        .rule rule (if isRightAssoc alternative then level else level + 1) :: trailing))))
  | suffix {left rest} (helements : alternative.elements = .rule rule left :: rest) :
      Operates rule level alternative (.operator (.seq (.precedence level :: rest)))
  | leading {right first trailing} (htrailing : ∀ x ∈ trailing, x.isSemantic = true)
      (helements : alternative.elements = first ++ .rule rule right :: trailing) :
      Operates rule level alternative (.primary (.seq (first ++ .rule rule level :: trailing)))
  | primary : Operates rule level alternative (.primary (.seq alternative.elements))

section Ends

variable {rule : String} {elements : List Expr}

theorem exists_of_isCallOf {e : Expr} (h : e.isCallOf rule = true) :
    ∃ level, e = .rule rule level := by
  cases e with
  | rule name level => exact ⟨level, by rw [eq_of_beq h]⟩
  | _ => cases h

theorem withoutTrailing_append (elements : List Expr) :
    withoutTrailing elements ++ trailingSemantics elements = elements := by
  rw [withoutTrailing, trailingSemantics, ← List.reverse_append, List.takeWhile_append_dropWhile,
    List.reverse_reverse]

theorem isSemantic_of_trailing {x : Expr} (h : x ∈ trailingSemantics elements) :
    x.isSemantic = true :=
  List.mem_takeWhile_imp (List.mem_reverse.mp h)

theorem exists_of_head? (h : elements.head?.any (isCallOf rule) = true) :
    ∃ level rest, elements = .rule rule level :: rest := by
  obtain ⟨e, he, hcall⟩ := (Option.any_eq_true _ _).mp h
  obtain ⟨level, rfl⟩ := exists_of_isCallOf hcall
  exact ⟨level, elements.tail, (List.cons_head?_tail he).symm⟩

theorem exists_of_getLast? (h : elements.getLast?.any (isCallOf rule) = true) :
    ∃ level, elements = elements.dropLast ++ [.rule rule level] := by
  obtain ⟨e, he, hcall⟩ := (Option.any_eq_true _ _).mp h
  obtain ⟨level, rfl⟩ := exists_of_isCallOf hcall
  exact ⟨level, (List.dropLast_append_getLast? _ he).symm⟩

end Ends

theorem operates_toOperand (rule : String) (level : Int) (alternative : Expr) :
    Operates rule level alternative (toOperand rule level alternative) := by
  have happend := withoutTrailing_append alternative.elements
  have htrailing : ∀ x ∈ trailingSemantics alternative.elements, x.isSemantic = true :=
    fun x hx => isSemantic_of_trailing hx
  unfold toOperand
  dsimp only
  generalize withoutTrailing alternative.elements = core at happend
  generalize trailingSemantics alternative.elements = trailing at happend htrailing
  split
  · rename_i hstarts hends
    rw [Bool.and_eq_true, decide_eq_true_iff] at hends
    obtain ⟨left, rest, hleft⟩ := exists_of_head? hstarts
    obtain ⟨right, hright⟩ := exists_of_getLast? hends.2
    match core, hends.1 with
    | first :: second :: others, _ =>
      rw [List.dropLast_cons_cons, List.cons_append] at hright
      have hcons := happend
      rw [hleft, List.cons_append] at hcons
      obtain ⟨rfl, _⟩ := List.cons.inj hcons
      have htail := (List.cons.inj hright).2
      have helements : alternative.elements =
          .rule rule left :: ((second :: others).dropLast ++ .rule rule right :: trailing) := by
        rw [← happend, List.cons_append, htail]
        simp
      exact .binary htrailing helements
  · rename_i hstarts _
    obtain ⟨left, rest, hleft⟩ := exists_of_head? hstarts
    rw [hleft]
    exact .suffix hleft
  · rename_i _ hends
    rw [Bool.and_eq_true] at hends
    obtain ⟨right, hright⟩ := exists_of_getLast? hends.2
    have helements : alternative.elements =
        core.dropLast ++ .rule rule right :: trailing := by
      rw [← happend]
      conv_lhs => rw [hright]
      rw [List.append_assoc, List.singleton_append]
    exact .leading htrailing helements
  · exact .primary

/-- An expression stands for a choice between some others. -/
inductive Picks : List Expr → Expr → Prop where
  | only {e} : Picks [e] e
  | choice {es} : Picks es (.choice es)
  | unwrapped {es} : Picks es (.choice (es.map unwrapOnly))

theorem exists_operatorLoop (es : List Expr) : ∃ op, loopOver es = .operatorLoop op ∧
    Picks es op := by
  unfold loopOver
  split
  · exact ⟨_, rfl, .only⟩
  · exact ⟨_, rfl, .choice⟩

/-- The operator form of a body: a choice of its primaries before a loop over its
operators. -/
theorem operatorForm_eq {rule : String} {body form : Expr}
    (h : toOperatorForm rule body = .ok (some form)) :
    ∃ e, form = .seq [e, loopOver (operators (body.operands rule))] ∧
      (primaries (body.operands rule) = [e] ∨ 1 < (primaries (body.operands rule)).length ∧
        e = .choice ((primaries (body.operands rule)).map unwrapOnly)) := by
  unfold toOperatorForm at h
  split at h
  · cases h
  split at h
  · cases h
  dsimp only at h
  split at h
  · cases h
  · rename_i e heq
    exact ⟨e, (Option.some.inj (Except.ok.inj h)).symm, .inl heq⟩
  · rename_i hnil hone
    refine ⟨_, (Option.some.inj (Except.ok.inj h)).symm, .inr ⟨?_, rfl⟩⟩
    match hes : primaries (body.operands rule) with
    | [] => exact absurd hes hnil
    | [e] => exact absurd hes (hone e)
    | _ :: _ :: _ => simp

/-- The operator form of a body is one of its primaries before a loop over its
operators. -/
theorem operatorForm_cases {rule : String} {body form : Expr}
    (h : toOperatorForm rule body = .ok (some form)) :
    ∃ e op, form = .seq [e, .operatorLoop op] ∧ Picks (primaries (body.operands rule)) e ∧
      Picks (operators (body.operands rule)) op := by
  obtain ⟨e, rfl, he⟩ := operatorForm_eq h
  obtain ⟨op, hop, hpicks⟩ := exists_operatorLoop (operators (body.operands rule))
  rw [hop]
  refine ⟨e, op, rfl, ?_, hpicks⟩
  rcases he with hone | ⟨_, rfl⟩
  · exact hone ▸ .only
  · exact .unwrapped

/-- Each operand comes from an alternative. -/
theorem mem_operands {rule : String} {body : Expr} {o : Operand} (h : o ∈ body.operands rule) :
    ∃ (i : Nat) (a : Expr), body.alternatives[i]? = some a ∧
      Operates rule ((body.alternatives.length : Int) - (i : Int)) a o := by
  obtain ⟨i, hi, rfl⟩ := List.mem_mapIdx.mp h
  exact ⟨i, _, List.getElem?_eq_getElem hi, operates_toOperand rule _ _⟩

theorem operand_of_alternative {body a : Expr} (rule : String) (ha : a ∈ body.alternatives) :
    ∃ o ∈ body.operands rule, ∃ level : Int, 0 < level ∧ Operates rule level a o := by
  obtain ⟨i, hi, rfl⟩ := List.getElem_of_mem ha
  refine ⟨_, List.mem_mapIdx.mpr ⟨i, hi, rfl⟩, _, ?_, operates_toOperand rule _ _⟩
  omega

theorem mem_primaries {os : List Operand} {e : Expr} : e ∈ primaries os ↔ .primary e ∈ os := by
  rw [primaries, List.mem_filterMap]
  constructor
  · rintro ⟨_ | e', ho, heq⟩
    · cases heq
    · exact Option.some.inj heq ▸ ho
  · exact fun h => ⟨_, h, rfl⟩

theorem mem_operators {os : List Operand} {e : Expr} : e ∈ operators os ↔ .operator e ∈ os := by
  rw [operators, List.mem_filterMap]
  constructor
  · rintro ⟨e' | _, ho, heq⟩
    · exact Option.some.inj heq ▸ ho
    · cases heq
  · exact fun h => ⟨_, h, rfl⟩

section Subterms

mutual

theorem subterms_of_elements : ∀ (e : Expr), subtermsOfAll e.elements ⊆ e.subterms
  | .seq items => by
    rw [elements, subterms]
    exact List.subset_cons_of_subset _ (subterms_of_elementsOfAll items)
  | .rightAssoc body => by
    rw [elements, subterms]
    exact List.subset_cons_of_subset _ (subterms_of_elements body)
  | .literal _ | .token _ | .rule _ _ | .wildcard | .eof | .empty | .action _ | .predicate _
  | .precedence _ | .choice _ | .optional _ | .star _ | .plus _ | .label _ _ | .operatorLoop _ => by
    simp [elements, subtermsOfAll]

theorem subterms_of_elementsOfAll : ∀ (es : List Expr),
    subtermsOfAll (elementsOfAll es) ⊆ subtermsOfAll es
  | [] => List.Subset.refl _
  | e :: rest => by
    rw [elementsOfAll, subtermsOfAll_eq, List.flatMap_append, ← subtermsOfAll_eq,
      ← subtermsOfAll_eq, subtermsOfAll]
    exact List.append_subset.mpr
      ⟨List.Subset.trans (subterms_of_elements e) (List.subset_append_left _ _),
      List.Subset.trans (subterms_of_elementsOfAll rest) (List.subset_append_right _ _)⟩

end

theorem subterms_of_alternative {body a : Expr} (ha : a ∈ body.alternatives) :
    a.subterms ⊆ body.subterms := by
  cases body with
  | choice es => exact subterms_choice_subset ha
  | _ => exact List.mem_singleton.mp ha ▸ List.Subset.refl _

variable {P : Expr → Prop}

theorem forall_subterms_seq (hseq : ∀ es, P (.seq es)) {es : List Expr} :
    (∀ x ∈ (.seq es : Expr).subterms, P x) ↔ ∀ e ∈ es, ∀ x ∈ e.subterms, P x := by
  rw [subterms, List.forall_mem_cons, subtermsOfAll_eq]
  simp only [List.mem_flatMap]
  exact ⟨fun ⟨_, h⟩ e he x hx => h x ⟨e, he, hx⟩, fun h =>
    ⟨hseq es, fun x ⟨e, he, hx⟩ => h e he x hx⟩⟩

theorem forall_subterms_elements {a : Expr} (h : ∀ x ∈ a.subterms, P x) :
    ∀ y ∈ a.elements, ∀ x ∈ y.subterms, P x :=
  fun y hy x hx => h x (subterms_of_elements a
    (subtermsOfAll_eq _ ▸ List.mem_flatMap.mpr ⟨y, hy, hx⟩))

theorem forall_subterms_call {name : String} {level level' : Int}
    (hrule : ∀ name level level', P (.rule name level) → P (.rule name level'))
    (h : ∀ x ∈ (Expr.rule name level).subterms, P x) :
    ∀ x ∈ (Expr.rule name level').subterms, P x := by
  simp only [subterms, List.forall_mem_singleton] at h ⊢
  exact hrule _ _ _ h

/-- What holds of all parts of the choices holds of all parts of what picks them. -/
theorem Picks.forall_subterms (hseq : ∀ es, P (.seq es)) (hchoice : ∀ es, P (.choice es))
    {es : List Expr} {e : Expr} (h : Picks es e) (hes : ∀ e ∈ es, ∀ x ∈ e.subterms, P x) :
    ∀ x ∈ e.subterms, P x := by
  have hchoices {es : List Expr} (hes : ∀ e ∈ es, ∀ x ∈ e.subterms, P x) :
      ∀ x ∈ (Expr.choice es).subterms, P x := by
    rw [subterms, List.forall_mem_cons, subtermsOfAll_eq]
    refine ⟨hchoice es, fun x hx => ?_⟩
    obtain ⟨e, he, hx⟩ := List.mem_flatMap.mp hx
    exact hes e he x hx
  cases h with
  | only => exact hes e (List.mem_singleton_self e)
  | choice => exact hchoices hes
  | unwrapped =>
    refine hchoices (List.forall_mem_map.mpr fun e he => ?_)
    unfold unwrapOnly
    split
    · exact (forall_subterms_seq hseq).mp (hes _ he) _ (List.mem_singleton_self _)
    · exact hes e he

/-- What does not depend on precedences holds of the parts of a primary if it holds
of those of its alternative. -/
theorem Operates.forall_subterms_primary {rule : String} {level : Int} {a e : Expr}
    (hseq : ∀ es, P (.seq es))
    (hrule : ∀ name level level', P (.rule name level) → P (.rule name level'))
    (h : Operates rule level a (.primary e)) (ha : ∀ x ∈ a.subterms, P x) :
    ∀ x ∈ e.subterms, P x := by
  have hall := forall_subterms_elements ha
  cases h with
  | leading htrailing hels =>
    rw [hels, List.forall_mem_append, List.forall_mem_cons] at hall
    rw [forall_subterms_seq hseq, List.forall_mem_append, List.forall_mem_cons]
    exact ⟨hall.1, forall_subterms_call hrule hall.2.1, hall.2.2⟩
  | primary => exact (forall_subterms_seq hseq).mpr hall

theorem Operates.forall_subterms_operator {rule : String} {level : Int} {a e : Expr}
    (hseq : ∀ es, P (.seq es)) (hprecedence : ∀ level, P (.precedence level))
    (hrule : ∀ name level level', P (.rule name level) → P (.rule name level'))
    (h : Operates rule level a (.operator e)) (ha : ∀ x ∈ a.subterms, P x) :
    ∀ x ∈ e.subterms, P x := by
  have hall := forall_subterms_elements ha
  have hlevel : ∀ x ∈ (Expr.precedence level).subterms, P x := by
    simp only [subterms, List.forall_mem_singleton]
    exact hprecedence level
  cases h with
  | binary htrailing hels =>
    rw [hels, List.forall_mem_cons, List.forall_mem_append, List.forall_mem_cons] at hall
    rw [forall_subterms_seq hseq, List.forall_mem_cons, List.forall_mem_append,
      List.forall_mem_cons]
    exact ⟨hlevel, hall.2.1, forall_subterms_call hrule hall.2.2.1, hall.2.2.2⟩
  | suffix hels =>
    rw [hels, List.forall_mem_cons] at hall
    rw [forall_subterms_seq hseq, List.forall_mem_cons]
    exact ⟨hlevel, hall.2⟩

/-- What does not depend on precedences or on how parts are put together holds of
all parts of the operator form if it holds of all parts of the body. -/
theorem forall_subterms_operatorForm {rule : String} {body form : Expr} (hseq : ∀ es, P (.seq es))
    (hchoice : ∀ es, P (.choice es)) (hloop : ∀ e, P (.operatorLoop e))
    (hprecedence : ∀ level, P (.precedence level))
    (hrule : ∀ name level level', P (.rule name level) → P (.rule name level'))
    (h : toOperatorForm rule body = .ok (some form)) (hbody : ∀ x ∈ body.subterms, P x) :
    ∀ x ∈ form.subterms, P x := by
  obtain ⟨e, op, rfl, he, hop⟩ := operatorForm_cases h
  have halternative {a : Expr} {i : Nat} (ha : body.alternatives[i]? = some a) :
      ∀ x ∈ a.subterms, P x :=
    fun x hx => hbody x (subterms_of_alternative (List.mem_of_getElem? ha) hx)
  rw [forall_subterms_seq hseq, List.forall_mem_cons, List.forall_mem_singleton]
  constructor
  · refine he.forall_subterms hseq hchoice fun e' he' => ?_
    obtain ⟨i, a, ha, hoperates⟩ := mem_operands (mem_primaries.mp he')
    exact hoperates.forall_subterms_primary hseq hrule (halternative ha)
  · rw [subterms, List.forall_mem_cons]
    refine ⟨hloop op, hop.forall_subterms hseq hchoice fun e' he' => ?_⟩
    obtain ⟨i, a, ha, hoperates⟩ := mem_operands (mem_operators.mp he')
    exact hoperates.forall_subterms_operator hseq hprecedence hrule (halternative ha)

end Subterms

end Expr

section Rules

variable {rules rules' : List Rule} {r r' r₀ : Rule}

/-- What becomes of a rule. -/
theorem Rule.withOperators_cases (h : r.withOperators = .ok r') :
    r'.name = r.name ∧ (r.body.isLeftRecursive r.name = false ∧ r'.leftRecursive = false ∧
      r'.body = r.body ∨ r.body.isLeftRecursive r.name = true ∧ r'.leftRecursive = true ∧
        Expr.toOperatorForm r.name r.body = .ok (some r'.body)) := by
  unfold Rule.withOperators at h
  cases hform : Expr.toOperatorForm r.name r.body with
  | error d =>
    rw [hform] at h
    cases h
  | ok form =>
    have hleft : form.isSome = r.body.isLeftRecursive r.name := by
      unfold Expr.toOperatorForm at hform
      split at hform
      · rename_i hnot
        cases hform
        simpa using hnot
      · rename_i hleft
        split at hform
        · cases hform
        · dsimp only at hform
          split at hform <;> cases hform <;> simpa using hleft
    rw [hform] at h
    cases form with
    | none =>
      cases h
      exact ⟨rfl, .inl ⟨hleft.symm, rfl, rfl⟩⟩
    | some body =>
      cases h
      exact ⟨rfl, .inr ⟨hleft.symm, rfl, rfl⟩⟩

/-- A rule that is one sequence stays as it is, if it has an operator form at all: a
left-recursive one has no primary. -/
theorem Rule.body_withOperators_of_seq {items : List Expr} (hbody : r.body = .seq items)
    (h : r.withOperators = .ok r') : r'.body = r.body := by
  obtain ⟨_, ⟨_, _, hsame⟩ | ⟨hleft, _, hform⟩⟩ := Rule.withOperators_cases h
  · exact hsame
  · have halternatives : r.body.alternatives = [.seq items] := by
      rw [hbody]
      rfl
    have hstarts : Expr.startsWithCall r.name (.seq items) = true := by
      simpa [Expr.isLeftRecursive, halternatives] using hleft
    have hnone : Expr.primaries (r.body.operands r.name) = [] := by
      simp only [Expr.operands, halternatives, List.mapIdx_cons, List.mapIdx_nil, Expr.toOperand,
        hstarts]
      split <;> first | rfl | contradiction
    unfold Expr.toOperatorForm at hform
    rw [hleft] at hform
    simp only [Bool.not_true, Bool.false_eq_true, if_false] at hform
    split at hform
    · cases hform
    · rw [hnone] at hform
      cases hform

theorem forall₂_withOperators (h : rules.mapM Rule.withOperators = .ok rules') :
    List.Forall₂ (fun r r' => r.withOperators = .ok r') rules rules' := by
  induction rules generalizing rules' with
  | nil =>
    cases h
    exact .nil
  | cons r rules ih =>
    rw [List.mapM_cons] at h
    cases hr : r.withOperators with
    | error d => simp [hr, bind, Except.bind] at h
    | ok r' =>
      cases hrest : rules.mapM Rule.withOperators with
      | error d => simp [hr, hrest, bind, Except.bind] at h
      | ok rest =>
        obtain rfl : r' :: rest = rules' := by
          simpa [hr, hrest, bind, Except.bind, pure, Except.pure] using h
        exact .cons hr (ih hrest)

/-- Every rule comes from one of the same name. -/
theorem exists_of_withOperators (h : rules.mapM Rule.withOperators = .ok rules')
    (hr : r' ∈ rules') : ∃ r ∈ rules, r.withOperators = .ok r' := by
  obtain ⟨i, hi, rfl⟩ := List.getElem_of_mem hr
  have hall := forall₂_withOperators h
  exact ⟨_, List.getElem_mem (hall.length_eq ▸ hi), List.forall₂_iff_get.mp hall |>.2 i _ hi⟩

/-- Every rule becomes one of the same name. -/
theorem withOperators_exists (h : rules.mapM Rule.withOperators = .ok rules') (hr : r ∈ rules) :
    ∃ r' ∈ rules', r.withOperators = .ok r' := by
  obtain ⟨i, hi, rfl⟩ := List.getElem_of_mem hr
  have hall := forall₂_withOperators h
  exact ⟨_, List.getElem_mem (hall.length_eq ▸ hi), List.forall₂_iff_get.mp hall |>.2 i hi _⟩

/-- What does not depend on precedences or on how parts are put together holds of
all parts of a rule if it does so before left recursion is turned into operators. -/
theorem Rule.forall_subterms_withOperators {P : Expr → Prop} (hseq : ∀ es, P (.seq es))
    (hchoice : ∀ es, P (.choice es)) (hloop : ∀ e, P (.operatorLoop e))
    (hprecedence : ∀ level, P (.precedence level))
    (hrule : ∀ name level level', P (.rule name level) → P (.rule name level'))
    (h : r.withOperators = .ok r') (hbody : ∀ x ∈ r.body.subterms, P x) :
    ∀ x ∈ r'.body.subterms, P x := by
  obtain ⟨_, ⟨_, _, hsame⟩ | ⟨_, _, hform⟩⟩ := Rule.withOperators_cases h
  · exact hsame ▸ hbody
  · exact Expr.forall_subterms_operatorForm hseq hchoice hloop hprecedence hrule hform hbody

/-- A rule that nobody calls is not left-recursive. -/
theorem Expr.not_isLeftRecursive {rule : String} {body : Expr}
    (h : ∀ level, .rule rule level ∉ body.subterms) : body.isLeftRecursive rule = false := by
  rw [isLeftRecursive, List.any_eq_false]
  intro a ha hstarts
  obtain ⟨level, rest, hels⟩ := exists_of_head? hstarts
  refine h level (subterms_of_alternative ha (subterms_of_elements a ?_))
  rw [hels, subtermsOfAll]
  exact List.mem_append_left _ (self_mem_subterms _)

/-- A rule that no rule calls is not called by operators either. -/
theorem Uncalled.withOperators (huncalled : Uncalled rules r₀)
    (h : rules.mapM Rule.withOperators = .ok rules') (hname : r.name = r₀.name) :
    Uncalled rules' r := by
  intro r' hr' level hcall
  obtain ⟨r'', hr'', hbecomes⟩ := exists_of_withOperators h hr'
  refine Rule.forall_subterms_withOperators (P := fun x => ∀ level, x ≠ .rule r₀.name level)
    (fun _ _ => nofun) (fun _ _ => nofun) (fun _ _ => nofun) (fun _ _ => nofun) ?_ hbecomes ?_
    _ hcall level (by rw [hname])
  · rintro name level _ hne level' heq
    obtain ⟨rfl, _⟩ := Expr.rule.inj heq
    exact hne level rfl
  · rintro x hx level rfl
    exact huncalled r'' hr'' level hx

/-- The end of the input comes to stand nowhere else. -/
theorem Expr.EndFree.withOperators (hfree : r.body.EndFree) (h : r.withOperators = .ok r') :
    r'.body.EndFree :=
  Rule.forall_subterms_withOperators (P := fun x => x.isEnd = false)
    (fun _ => rfl) (fun _ => rfl) (fun _ => rfl) (fun _ => rfl) (fun _ _ _ _ => rfl) h hfree

/-- A rule that no rule calls stays what it is. -/
theorem Uncalled.eq_of_withOperators (huncalled : Uncalled rules r) (hr : r ∈ rules)
    (h : r.withOperators = .ok r') : r' = { r with leftRecursive := false } := by
  have hnot : r.body.isLeftRecursive r.name = false :=
    Expr.not_isLeftRecursive fun level => huncalled r hr level
  obtain ⟨hname, ⟨_, hplain, hbody⟩ | ⟨hleft, _⟩⟩ := Rule.withOperators_cases h
  · obtain ⟨name, body, leftRecursive⟩ := r'
    subst hname hplain hbody
    rfl
  · exact absurd (hnot.symm.trans hleft) Bool.false_ne_true

/-- The rule that a parse can begin with stays what it is. -/
theorem Outermost.withOperators (hout : Outermost rules r₀)
    (h : rules.mapM Rule.withOperators = .ok rules') :
    Outermost rules' { r₀ with leftRecursive := false } := by
  have huncalled : Uncalled rules r₀ := hout.uncalled
  refine ⟨?_, huncalled.withOperators h rfl, fun r' hr' hname => ?_, hout.body⟩
  · obtain ⟨r', hr', hbecomes⟩ := withOperators_exists h hout.mem
    exact huncalled.eq_of_withOperators hout.mem hbecomes ▸ hr'
  · obtain ⟨r, hr, hbecomes⟩ := exists_of_withOperators h hr'
    have hfree := hout.inner r hr fun hsame =>
      hname ((Rule.name_withOperators hbecomes).trans hsame)
    exact hfree.withOperators hbecomes

/-- The end of the input stays at the end of rules that no rule calls. -/
theorem EndsOutermost.withOperators (hends : EndsOutermost rules)
    (h : rules.mapM Rule.withOperators = .ok rules') : EndsOutermost rules' := by
  intro r' hr'
  obtain ⟨r, hr, hbecomes⟩ := exists_of_withOperators h hr'
  rcases hends r hr with hfree | ⟨hlast, huncalled⟩
  · exact .inl (hfree.withOperators hbecomes)
  · have heq := huncalled.eq_of_withOperators hr hbecomes
    refine .inr ⟨heq ▸ hlast, huncalled.withOperators h ?_⟩
    rw [heq]

end Rules

end AdaptiveLL
