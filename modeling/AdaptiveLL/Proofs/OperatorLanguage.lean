/-
The language of a rule in operator form.

A rule whose left recursion was turned into operators derives the words that it
derived as it was written.  Nothing is lost, because the operators of a right
operand can be handed back to the loop of the outermost invocation; nothing is
added, because without its precedences the operator form only repeats the
alternatives.
-/
import AdaptiveLL.Proofs.OperatorForm

namespace AdaptiveLL

namespace Expr

/-- Whether an expression states no precedence itself. -/
def isUnleveled : Expr → Bool
  | .rule _ level => level == 0
  | .precedence _ => false
  | .operatorLoop _ => false
  | _ => true

/-- No part of the expression states a precedence. -/
def Unleveled (e : Expr) : Prop :=
  ∀ x ∈ e.subterms, x.isUnleveled = true

mutual

/-- The expression with its precedences taken away. -/
def flat : Expr → Expr
  | .rule name _ => .rule name 0
  | .precedence _ => .empty
  | .seq items => .seq (flatAll items)
  | .choice alternatives => .choice (flatAll alternatives)
  | .optional body => .optional body.flat
  | .star body => .star body.flat
  | .plus body => .plus body.flat
  | .label name body => .label name body.flat
  | .rightAssoc body => .rightAssoc body.flat
  | .operatorLoop body => .operatorLoop body.flat
  | e => e

def flatAll : List Expr → List Expr
  | [] => []
  | e :: rest => e.flat :: flatAll rest

end

theorem flatAll_eq (es : List Expr) : flatAll es = es.map flat := by
  induction es with
  | nil => rfl
  | cons e es ih => rw [flatAll, List.map_cons, ih]

theorem flat_unwrapOnly (e : Expr) : (unwrapOnly e).flat = unwrapOnly e.flat := by
  cases e with
  | seq items =>
    match items with
    | [] => rfl
    | [_] => rfl
    | _ :: _ :: _ => rfl
  | _ => rfl

theorem Picks.flat {es : List Expr} {e : Expr} (h : Picks es e) :
    Picks (es.map Expr.flat) e.flat := by
  cases h with
  | only => exact .only
  | choice =>
    rw [Expr.flat, flatAll_eq]
    exact .choice
  | unwrapped =>
    have hflat : (es.map unwrapOnly).map Expr.flat = (es.map Expr.flat).map unwrapOnly := by
      simp only [List.map_map, Function.comp_def, flat_unwrapOnly]
    rw [Expr.flat, flatAll_eq, hflat]
    exact .unwrapped

theorem Unleveled.of_mem {e x : Expr} (h : e.Unleveled) (hx : x ∈ e.subterms) : x.Unleveled :=
  fun _ hy => h _ (subterms_trans e hx hy)

theorem unleveled_seq {es : List Expr} :
    (.seq es : Expr).Unleveled ↔ ∀ e ∈ es, e.Unleveled :=
  forall_subterms_seq fun _ => rfl

theorem Unleveled.of_choice {e : Expr} {es : List Expr} (h : (.choice es : Expr).Unleveled)
    (he : e ∈ es) : e.Unleveled :=
  fun _ hx => h _ (subterms_choice_subset he hx)

mutual

/-- An expression without precedences has none to take away. -/
theorem Unleveled.flat_eq : ∀ {e : Expr}, e.Unleveled → e.flat = e
  | .rule name level, h => by
    have hlevel : level = 0 := eq_of_beq (h _ (self_mem_subterms _))
    rw [Expr.flat, hlevel]
  | .precedence _, h => absurd (h _ (self_mem_subterms _)) Bool.false_ne_true
  | .operatorLoop _, h => absurd (h _ (self_mem_subterms _)) Bool.false_ne_true
  | .seq items, h => by rw [Expr.flat, Unleveled.flatAll_eq (unleveled_seq.mp h)]
  | .choice alternatives, h => by
    rw [Expr.flat, Unleveled.flatAll_eq fun e he => h.of_choice he]
  | .optional body, h =>
    congrArg Expr.optional (flat_eq (h.of_mem (by simp [subterms, self_mem_subterms])))
  | .star body, h => congrArg Expr.star (flat_eq (h.of_mem (by simp [subterms, self_mem_subterms])))
  | .plus body, h => congrArg Expr.plus (flat_eq (h.of_mem (by simp [subterms, self_mem_subterms])))
  | .label name body, h =>
    congrArg (Expr.label name) (flat_eq (h.of_mem (by simp [subterms, self_mem_subterms])))
  | .rightAssoc body, h =>
    congrArg Expr.rightAssoc (flat_eq (h.of_mem (by simp [subterms, self_mem_subterms])))
  | .literal _, _ | .token _, _ | .wildcard, _ | .eof, _ | .empty, _ | .action _, _
  | .predicate _, _ => rfl

theorem Unleveled.flatAll_eq : ∀ {es : List Expr}, (∀ e ∈ es, e.Unleveled) → flatAll es = es
  | [], _ => rfl
  | e :: rest, h => by
    rw [Expr.flatAll, flat_eq (h e List.mem_cons_self),
      flatAll_eq fun x hx => h x (List.mem_cons_of_mem _ hx)]

end

end Expr

section Derivations

variable {rules : List Rule} {v : Vocabulary} {p q : Int} {e : Expr} {es es' : List Expr}
  {u w : List TokenType}

theorem derives_nil_iff : Derives rules v p (.seq []) w ↔ w = [] := by
  constructor
  · intro h
    cases h with
    | token ht => cases ht
    | nil => rfl
  · rintro rfl
    exact .nil

theorem derives_cons_iff : Derives rules v p (.seq (e :: es)) w ↔
    ∃ u t, w = u ++ t ∧ Derives rules v p e u ∧ Derives rules v p (.seq es) t := by
  constructor
  · intro h
    cases h with
    | token ht => cases ht
    | cons hfirst hrest => exact ⟨_, _, rfl, hfirst, hrest⟩
  · rintro ⟨u, t, rfl, hfirst, hrest⟩
    exact .cons hfirst hrest

theorem derives_append_iff : Derives rules v p (.seq (es ++ es')) w ↔
    ∃ u t, w = u ++ t ∧ Derives rules v p (.seq es) u ∧ Derives rules v p (.seq es') t := by
  induction es generalizing w with
  | nil => simp [derives_nil_iff]
  | cons e es ih =>
    simp only [List.cons_append, derives_cons_iff, ih]
    constructor
    · rintro ⟨u, _, rfl, hfirst, u', t, rfl, hmid, hrest⟩
      exact ⟨u ++ u', t, (List.append_assoc ..).symm, ⟨u, u', rfl, hfirst, hmid⟩, hrest⟩
    · rintro ⟨_, t, rfl, ⟨u, u', rfl, hfirst, hmid⟩, hrest⟩
      exact ⟨u, u' ++ t, List.append_assoc .., hfirst, u', t, rfl, hmid, hrest⟩

theorem derives_choice_iff : Derives rules v p (.choice es) w ↔
    ∃ e ∈ es, Derives rules v p e w := by
  constructor
  · intro h
    cases h with
    | token ht => cases ht
    | choice he halt => exact ⟨_, he, halt⟩
  · rintro ⟨e, he, h⟩
    exact .choice he h

theorem derives_alternatives_iff :
    Derives rules v p e w ↔ ∃ a ∈ e.alternatives, Derives rules v p a w := by
  cases e with
  | choice es => exact derives_choice_iff
  | _ => simp [Expr.alternatives]

mutual

/-- An alternative derives what its elements derive one after the other. -/
theorem derives_elements_iff : ∀ (e : Expr) {w : List TokenType},
    Derives rules v p (.seq e.elements) w ↔ Derives rules v p e w
  | .seq items, w => by rw [Expr.elements, derives_elementsOfAll_iff items]
  | .rightAssoc body, w => by
    rw [Expr.elements, derives_elements_iff body]
    constructor
    · exact .rightAssoc
    · intro h
      cases h with
      | token ht => cases ht
      | rightAssoc hbody => exact hbody
  | .literal _, w | .token _, w | .rule _ _, w | .wildcard, w | .eof, w | .empty, w | .action _, w
  | .predicate _, w | .precedence _, w | .choice _, w | .optional _, w | .star _, w | .plus _, w
  | .label _ _, w | .operatorLoop _, w => by
    simp [Expr.elements, derives_cons_iff, derives_nil_iff]

theorem derives_elementsOfAll_iff : ∀ (es : List Expr) {w : List TokenType},
    Derives rules v p (.seq (Expr.elementsOfAll es)) w ↔ Derives rules v p (.seq es) w
  | [], w => by rw [Expr.elementsOfAll]
  | e :: rest, w => by
    simp only [Expr.elementsOfAll, derives_append_iff, derives_cons_iff, derives_elements_iff e,
      derives_elementsOfAll_iff rest]

end

theorem derives_unwrapOnly_iff : Derives rules v p e.unwrapOnly w ↔ Derives rules v p e w := by
  unfold Expr.unwrapOnly
  split
  · simp [derives_cons_iff, derives_nil_iff]
  · rfl

theorem Expr.Picks.derives_iff (h : Expr.Picks es e) :
    Derives rules v p e w ↔ ∃ x ∈ es, Derives rules v p x w := by
  cases h with
  | only => simp
  | choice => exact derives_choice_iff
  | unwrapped =>
    rw [derives_choice_iff]
    simp [derives_unwrapOnly_iff]

/-- Actions and predicates derive nothing but the empty word. -/
theorem derives_trailing_iff (h : ∀ x ∈ es, x.isSemantic = true) :
    Derives rules v p (.seq es) w ↔ w = [] := by
  induction es generalizing w with
  | nil => exact derives_nil_iff
  | cons e es ih =>
    rw [List.forall_mem_cons] at h
    have hempty (u : List TokenType) : Derives rules v p e u ↔ u = [] := by
      cases e with
      | action | predicate =>
        constructor
        · intro he
          cases he with
          | token ht => cases ht
          | _ => rfl
        · rintro rfl
          constructor
      | _ => exact absurd h.1 Bool.false_ne_true
    simp [derives_cons_iff, ih h.2, hempty]

/-- What a loop over operators derives can be followed by more of it. -/
theorem Derives.loop_append (h : Derives rules v p (.operatorLoop e) u)
    (h' : Derives rules v p (.operatorLoop e) w) :
    Derives rules v p (.operatorLoop e) (u ++ w) := by
  generalize hloop : Expr.operatorLoop e = x at h
  induction h with
  | operatorEnd =>
    cases hloop
    exact h'
  | operatorMore hbody _ _ ih =>
    cases hloop
    rw [List.append_assoc]
    exact .operatorMore hbody (ih h' rfl)
  | token ht =>
    subst hloop
    cases ht
  | _ => cases hloop

/-- What each round of a loop over operators keeps, the loop keeps. -/
theorem Derives.loop_induction {P : List TokenType → Prop}
    (h : Derives rules v p (.operatorLoop e) w)
    (hround : ∀ u t, P u → Derives rules v p e t → P (u ++ t)) (hu : P u) : P (u ++ w) := by
  generalize hloop : Expr.operatorLoop e = x at h
  induction h generalizing u with
  | operatorEnd => rwa [List.append_nil]
  | operatorMore hbody _ _ ih =>
    cases hloop
    rw [← List.append_assoc]
    exact ih hround (hround _ _ hu hbody) rfl
  | token ht =>
    subst hloop
    cases ht
  | _ => cases hloop

/-- Where no precedence is asked for, that of the invocation does not matter. -/
theorem Derives.of_unguarded (h : Derives rules v p e w)
    (he : ∀ x ∈ e.subterms, ∀ level, x ≠ .precedence level) (q : Int) : Derives rules v q e w := by
  have hbody {e e' : Expr} (hparts : e.subterms = e :: e'.subterms)
      (he : ∀ x ∈ e.subterms, ∀ level, x ≠ .precedence level) :
      ∀ x ∈ e'.subterms, ∀ level, x ≠ .precedence level :=
    fun x hx => he x (hparts ▸ List.mem_cons_of_mem _ hx)
  have hseq {es : List Expr} : (∀ x ∈ (Expr.seq es).subterms, ∀ level, x ≠ .precedence level) ↔
      ∀ e ∈ es, ∀ x ∈ e.subterms, ∀ level, x ≠ .precedence level :=
    Expr.forall_subterms_seq fun _ => nofun
  induction h with
  | token ht => exact .token ht
  | wildcard hlo hhi => exact .wildcard hlo hhi
  | empty => exact .empty
  | action => exact .action
  | predicate => exact .predicate
  | precedence => exact absurd rfl (he _ (Expr.self_mem_subterms _) _)
  | call hr hbody => exact .call hr hbody
  | nil => exact .nil
  | cons _ _ ihfirst ihrest =>
    rw [hseq, List.forall_mem_cons] at he
    exact .cons (ihfirst he.1) (ihrest (hseq.mpr he.2))
  | choice hmem _ ih =>
    exact .choice hmem (ih fun x hx => he x (Expr.subterms_choice_subset hmem hx))
  | absent => exact .absent
  | present _ ih => exact .present (ih (hbody (by rw [Expr.subterms]) he))
  | starEnd => exact .starEnd
  | starMore _ _ ihbody ihrest =>
    exact .starMore (ihbody (hbody (by rw [Expr.subterms]) he)) (ihrest he)
  | operatorEnd => exact .operatorEnd
  | operatorMore _ _ ihbody ihrest =>
    exact .operatorMore (ihbody (hbody (by rw [Expr.subterms]) he)) (ihrest he)
  | plusEnd _ ih => exact .plusEnd (ih (hbody (by rw [Expr.subterms]) he))
  | plusMore _ _ ihbody ihrest =>
    exact .plusMore (ihbody (hbody (by rw [Expr.subterms]) he)) (ihrest he)
  | label _ ih => exact .label (ih (hbody (by rw [Expr.subterms]) he))
  | rightAssoc _ ih => exact .rightAssoc (ih (hbody (by rw [Expr.subterms]) he))

end Derivations

namespace Expr

section Operands

variable {rule : String} {level : Int} {a e : Expr}

theorem unleveled_elements (ha : a.Unleveled) : ∀ x ∈ a.elements, x.Unleveled :=
  forall_subterms_elements ha

/-- Without its precedence a primary is its alternative. -/
theorem Operates.flat_primary (h : Operates rule level a (.primary e)) (ha : a.Unleveled) :
    e.flat = .seq a.elements := by
  have hels := Unleveled.flatAll_eq (unleveled_elements ha)
  rw [flatAll_eq] at hels
  cases h with
  | leading htrailing hcall =>
    rw [hcall] at hels
    rw [flat, flatAll_eq, hcall, ← hels]
    simp [flat]
  | primary => rw [flat, flatAll_eq, hels]

/-- Without its precedences an operator is its alternative, but for the left operand. -/
theorem Operates.flat_operator (h : Operates rule level a (.operator e)) (ha : a.Unleveled) :
    ∃ rest, a.elements = .rule rule 0 :: rest ∧ e.flat = .seq (.empty :: rest) := by
  have hels := Unleveled.flatAll_eq (unleveled_elements ha)
  rw [flatAll_eq] at hels
  cases h with
  | binary htrailing hcall =>
    rw [hcall, List.map_cons] at hels
    obtain ⟨hleft, hrest⟩ := List.cons.inj hels
    refine ⟨_, by rw [hcall, ← hleft, flat], ?_⟩
    rw [flat, flatAll_eq, ← hrest]
    simp [flat]
  | suffix hcall =>
    rw [hcall, List.map_cons] at hels
    obtain ⟨hleft, hrest⟩ := List.cons.inj hels
    refine ⟨_, by rw [hcall, ← hleft, flat], ?_⟩
    rw [flat, flatAll_eq, List.map_cons, hrest, flat]

end Operands

end Expr

section Rewriting

variable {rules rules' : List Rule} {v : Vocabulary} {p : Int} {e : Expr} {w : List TokenType}
  {r r' : Rule}

/-- Without its precedences the operator form derives nothing that the body does not. -/
theorem Derives.of_flat_withOperators (h : r.withOperators = .ok r') (hr : r ∈ rules)
    (hplain : r.body.Unleveled) (hd : Derives rules v 0 r'.body.flat w) :
    Derives rules v 0 r.body w := by
  obtain ⟨_, ⟨_, _, hsame⟩ | ⟨_, _, hform⟩⟩ := Rule.withOperators_cases h
  · rwa [hsame, hplain.flat_eq] at hd
  obtain ⟨e, op, hbody, he, hop⟩ := Expr.operatorForm_cases hform
  have halternative {a : Expr} {i : Nat} (ha : r.body.alternatives[i]? = some a) :
      a ∈ r.body.alternatives ∧ a.Unleveled :=
    ⟨List.mem_of_getElem? ha, fun x hx =>
      hplain x (Expr.subterms_of_alternative (List.mem_of_getElem? ha) hx)⟩
  have hof {a : Expr} {u : List TokenType} (ha : a ∈ r.body.alternatives)
      (hels : Derives rules v 0 (.seq a.elements) u) : Derives rules v 0 r.body u :=
    derives_alternatives_iff.mpr ⟨a, ha, (derives_elements_iff a).mp hels⟩
  rw [hbody, Expr.flat, Expr.flatAll, Expr.flatAll, Expr.flatAll, derives_cons_iff] at hd
  obtain ⟨u, t, rfl, hu, ht⟩ := hd
  have hprimary : Derives rules v 0 r.body u := by
    obtain ⟨x, hx, hu⟩ := he.flat.derives_iff.mp hu
    obtain ⟨y, hy, rfl⟩ := List.mem_map.mp hx
    obtain ⟨i, a, ha, hoperates⟩ := Expr.mem_operands (Expr.mem_primaries.mp hy)
    rw [hoperates.flat_primary (halternative ha).2] at hu
    exact hof (halternative ha).1 hu
  rw [Expr.flat, derives_cons_iff] at ht
  obtain ⟨t, _, rfl, hloop, hnil⟩ := ht
  rw [derives_nil_iff.mp hnil, List.append_nil]
  -- Each round of the loop takes what was derived before as its left operand.
  refine hloop.loop_induction (fun u t hu hround => ?_) hprimary
  obtain ⟨x, hx, hround⟩ := hop.flat.derives_iff.mp hround
  obtain ⟨y, hy, rfl⟩ := List.mem_map.mp hx
  obtain ⟨i, a, ha, hoperates⟩ := Expr.mem_operands (Expr.mem_operators.mp hy)
  obtain ⟨rest, hels, hflat⟩ := hoperates.flat_operator (halternative ha).2
  rw [hflat, derives_cons_iff] at hround
  obtain ⟨_, t, rfl, hempty, hrest⟩ := hround
  cases hempty with
  | token ht => cases ht
  | empty => exact hof (halternative ha).1 (hels ▸ .cons (.call hr hu) hrest)

/-- What the operator forms derive, the rules derive without any precedences. -/
theorem Derives.flat_of_withOperators (hrewrite : rules.mapM Rule.withOperators = .ok rules')
    (hplain : ∀ r ∈ rules, r.body.Unleveled) (h : Derives rules' v p e w) (q : Int) :
    Derives rules v q e.flat w := by
  induction h generalizing q with
  | token ht =>
    cases ht with
    | literal ht => exact .token (.literal ht)
    | token ht => exact .token (.token ht)
    | eof => exact .token .eof
  | wildcard hlo hhi => exact .wildcard hlo hhi
  | empty => exact .empty
  | action => exact .action
  | predicate => exact .predicate
  | precedence => exact .empty
  | call hr' _ ih =>
    obtain ⟨r, hr, hbecomes⟩ := exists_of_withOperators hrewrite hr'
    rw [Rule.name_withOperators hbecomes]
    exact .call hr (.of_flat_withOperators hbecomes hr (hplain r hr) (ih 0))
  | nil => exact .nil
  | cons _ _ ihfirst ihrest => exact .cons (ihfirst q) (ihrest q)
  | choice he _ ih =>
    rw [Expr.flat, Expr.flatAll_eq]
    exact .choice (List.mem_map_of_mem he) (ih q)
  | absent => exact .absent
  | present _ ih => exact .present (ih q)
  | starEnd => exact .starEnd
  | starMore _ _ ihbody ihrest => exact .starMore (ihbody q) (ihrest q)
  | operatorEnd => exact .operatorEnd
  | operatorMore _ _ ihbody ihrest => exact .operatorMore (ihbody q) (ihrest q)
  | plusEnd _ ih => exact .plusEnd (ih q)
  | plusMore _ _ ihbody ihrest => exact .plusMore (ihbody q) (ihrest q)
  | label _ ih => exact .label (ih q)
  | rightAssoc _ ih => exact .rightAssoc (ih q)

theorem derives_form_iff {op : Expr} : Derives rules v p (.seq [e, .operatorLoop op]) w ↔
    ∃ t t', w = t ++ t' ∧ Derives rules v p e t ∧ Derives rules v p (.operatorLoop op) t' := by
  simp [derives_cons_iff, derives_nil_iff]

/-- The primaries of a body without precedences ask for none. -/
theorem Expr.Unleveled.ne_precedence_of_picks {rule : String} {body : Expr}
    (h : body.Unleveled) (he : Picks (primaries (body.operands rule)) e) :
    ∀ x ∈ e.subterms, ∀ level, x ≠ .precedence level := by
  refine he.forall_subterms (fun _ => nofun) (fun _ => nofun) fun e' he' => ?_
  obtain ⟨i, a, ha, hoperates⟩ := mem_operands (mem_primaries.mp he')
  refine hoperates.forall_subterms_primary (fun _ => nofun) (fun _ _ _ _ => nofun) ?_
  rintro x hx level rfl
  exact absurd (h _ (subterms_of_alternative (List.mem_of_getElem? ha) hx)) Bool.false_ne_true

/-- A primary that asks for no precedence stands for any right operand that begins with
it. -/
theorem Derives.call_of_primary {op : Expr} (hr' : r' ∈ rules')
    (hbody : r'.body = .seq [e, .operatorLoop op])
    (he : ∀ x ∈ e.subterms, ∀ level, x ≠ .precedence level) (h : Derives rules' v 0 e w)
    (level : Int) : Derives rules' v 0 (.rule r'.name level) w :=
  .call hr' (hbody ▸ derives_form_iff.mpr ⟨w, [], (List.append_nil w).symm,
    h.of_unguarded he level, .operatorEnd⟩)

/-- The operator form derives what the body derives with operator forms for the
calls in it. -/
theorem Derives.of_withOperators (hnodup : (rules'.map Rule.name).Nodup)
    (h : r.withOperators = .ok r') (hr' : r' ∈ rules') (hplain : r.body.Unleveled)
    (hd : Derives rules' v 0 r.body w) : Derives rules' v 0 r'.body w := by
  obtain ⟨hname, ⟨_, _, hsame⟩ | ⟨_, _, hform⟩⟩ := Rule.withOperators_cases h
  · rwa [hsame]
  obtain ⟨e, op, hbody, he, hop⟩ := Expr.operatorForm_cases hform
  have hcall {level : Int} {u : List TokenType} (hlevel : (.rule r.name level : Expr).Unleveled)
      (h : Derives rules' v 0 (.rule r.name level) u) : ∃ t t', u = t ++ t' ∧
        Derives rules' v 0 e t ∧ Derives rules' v 0 (.operatorLoop op) t' := by
    obtain rfl : level = 0 := eq_of_beq (hlevel _ (Expr.self_mem_subterms _))
    rw [← hname] at h
    exact derives_form_iff.mp (hbody ▸ h.of_call hnodup hr')
  have hprimary {u : List TokenType} (level : Int) (h : Derives rules' v 0 e u) :
      Derives rules' v 0 (.rule r.name level) u :=
    hname ▸ h.call_of_primary hr' hbody (hplain.ne_precedence_of_picks he) level
  rw [hbody, derives_form_iff]
  obtain ⟨a, ha, hd⟩ := derives_alternatives_iff.mp hd
  obtain ⟨o, ho, level, hlevel, hoperates⟩ := Expr.operand_of_alternative r.name ha
  rw [← derives_elements_iff a] at hd
  have hplainOf := Expr.unleveled_elements fun x hx =>
    hplain x (Expr.subterms_of_alternative ha hx)
  cases hoperates with
  | primary =>
    exact ⟨w, [], (List.append_nil w).symm,
      he.derives_iff.mpr ⟨_, Expr.mem_primaries.mpr ho, hd⟩, .operatorEnd⟩
  | leading htrailing hels =>
    rw [hels, List.forall_mem_append, List.forall_mem_cons] at hplainOf
    rw [hels, derives_append_iff] at hd
    obtain ⟨u, _, rfl, hfirst, hd⟩ := hd
    obtain ⟨_, _, rfl, hright, hlast⟩ := derives_cons_iff.mp hd
    obtain rfl := (derives_trailing_iff htrailing).mp hlast
    obtain ⟨t, t', rfl, ht, hloop⟩ := hcall hplainOf.2.1 hright
    refine ⟨u ++ t, t', by simp, he.derives_iff.mpr
      ⟨_, Expr.mem_primaries.mpr ho, derives_append_iff.mpr ⟨u, t, rfl, hfirst, ?_⟩⟩, hloop⟩
    exact derives_cons_iff.mpr ⟨t, [], (List.append_nil t).symm, hprimary level ht, hlast⟩
  | suffix hels =>
    rw [hels, List.forall_mem_cons] at hplainOf
    rw [hels, derives_cons_iff] at hd
    obtain ⟨_, u, rfl, hleft, hrest⟩ := hd
    obtain ⟨t, t', rfl, ht, hloop⟩ := hcall hplainOf.1 hleft
    have hround : Derives rules' v 0 op u :=
      hop.derives_iff.mpr
        ⟨_, Expr.mem_operators.mpr ho, .cons (.precedence (Int.le_of_lt hlevel)) hrest⟩
    refine ⟨t, t' ++ u, List.append_assoc .., ht, hloop.loop_append ?_⟩
    exact List.append_nil u ▸ .operatorMore hround .operatorEnd
  | binary htrailing hels =>
    rw [hels, List.forall_mem_cons, List.forall_mem_append, List.forall_mem_cons] at hplainOf
    rw [hels, derives_cons_iff] at hd
    obtain ⟨_, _, rfl, hleft, hd⟩ := hd
    obtain ⟨u, _, rfl, hmid, hd⟩ := derives_append_iff.mp hd
    obtain ⟨_, _, rfl, hright, hlast⟩ := derives_cons_iff.mp hd
    obtain rfl := (derives_trailing_iff htrailing).mp hlast
    obtain ⟨t, t', rfl, ht, hloop⟩ := hcall hplainOf.1 hleft
    obtain ⟨y, y', rfl, hy, hloop'⟩ := hcall hplainOf.2.2.1 hright
    -- The right operand keeps its primary only; its operators go to the loop outside.
    have hround : Derives rules' v 0 op (u ++ y) := by
      have hlevel : Derives rules' v 0 (.precedence level) [] := .precedence (Int.le_of_lt hlevel)
      refine hop.derives_iff.mpr ⟨_, Expr.mem_operators.mpr ho, hlevel.cons ?_⟩
      refine derives_append_iff.mpr ⟨u, y, rfl, hmid, ?_⟩
      exact derives_cons_iff.mpr ⟨y, [], (List.append_nil y).symm, hprimary _ hy, hlast⟩
    exact ⟨t, t' ++ (u ++ y ++ y'), by simp, ht,
      hloop.loop_append (.operatorMore hround hloop')⟩

/-- What the rules derive, their operator forms derive under every precedence. -/
theorem Derives.withOperators_of_unleveled (hnodup : (rules.map Rule.name).Nodup)
    (hrewrite : rules.mapM Rule.withOperators = .ok rules')
    (hplain : ∀ r ∈ rules, r.body.Unleveled) (h : Derives rules v p e w)
    (he : e.Unleveled) (q : Int) :
    Derives rules' v q e w := by
  have hbody {e e' : Expr} (hparts : e.subterms = e :: e'.subterms) (he : e.Unleveled) :
      e'.Unleveled := fun x hx => he x (hparts ▸ List.mem_cons_of_mem _ hx)
  induction h generalizing q with
  | token ht => exact .token ht
  | wildcard hlo hhi => exact .wildcard hlo hhi
  | empty => exact .empty
  | action => exact .action
  | predicate => exact .predicate
  | precedence | operatorEnd | operatorMore =>
    exact absurd (he _ (Expr.self_mem_subterms _)) Bool.false_ne_true
  | call hr _ ih =>
    obtain ⟨r', hr', hbecomes⟩ := withOperators_exists hrewrite hr
    obtain rfl := eq_of_beq (he _ (Expr.self_mem_subterms _))
    rw [← Rule.name_withOperators hbecomes]
    refine .call hr' (.of_withOperators ?_ hbecomes hr' (hplain _ hr) (ih (hplain _ hr) 0))
    rwa [names_withOperators hrewrite]
  | nil => exact .nil
  | cons _ _ ihfirst ihrest =>
    rw [Expr.unleveled_seq, List.forall_mem_cons] at he
    exact .cons (ihfirst he.1 q) (ihrest (Expr.unleveled_seq.mpr he.2) q)
  | choice hmem _ ih => exact .choice hmem (ih (he.of_choice hmem) q)
  | absent => exact .absent
  | present _ ih => exact .present (ih (hbody (by rw [Expr.subterms]) he) q)
  | starEnd => exact .starEnd
  | starMore _ _ ihbody ihrest =>
    exact .starMore (ihbody (hbody (by rw [Expr.subterms]) he) q) (ihrest he q)
  | plusEnd _ ih => exact .plusEnd (ih (hbody (by rw [Expr.subterms]) he) q)
  | plusMore _ _ ihbody ihrest =>
    exact .plusMore (ihbody (hbody (by rw [Expr.subterms]) he) q) (ihrest he q)
  | label _ ih => exact .label (ih (hbody (by rw [Expr.subterms]) he) q)
  | rightAssoc _ ih => exact .rightAssoc (ih (hbody (by rw [Expr.subterms]) he) q)

/-- Turning left recursion into operators leaves the language of every rule as it
is, if the rules were written without precedences. -/
theorem derives_withOperators_iff (hnodup : (rules.map Rule.name).Nodup)
    (hplain : ∀ r ∈ rules, r.body.Unleveled)
    (hrewrite : rules.mapM Rule.withOperators = .ok rules') (v : Vocabulary) (name : String)
    (w : List TokenType) :
    Derives rules v 0 (.rule name 0) w ↔ Derives rules' v 0 (.rule name 0) w := by
  constructor
  · intro h
    refine h.withOperators_of_unleveled hnodup hrewrite hplain ?_ 0
    simp [Expr.Unleveled, Expr.subterms, Expr.isUnleveled]
  · exact fun h => h.flat_of_withOperators hrewrite hplain 0

/-- A rule with operators before, behind and between its operands, one of them
grouping to the right and one of them with an action at its end. -/
def powers : Rule where
  name := "e"
  body := .choice [
    .seq [.literal "-", .rule "e" 0],
    .rightAssoc (.seq [.rule "e" 0, .literal "^", .rule "e" 0]),
    .seq [.rule "e" 0, .seq [.literal "*", .rule "e" 0], .action "multiply"],
    .seq [.rule "e" 0, .literal "!"],
    .token "ID"]

def powersOperators : Rule where
  name := "e"
  body := .seq [
    .choice [.seq [.literal "-", .rule "e" 5], .token "ID"],
    .operatorLoop (.choice [
      .seq [.precedence 4, .literal "^", .rule "e" 4],
      .seq [.precedence 3, .literal "*", .rule "e" 4, .action "multiply"],
      .seq [.precedence 2, .literal "!"]])]
  leftRecursive := true

theorem derives_withOperators_iff_powers :
    [powers].mapM Rule.withOperators = .ok [powersOperators] ∧ ∀ v w,
      Derives [powers] v 0 (.rule "e" 0) w ↔ Derives [powersOperators] v 0 (.rule "e" 0) w := by
  refine ⟨rfl, fun v w => derives_withOperators_iff (by simp) ?_ rfl v "e" w⟩
  simp [powers, Expr.Unleveled, Expr.subterms, Expr.subtermsOfAll, Expr.isUnleveled]

end Rewriting

end AdaptiveLL
