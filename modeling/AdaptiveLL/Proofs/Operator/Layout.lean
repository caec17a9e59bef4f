/-
How a rule of operators lies in a network.

Behind a primary the rule has come to its knot: the head of the loop over its
operators, or its stop state if there is no operator.  From the knot each operator
leads back to it: by its level, its token and the call of its right operand.
-/
import AdaptiveLL.Proofs.OperatorForm
import AdaptiveLL.Proofs.Operator.Tree

namespace AdaptiveLL

namespace Arm

def level (as : List Arm) (i : Nat) : Int :=
  (as.length : Int) - (i : Int)

/-- The precedence with which the operator of this number calls its right operand. -/
def nextLevel (as : List Arm) (i : Nat) (right : Bool) : Int :=
  if right then level as i else level as i + 1

/-- An operator as it stands in the operator form of the rule. -/
def operator (rule : String) (as : List Arm) (i : Nat) (token : Expr) (right : Bool) : Expr :=
  .seq [.precedence (level as i), token, .rule rule (nextLevel as i right)]

section

variable {rule : String} {as : List Arm} {body e : Expr}

theorem elements_token {token : Expr} (htoken : token.isTokenName = true) (rule : String) :
    token.elements = [token] ∧ token.isCallOf rule = false ∧ token.isSemantic = false := by
  cases token <;> first | exact ⟨rfl, rfl, rfl⟩ | cases htoken

theorem toOperand_binary {token : Expr} (htoken : token.isTokenName = true) (right : Bool)
    (level : Int) : Expr.toOperand rule level ((binary token right).expr rule) =
      .operator
        (.seq [.precedence level, token, .rule rule (if right then level else level + 1)]) := by
  obtain ⟨helements, hcall, hsemantic⟩ := elements_token htoken rule
  cases right <;> simp [Expr.toOperand, expr, Expr.startsWithCall, Expr.elements,
    Expr.elementsOfAll, Expr.withoutTrailing, Expr.trailingSemantics, Expr.isRightAssoc, helements,
    Expr.isCallOf, Expr.isSemantic]

theorem toOperand_primary {token : Expr} (htoken : token.isTokenName = true) (level : Int) :
    Expr.toOperand rule level ((primary token).expr rule) = .primary (.seq [token]) := by
  obtain ⟨helements, hcall, hsemantic⟩ := elements_token htoken rule
  simp [Expr.toOperand, expr, Expr.startsWithCall, Expr.withoutTrailing, helements,
    hcall, hsemantic]

/-- The operators are what makes the rule left-recursive. -/
theorem startsWithCall_expr {a : Arm} (htoken : a.token.isTokenName = true) :
    Expr.startsWithCall rule (a.expr rule) = true ↔ ∃ token right, a = binary token right := by
  cases a with
  | binary token right =>
    refine iff_of_true ?_ ⟨_, _, rfl⟩
    cases right <;>
      simp [expr, Expr.startsWithCall, Expr.elements, Expr.elementsOfAll, Expr.isCallOf]
  | primary token =>
    obtain ⟨helements, hcall, _⟩ : token.elements = [token] ∧ token.isCallOf rule = false ∧ _ :=
      elements_token htoken rule
    refine iff_of_false ?_ (by rintro ⟨_, _, ⟨⟩⟩)
    simp [expr, Expr.startsWithCall, helements, hcall]

/-- What the alternatives become. -/
theorem mem_operands (hbody : body.alternatives = as.map (expr rule)) {o : Operand} :
    o ∈ body.operands rule ↔ ∃ (i : Nat) (a : Arm), as[i]? = some a ∧
      Expr.toOperand rule (level as i) (a.expr rule) = o := by
  rw [Expr.operands, List.mem_mapIdx, hbody]
  simp only [List.length_map, List.getElem_map]
  constructor
  · rintro ⟨i, hi, rfl⟩
    exact ⟨i, _, List.getElem?_eq_getElem hi, rfl⟩
  · rintro ⟨i, a, ha, rfl⟩
    obtain ⟨hi, rfl⟩ := List.getElem?_eq_some_iff.mp ha
    exact ⟨i, hi, rfl⟩

theorem mem_operators (hbody : body.alternatives = as.map (expr rule))
    (htokens : ∀ a ∈ as, a.token.isTokenName = true) :
    e ∈ Expr.operators (body.operands rule) ↔ ∃ (i : Nat) (token : Expr) (right : Bool),
      as[i]? = some (binary token right) ∧ e = operator rule as i token right := by
  rw [Expr.mem_operators, mem_operands hbody]
  constructor
  · rintro ⟨i, a, ha, heq⟩
    have htoken := htokens a (List.mem_of_getElem? ha)
    cases a with
    | binary token right =>
      exact ⟨i, token, right, ha,
        (Operand.operator.inj ((toOperand_binary htoken right _).symm.trans heq)).symm⟩
    | primary token => cases (toOperand_primary htoken _).symm.trans heq
  · rintro ⟨i, token, right, ha, rfl⟩
    exact ⟨i, _, ha, toOperand_binary (htokens _ (List.mem_of_getElem? ha)) right _⟩

theorem mem_primaries (hbody : body.alternatives = as.map (expr rule))
    (htokens : ∀ a ∈ as, a.token.isTokenName = true) :
    e ∈ Expr.primaries (body.operands rule) ↔ ∃ token, primary token ∈ as ∧ e = .seq [token] := by
  rw [Expr.mem_primaries, mem_operands hbody]
  constructor
  · rintro ⟨i, a, ha, heq⟩
    have hmem := List.mem_of_getElem? ha
    have htoken := htokens a hmem
    cases a with
    | binary token right => cases (toOperand_binary htoken right _).symm.trans heq
    | primary token =>
      exact ⟨token, hmem, (Operand.primary.inj ((toOperand_primary htoken _).symm.trans heq)).symm⟩
  · rintro ⟨token, hmem, rfl⟩
    obtain ⟨i, ha⟩ := List.getElem?_of_mem hmem
    exact ⟨i, _, ha, toOperand_primary (htokens _ hmem) _⟩

end

end Arm

namespace Graph

/-- From one state to another there is a way over empty transitions without a choice. -/
def Hops (g : Graph) (rule : RuleIndex) : Nat → Nat → Prop :=
  Relation.ReflTransGen (g.LeadsTo rule)

def CallsOperand (g : Graph) (rule : RuleIndex) (start knot : StateId) (next : Int) (id : Nat) :
    Prop :=
  ∃ follow : Nat, g.LeadsOn rule id [.call start rule follow next] ∧ g.Hops rule follow knot

def ReadsOperator (g : Graph) (rule : RuleIndex) (start knot : StateId) (t : TokenType) (next : Int)
    (id : Nat) : Prop :=
  ∃ target call : Nat, g.LeadsOn rule id [.atom target t] ∧ g.Hops rule target call ∧
    g.CallsOperand rule start knot next call

def ChecksLevel (g : Graph) (rule : RuleIndex) (start knot : StateId) (level : Int) (t : TokenType)
    (next : Int) (id : Nat) : Prop :=
  ∃ target read : Nat, g.LeadsOn rule id [.precedence target level] ∧ g.Hops rule target read ∧
    g.ReadsOperator rule start knot t next read

end Graph

/-- The state checks the level of the operator of this number. -/
def Graph.Rung (g : Graph) (as : List Arm) (rule : RuleIndex) (start knot : StateId)
    (t : TokenType) (i : Nat) (right : Bool) (id : Nat) : Prop :=
  g.ChecksLevel rule start knot (Arm.level as i) t (Arm.nextLevel as i right) id

/-- The state leads to all the operators. -/
structure Graph.Turns (g : Graph) (v : Vocabulary) (as : List Arm) (rule : RuleIndex)
    (start knot : StateId) (targets : List Nat) (id : Nat) : Prop where
  shape : g.shape? id = some ⟨.starBlockStart, rule, targets.map .epsilon⟩
  rung : ∀ target ∈ targets, ∃ t i right, Arm.IsOperator v as t i right ∧
    g.Rung as rule start knot t i right target
  exists_rung : ∀ t i right, Arm.IsOperator v as t i right →
    ∃ target ∈ targets, g.Rung as rule start knot t i right target

/-- What is behind an operand: the loop over the operators, or the end of the rule
if there is no operator. -/
inductive Graph.Knot (g : Graph) (v : Vocabulary) (as : List Arm) (rule : RuleIndex)
    (start stop knot : StateId) : Prop where
  | last (hstop : knot = stop) (hnone : ∀ t i right, ¬Arm.IsOperator v as t i right)
  | loop {turn leave : Nat} {targets : List Nat}
      (hentry : g.shape? knot = some ⟨.starLoopEntry true, rule, [.epsilon turn, .epsilon leave]⟩)
      (hturns : g.Turns v as rule start knot targets turn)
      (hend : ∃ ts, g.shape? leave = some ⟨.loopEnd, rule, ts⟩) (hleave : g.Hops rule leave stop)

/-- A rule of operators: a primary, and what is behind an operand. -/
structure Network.Ladder (n : Network) (v : Vocabulary) (as : List Arm) (rule : RuleIndex)
    (span : RuleSpan) (primary knot : Nat) : Prop where
  stops : n.Stops rule span.stop
  opens : n.Hops rule span.start primary
  reads : ∃ t, n.LeadsOn rule primary [t] ∧ t.isEpsilon = false ∧
    (∀ a, t.accepts n.maxType a = true ↔ Arm.IsPrimary v as a) ∧ n.Hops rule t.target knot
  knot : n.Knot v as rule span.start span.stop knot

section Laid

variable {g : Graph} {v : Vocabulary} {rule : RuleIndex} {e token : Expr} {tokens : List Expr}
  {entry exit lo hi : Nat}

/-- A choice of tokens lies as one state that reads them. -/
theorem Laid.tokens_shape (h : Laid g v rule e entry exit lo hi)
    (htokens : ∀ x ∈ tokens, x.isTokenName = true) (he : e = .choice tokens ∨ tokens = [e]) :
    ∃ t, g.shape? entry = some ⟨.basic, rule, [t]⟩ ∧ t.isEpsilon = false ∧ t.target = exit ∧
      ∀ m a, t.accepts m a = true ↔ ∃ x ∈ tokens, TokenFor v x a := by
  have hone {e : Expr} (h : Laid g v rule e entry exit lo hi) (he : e.isTokenName = true) :
      ∃ t, g.shape? entry = some ⟨.basic, rule, [t]⟩ ∧ t.isEpsilon = false ∧ t.target = exit ∧
        ∀ m a, t.accepts m a = true ↔ ∃ x ∈ [e], TokenFor v x a := by
    obtain ⟨t, hfor, hentry⟩ := h.token_inv (.inl he)
    refine ⟨_, hentry, rfl, rfl, fun m a => ?_⟩
    rw [Transition.accepts, beq_iff_eq]
    refine ⟨fun heq => ⟨e, List.mem_cons_self, heq ▸ hfor⟩, ?_⟩
    rintro ⟨x, hx, hfor'⟩
    exact hfor.unique (List.mem_singleton.mp hx ▸ hfor')
  rcases he with rfl | rfl
  · rcases h.choice_inv with ⟨types, _, htypes, hentry⟩ | ⟨x, rfl, hlaid⟩ | ⟨hform, hmany, _⟩
    · refine ⟨_, hentry, rfl, rfl, fun m a => ?_⟩
      rw [Transition.accepts, TypeSet.contains_ofList]
      refine ⟨TokenFor.exists_expr htypes, ?_⟩
      rintro ⟨x, hx, hfor⟩
      obtain ⟨t, ht, hfor'⟩ := TokenFor.exists_type htypes hx
      exact hfor.unique hfor' ▸ ht
    · exact hone hlaid (htokens _ List.mem_cons_self)
    · rw [Expr.formTokenChoice, List.all_eq_true.mpr htokens] at hform
      simp [hmany] at hform
  · exact hone h (htokens _ List.mem_cons_self)

/-- An operator lies as a check of its level, its token and a call. -/
theorem Laid.rung {name : String} {as : List Arm} {i : Nat} {right : Bool} {span : RuleSpan}
    {knot : Nat} (h : Laid g v rule (Arm.operator name as i token right) entry exit lo hi)
    (htoken : token.isTokenName = true) (hindex : g.ruleIndex? name = some rule)
    (hspan : g.rule? rule = some span) (hback : g.Hops rule exit knot) :
    ∃ t, TokenFor v token t ∧ g.Rung as rule span.start knot t i right entry := by
  obtain ⟨mid, read, _, hlevel, hrest, hmid⟩ := h.chain_inv
  obtain ⟨mid', call, _, hread, hcall, hmid'⟩ := hrest.chain_inv
  have hentry := hlevel.precedence_inv
  obtain ⟨a, hfor, hatom⟩ := hread.token_inv (.inl htoken)
  obtain ⟨callee, span', hcallee, hspan', hentry'⟩ := hcall.only_inv.call_inv
  obtain rfl := Option.some.inj (hindex.symm.trans hcallee)
  obtain rfl := Option.some.inj (hspan.symm.trans hspan')
  exact ⟨a, hfor, mid, read, .of_shape hentry (by decide), .single hmid, mid', call,
    .of_shape hatom (by decide), .single hmid', exit, .of_shape hentry' (by decide), hback⟩

theorem Expr.loopOver_eq {ops : List Expr} (hne : ops ≠ [])
    (hseq : ∀ e ∈ ops, ∃ items, e = .seq items) :
    ∃ op, Expr.loopOver ops = .operatorLoop op ∧ op.lent = ops := by
  match ops with
  | [] => exact absurd rfl hne
  | [e] =>
    obtain ⟨items, rfl⟩ := hseq e List.mem_cons_self
    exact ⟨_, rfl, rfl⟩
  | e :: e' :: rest =>
    obtain ⟨items, rfl⟩ := hseq e List.mem_cons_self
    refine ⟨_, rfl, ?_⟩
    simp [Expr.lent, Expr.formTokenChoice, Expr.isTokenName]

theorem Expr.alternatives_cases (e : Expr) : e = .choice e.alternatives ∨ e.alternatives = [e] := by
  cases e <;> first | exact .inl rfl | exact .inr rfl

end Laid

section Ladder

variable {n : Network} {v : Vocabulary} {rules : List Rule} {as : List Arm} {r r' : Rule}
  {rule : RuleIndex} {span : RuleSpan} {part : Part}

open Arm in
/-- The operators lie as a loop behind the primaries. -/
theorem RuleLaid.knot_of_loop (hlaid : RuleLaid n.toGraph v rule r' span part)
    (hindex : n.ruleIndex? r'.name = some rule) (htokens : ∀ a ∈ as, a.token.isTokenName = true)
    {op : Expr} {ops : List Expr} (hlent : op.lent = ops)
    (hops : ∀ e, e ∈ ops ↔ ∃ (i : Nat) (token : Expr) (right : Bool),
      as[i]? = some (binary token right) ∧ e = operator r'.name as i token right)
    {entry exit lo hi : Nat} (hloop : Laid n.toGraph v rule (.operatorLoop op) entry exit lo hi)
    (hleave : n.Hops rule exit span.stop) : n.Knot v as rule span.start span.stop entry := by
  obtain ⟨block, blockEnd, back, parts, hblock, hentry, hend, hback, hexit⟩ :=
    hloop.headLoop_inv .operators
  have hparts : parts.map Part.expr = ops := hblock.exprs.trans hlent
  have hround (x : Part) (hx : x ∈ parts) : n.Hops rule x.exit entry :=
    .head (hblock.branches.leave x hx) (.head hend (.single ⟨_, by decide, hback⟩))
  have hrung (x : Part) (hx : x ∈ parts) {i : Nat} {token : Expr} {right : Bool}
      (ha : as[i]? = some (binary token right))
      (hexpr : x.expr = operator r'.name as i token right) :
      ∃ t, TokenFor v token t ∧ n.Rung as rule span.start entry t i right x.entry := by
    have hx' := hblock.laid x hx
    rw [hexpr] at hx'
    exact hx'.rung (htokens _ (List.mem_of_getElem? ha)) hindex hlaid.span_eq (hround x hx)
  have hturns : n.Turns v as rule span.start entry (parts.map Part.entry) block := by
    refine ⟨?_, ?_, ?_⟩
    · rw [hblock.branches.entry_shape, List.map_map]
      rfl
    · intro target htarget
      obtain ⟨x, hx, rfl⟩ := List.mem_map.mp htarget
      obtain ⟨i, token, right, ha, hexpr⟩ := (hops _).mp (hparts ▸ List.mem_map_of_mem hx)
      obtain ⟨t, hfor, hrung⟩ := hrung x hx ha hexpr
      exact ⟨t, i, right, ⟨token, ha, hfor⟩, hrung⟩
    · rintro t i right ⟨token, ha, hfor⟩
      have hmem := (hops _).mpr ⟨i, token, right, ha, rfl⟩
      rw [← hparts] at hmem
      obtain ⟨x, hx, hexpr⟩ := List.mem_map.mp hmem
      obtain ⟨t', hfor', hrung⟩ := hrung x hx ha hexpr
      obtain rfl := hfor.unique hfor'
      exact ⟨x.entry, List.mem_map_of_mem hx, hrung⟩
  exact .loop hentry hturns hexit hleave

open Arm in
/-- Where the tokens of the primaries lie, an operand is read on the way to the knot. -/
theorem Laid.reads_primary {e : Expr} {tokens : List Expr} {entry exit knot lo hi : Nat}
    (h : Laid n.toGraph v rule e entry exit lo hi) (he : e = .choice tokens ∨ tokens = [e])
    (htokens : ∀ a ∈ as, a.token.isTokenName = true)
    (hmem : ∀ x, x ∈ tokens ↔ primary x ∈ as) (hleave : n.Hops rule exit knot) :
    ∃ t, n.LeadsOn rule entry [t] ∧ t.isEpsilon = false ∧
      (∀ a, t.accepts n.maxType a = true ↔ IsPrimary v as a) ∧ n.Hops rule t.target knot := by
  obtain ⟨t, hentry, hreads, htarget, haccepts⟩ :=
    h.tokens_shape (fun x hx => htokens _ ((hmem x).mp hx)) he
  refine ⟨t, .of_shape hentry (by decide), hreads, fun a => ?_, htarget ▸ hleave⟩
  rw [haccepts]
  exact exists_congr fun x => and_congr_left fun _ => hmem x

open Arm in
/-- Without operators the knot is the end of the rule. -/
theorem RuleLaid.ladder_of_plain (hlaid : RuleLaid n.toGraph v rule r span part)
    (hplain : r.body.isLeftRecursive r.name = false)
    (hbody : r.body.alternatives = as.map (expr r.name))
    (htokens : ∀ a ∈ as, a.token.isTokenName = true) :
    n.Ladder v as rule span part.entry span.stop := by
  have hprimaries (a : Arm) (ha : a ∈ as) : ∃ token, a = primary token := by
    cases a with
    | primary token => exact ⟨token, rfl⟩
    | binary token right =>
      rw [Expr.isLeftRecursive, List.any_eq_false, hbody] at hplain
      exact absurd ((startsWithCall_expr (htokens _ ha)).mpr ⟨_, _, rfl⟩)
        (hplain _ (List.mem_map_of_mem ha))
  have hmem (x : Expr) : x ∈ r.body.alternatives ↔ primary x ∈ as := by
    rw [hbody, List.mem_map]
    constructor
    · rintro ⟨a, ha, rfl⟩
      obtain ⟨token, rfl⟩ := hprimaries a ha
      exact ha
    · exact fun hx => ⟨_, hx, rfl⟩
  refine ⟨hlaid.stops, .single ⟨_, by decide, hlaid.start_shape⟩, ?_, .last rfl ?_⟩
  · exact hlaid.body.reads_primary r.body.alternatives_cases htokens hmem (.single hlaid.leave)
  · rintro t i right ⟨e, ha, _⟩
    obtain ⟨token, heq⟩ := hprimaries _ (List.mem_of_getElem? ha)
    cases heq

open Arm in
/-- In the operator form the knot is the head of the loop over the operators. -/
theorem RuleLaid.ladder_of_form (hlaid : RuleLaid n.toGraph v rule r' span part)
    (hindex : n.ruleIndex? r'.name = some rule) (hname : r'.name = r.name)
    (hleft : r.body.isLeftRecursive r.name = true)
    (hform : Expr.toOperatorForm r.name r.body = .ok (some r'.body))
    (hbody : r.body.alternatives = as.map (expr r.name))
    (htokens : ∀ a ∈ as, a.token.isTokenName = true) :
    ∃ knot, n.Ladder v as rule span part.entry knot := by
  obtain ⟨e, heq, he⟩ := Expr.operatorForm_eq hform
  have hops (x : Expr) := mem_operators (e := x) hbody htokens
  have hne : Expr.operators (r.body.operands r.name) ≠ [] := by
    obtain ⟨x, hx, hstarts⟩ := List.any_eq_true.mp hleft
    rw [hbody] at hx
    obtain ⟨a, ha, rfl⟩ := List.mem_map.mp hx
    obtain ⟨token, right, rfl⟩ := (startsWithCall_expr (htokens a ha)).mp hstarts
    obtain ⟨i, hi⟩ := List.getElem?_of_mem ha
    exact List.ne_nil_of_mem ((hops _).mpr ⟨i, token, right, hi, rfl⟩)
  obtain ⟨op, hloop, hlent⟩ := Expr.loopOver_eq hne fun x hx => by
    obtain ⟨_, _, _, _, rfl⟩ := (hops x).mp hx
    exact ⟨_, rfl⟩
  have hwhole := hlaid.body
  rw [heq, hloop] at hwhole
  obtain ⟨mid, knot, _, hfirst, hrest, hmid⟩ := hwhole.chain_inv
  have hmem (x : Expr) : x ∈ (Expr.primaries (r.body.operands r.name)).map Expr.unwrapOnly ↔
      primary x ∈ as := by
    rw [List.mem_map]
    constructor
    · rintro ⟨y, hy, rfl⟩
      obtain ⟨token, ha, rfl⟩ := (mem_primaries hbody htokens).mp hy
      exact ha
    · exact fun hx => ⟨_, (mem_primaries hbody htokens).mpr ⟨x, hx, rfl⟩, rfl⟩
  refine ⟨knot, hlaid.stops, .single ⟨_, by decide, hlaid.start_shape⟩, ?_, ?_⟩
  · rcases he with hone | ⟨_, rfl⟩
    · obtain ⟨token, _, rfl⟩ := (mem_primaries (e := e) hbody htokens).mp (by simp [hone])
      exact hfirst.only_inv.reads_primary (.inr (by simp [hone, Expr.unwrapOnly])) htokens hmem
        (.single hmid)
    · exact hfirst.reads_primary (.inl rfl) htokens hmem (.single hmid)
  · exact hlaid.knot_of_loop hindex htokens hlent (fun x => hname ▸ hops x) hrest.only_inv
      (.single hlaid.leave)

open Arm in
/-- A rule of operators lies as a ladder. -/
theorem RuleLaid.exists_ladder (hlaid : RuleLaid n.toGraph v rule r' span part)
    (hindex : n.ruleIndex? r'.name = some rule) (hoperators : r.withOperators = .ok r')
    (hbody : r.body.alternatives = as.map (expr r.name))
    (htokens : ∀ a ∈ as, a.token.isTokenName = true) :
    ∃ primary knot, n.Ladder v as rule span primary knot := by
  obtain ⟨hname, ⟨hplain, _, hsame⟩ | ⟨hleft, _, hform⟩⟩ := Rule.withOperators_cases hoperators
  · rw [← hsame, ← hname] at hplain hbody
    exact ⟨_, _, hlaid.ladder_of_plain hplain hbody htokens⟩
  · exact ⟨_, hlaid.ladder_of_form hindex hname hleft hform hbody htokens⟩

end Ladder

end AdaptiveLL
