/-
What an expression of each form is laid of.

An expression without parts is one transition.  Of the other forms only an empty
sequence and a choice between tokens can be one, so for each form there is little to
tell apart.
-/
import AdaptiveLL.Proofs.Layout

namespace AdaptiveLL

def Expr.isLeaf : Expr → Bool
  | .literal _ | .token _ | .rule _ _ | .wildcard | .eof | .empty => true
  | .action _ | .predicate _ | .precedence _ => true
  | _ => false

/-- Whether an expression is laid by laying its parts, whatever they are. -/
def Expr.isComposite : Expr → Bool
  | .seq [] | .choice _ => false
  | e => !e.isLeaf

theorem EdgeFor.not_composite {g : Graph} {v : Vocabulary} {rule : RuleIndex} {exit : StateId}
    {e : Expr} {t : Transition} (h : EdgeFor g v rule exit e t) : e.isComposite = false := by
  cases h with
  | token ht => cases ht <;> rfl
  | _ => rfl

structure BlockLaid (g : Graph) (v : Vocabulary) (rule : RuleIndex) (role : StateRole)
    (alternatives : List Expr) (entry exit lo hi : Nat) (parts : List Part) : Prop where
  exprs : parts.map Part.expr = alternatives
  branches : Branches g rule role entry exit lo hi parts
  laid : ∀ x ∈ parts, Laid g v rule x.expr x.entry x.exit x.lo x.hi

theorem BlockLaid.expr_mem {g : Graph} {v : Vocabulary} {rule : RuleIndex} {role : StateRole}
    {alternatives : List Expr} {entry exit lo hi : Nat} {parts : List Part}
    (h : BlockLaid g v rule role alternatives entry exit lo hi parts) {x : Part} (hx : x ∈ parts) :
    x.expr ∈ alternatives :=
  h.exprs ▸ List.mem_map_of_mem hx

namespace Laid

variable {g : Graph} {v : Vocabulary} {rule : RuleIndex} {e body : Expr} {es : List Expr}
  {entry exit lo hi : Nat}

theorem leaf_inv (h : Laid g v rule e entry exit lo hi) (hleaf : e.isLeaf = true) :
    (lo = entry ∧ exit = entry + 1 ∧ hi = entry + 2) ∧
      ∃ t, EdgeFor g v rule exit e t ∧ g.shape? entry = some ⟨.basic, rule, [t]⟩ := by
  cases h with
  | edge hedge hentry => exact ⟨⟨rfl, rfl, rfl⟩, _, hedge, hentry⟩
  | loop _ he => cases he <;> cases hleaf
  | _ => cases hleaf

/-- A token is one transition, which reads it. -/
theorem token_inv (h : Laid g v rule e entry exit lo hi) (he : e.isTokenName = true ∨ e = .eof) :
    ∃ t, TokenFor v e t ∧ g.shape? entry = some ⟨.basic, rule, [.atom exit t]⟩ := by
  have hleaf : e.isLeaf = true := by
    rcases he with he | rfl
    · cases e with
      | literal | token => rfl
      | _ => cases he
    · rfl
  obtain ⟨_, _, hedge, hentry⟩ := h.leaf_inv hleaf
  cases hedge with
  | token ht => exact ⟨_, ht, hentry⟩
  | _ => rcases he with he | he <;> cases he

theorem wildcard_inv (h : Laid g v rule .wildcard entry exit lo hi) :
    g.shape? entry = some ⟨.basic, rule, [.wildcard exit]⟩ := by
  obtain ⟨_, _, hedge, hentry⟩ := h.leaf_inv rfl
  cases hedge with
  | token ht => cases ht
  | wildcard => exact hentry

theorem precedence_inv {level : Int} (h : Laid g v rule (.precedence level) entry exit lo hi) :
    g.shape? entry = some ⟨.basic, rule, [.precedence exit level]⟩ := by
  obtain ⟨_, _, hedge, hentry⟩ := h.leaf_inv rfl
  cases hedge with
  | token ht => cases ht
  | precedence => exact hentry

/-- A call leads to the start of the rule of its name. -/
theorem call_inv {name : String} {level : Int}
    (h : Laid g v rule (.rule name level) entry exit lo hi) :
    ∃ callee span, g.ruleIndex? name = some callee ∧ g.rule? callee = some span ∧
      g.shape? entry = some ⟨.basic, rule, [.call span.start callee exit level]⟩ := by
  obtain ⟨_, _, hedge, hentry⟩ := h.leaf_inv rfl
  cases hedge with
  | token ht => cases ht
  | call hcallee hspan => exact ⟨_, _, hcallee, hspan, hentry⟩

theorem empty_inv (h : Laid g v rule .empty entry exit lo hi) :
    g.shape? entry = some ⟨.basic, rule, [.epsilon exit]⟩ := by
  obtain ⟨_, _, hedge, hentry⟩ := h.leaf_inv rfl
  cases hedge with
  | token ht => cases ht
  | empty => exact hentry

theorem nil_inv (h : Laid g v rule (.seq []) entry exit lo hi) :
    g.shape? entry = some ⟨.basic, rule, [.epsilon exit]⟩ := by
  cases h with
  | edge hedge hentry =>
    cases hedge with
    | token ht => cases ht
    | nothing => exact hentry
  | loop _ he => cases he

theorem only_inv (h : Laid g v rule (.seq [e]) entry exit lo hi) :
    Laid g v rule e entry exit lo hi := by
  cases h with
  | edge hedge => cases hedge.not_composite
  | loop _ he => cases he
  | only hlaid => exact hlaid

/-- A sequence of several parts is its first part, and the sequence of the others
behind it. -/
theorem chain_inv {next : Expr} (h : Laid g v rule (.seq (e :: next :: es)) entry exit lo hi) :
    ∃ mid mid' cut, Laid g v rule e entry mid lo cut ∧
      Laid g v rule (.seq (next :: es)) mid' exit cut hi ∧ g.LeadsTo rule mid mid' := by
  cases h with
  | edge hedge => cases hedge.not_composite
  | loop _ he => cases he
  | chain hfirst hrest hmid => exact ⟨_, _, _, hfirst, hrest, hmid⟩

/-- A choice is one transition if it is between tokens, its only alternative if
there is one, and else a block. -/
theorem choice_inv (h : Laid g v rule (.choice es) entry exit lo hi) :
    (∃ types, Expr.formTokenChoice es = true ∧ List.Forall₂ (TokenFor v) es types ∧
        g.shape? entry = some ⟨.basic, rule, [.set exit (.ofList types)]⟩) ∨
      (∃ e, es = [e] ∧ Laid g v rule e entry exit lo hi) ∨
      Expr.formTokenChoice es = false ∧ 1 < es.length ∧
        ∃ parts, BlockLaid g v rule .blockStart es entry exit lo hi parts := by
  cases h with
  | edge hedge hentry =>
    cases hedge with
    | token ht => cases ht
    | tokens hform htypes => exact .inl ⟨_, hform, htypes, hentry⟩
  | loop _ he => cases he
  | single hlaid => exact .inr (.inl ⟨_, rfl, hlaid⟩)
  | choice parts hparts hform hmany hbranches hlaid =>
    exact .inr (.inr ⟨hform, hmany, parts, hparts, hbranches, hlaid⟩)

theorem optional_inv (h : Laid g v rule (.optional body) entry exit lo hi) :
    ∃ parts, BlockLaid g v rule .blockStart (body.lent ++ [.empty]) entry exit lo hi parts := by
  cases h with
  | edge hedge => cases hedge.not_composite
  | loop _ he => cases he
  | optional parts hparts hbranches hlaid => exact ⟨parts, hparts, hbranches, hlaid⟩

/-- A loop that decides at its head has a block, and a way back from it to the head. -/
theorem headLoop_inv {operators : Bool} (h : Laid g v rule e entry exit lo hi)
    (he : HeadLoop e body operators) :
    ∃ block blockEnd back parts,
      BlockLaid g v rule .starBlockStart body.lent block blockEnd (entry + 1) back parts ∧
        g.shape? entry =
          some ⟨.starLoopEntry operators, rule, [.epsilon block, .epsilon exit]⟩ ∧
        g.LeadsTo rule blockEnd back ∧
        g.shape? back = some ⟨.starLoopBack, rule, [.epsilon entry]⟩ ∧
        ∃ ts, g.shape? exit = some ⟨.loopEnd, rule, ts⟩ := by
  cases h with
  | edge hedge =>
    have hnot := hedge.not_composite
    cases he <;> cases hnot
  | loop parts he' hparts hbranches hlaid hentry hend hback hexit =>
    cases he <;> cases he' <;>
      exact ⟨_, _, _, parts, ⟨hparts, hbranches, hlaid⟩, hentry, hend, hback, hexit⟩
  | _ => cases he

/-- The other loop begins with its block, and decides behind it. -/
theorem plus_inv (h : Laid g v rule (.plus body) entry exit lo hi) :
    ∃ blockEnd back parts,
      BlockLaid g v rule .plusBlockStart body.lent entry blockEnd lo back parts ∧
        g.LeadsTo rule blockEnd back ∧
        g.shape? back = some ⟨.plusLoopBack, rule, [.epsilon entry, .epsilon exit]⟩ := by
  cases h with
  | edge hedge => cases hedge.not_composite
  | loop _ he => cases he
  | plus parts hparts hbranches hlaid hend hback =>
    exact ⟨_, _, parts, ⟨hparts, hbranches, hlaid⟩, hend, hback⟩

theorem label_inv {name : String} (h : Laid g v rule (.label name body) entry exit lo hi) :
    Laid g v rule body entry exit lo hi := by
  cases h with
  | edge hedge => cases hedge.not_composite
  | loop _ he => cases he
  | label hlaid => exact hlaid

theorem rightAssoc_inv (h : Laid g v rule (.rightAssoc body) entry exit lo hi) :
    Laid g v rule body entry exit lo hi := by
  cases h with
  | edge hedge => cases hedge.not_composite
  | loop _ he => cases he
  | rightAssoc hlaid => exact hlaid

end Laid

end AdaptiveLL
