/-
Binary trees of operators and their operands.

An alternative of a rule of operators is a binary operator or an operand of one
token.  A tree is grouped by the alternatives if an operator stands right below
another only where its alternative is an earlier one, or the same on the side to
which the operator groups.  Two grouped trees of the same tokens are the same tree:
the operator at the root is the last of the alternatives that occur, and of several
of these the one at the far end of its side.
-/
import AdaptiveLL.Proofs.Layout

namespace AdaptiveLL

def Expr.tokenType? (v : Vocabulary) : Expr → Option TokenType
  | .literal text => v.typeOfLiteral? text
  | .token name => v.typeOfName? name
  | .eof => some .eof
  | _ => none

theorem tokenFor_iff {v : Vocabulary} {e : Expr} {t : TokenType} :
    TokenFor v e t ↔ e.tokenType? v = some t := by
  constructor
  · intro h
    cases h with
    | literal ht => exact ht
    | token ht => exact ht
    | eof => rfl
  · intro h
    cases e with
    | literal => exact .literal h
    | token => exact .token h
    | eof =>
      obtain rfl := Option.some.inj h
      exact .eof
    | _ => cases h

/-- An alternative of a rule of operators: a token between two operands, or a token
that is an operand. -/
inductive Arm where
  | binary (token : Expr) (groupsRight : Bool)
  | primary (token : Expr)

namespace Arm

def token : Arm → Expr
  | .binary token _ => token
  | .primary token => token

/-- The alternative as it is written in the rule of this name. -/
def expr (rule : String) : Arm → Expr
  | .binary token false => .seq [.rule rule 0, token, .rule rule 0]
  | .binary token true => .rightAssoc (.seq [.rule rule 0, token, .rule rule 0])
  | .primary token => token

/-- The type belongs to the operator of the alternative of this number. -/
def IsOperator (v : Vocabulary) (as : List Arm) (t : TokenType) (i : Nat) (right : Bool) :
    Prop :=
  ∃ e, as[i]? = some (.binary e right) ∧ TokenFor v e t

/-- The type belongs to an operand of one token. -/
def IsPrimary (v : Vocabulary) (as : List Arm) (t : TokenType) : Prop :=
  ∃ e, .primary e ∈ as ∧ TokenFor v e t

def Distinct (v : Vocabulary) (as : List Arm) : Prop :=
  ∀ (i j : Nat) (a b : Arm) (t : TokenType), as[i]? = some a → as[j]? = some b →
    TokenFor v a.token t → TokenFor v b.token t → i = j

section

variable {v : Vocabulary} {as : List Arm} {t : TokenType} {i j : Nat} {right right' : Bool}

/-- Tokens that have a type each of their own are told apart. -/
theorem Distinct.of_nodup (h : (as.map fun a => a.token.tokenType? v).Nodup) : Distinct v as := by
  intro i j a b t ha hb hfor hfor'
  rw [tokenFor_iff] at hfor hfor'
  have hi : i < (as.map fun a => a.token.tokenType? v).length := by
    rw [List.length_map]
    exact (List.getElem?_eq_some_iff.mp ha).1
  apply (List.getElem?_inj hi h).mp
  rw [List.getElem?_map, List.getElem?_map, ha, hb, Option.map_some, Option.map_some, hfor, hfor']

theorem IsOperator.unique (hdistinct : Distinct v as) (h : IsOperator v as t i right)
    (h' : IsOperator v as t j right') : i = j ∧ right = right' := by
  obtain ⟨e, he, hfor⟩ := h
  obtain ⟨e', he', hfor'⟩ := h'
  obtain rfl := hdistinct i j _ _ t he he' hfor hfor'
  exact ⟨rfl, (binary.inj (Option.some.inj (he.symm.trans he'))).2⟩

theorem IsOperator.groups_eq (h : IsOperator v as t i right) {t' : TokenType}
    (h' : IsOperator v as t' i right') : right = right' := by
  obtain ⟨_, he, _⟩ := h
  obtain ⟨_, he', _⟩ := h'
  exact (binary.inj (Option.some.inj (he.symm.trans he'))).2

theorem IsPrimary.not_isOperator (hdistinct : Distinct v as) (h : IsPrimary v as t) :
    ¬IsOperator v as t i right := by
  rintro ⟨e, he, hfor⟩
  obtain ⟨e', hmem, hfor'⟩ := h
  obtain ⟨j, hj, heq⟩ := List.getElem_of_mem hmem
  have he' : as[j]? = some (.primary e') := heq ▸ List.getElem?_eq_getElem hj
  obtain rfl := hdistinct i j _ _ t he he' hfor hfor'
  cases he.symm.trans he'

end

end Arm

inductive OperatorTree where
  | primary (t : Token)
  | binary (left : OperatorTree) (op : Token) (right : OperatorTree)
deriving DecidableEq

namespace OperatorTree

def tokens : OperatorTree → List Token
  | .primary t => [t]
  | .binary left op right => left.tokens ++ op :: right.tokens

def root? : OperatorTree → Option Token
  | .primary _ => none
  | .binary _ op _ => some op

/-- The operator at the root, if there is one, is that of an earlier alternative
than this, or of this one if that is `allowed`. -/
def Under (v : Vocabulary) (as : List Arm) (i : Nat) (allowed : Bool) (tree : OperatorTree) :
    Prop :=
  ∀ op, tree.root? = some op → ∀ j right, Arm.IsOperator v as op.type j right →
    j < i ∨ j = i ∧ allowed = true

/-- Every operator has the operators under it that bind tighter. -/
inductive Grouped (v : Vocabulary) (as : List Arm) : OperatorTree → Prop where
  | primary {t : Token} (ht : Arm.IsPrimary v as t.type) : Grouped v as (.primary t)
  | binary {left op right i groupsRight} (hop : Arm.IsOperator v as op.type i groupsRight)
      (hl : Grouped v as left) (hr : Grouped v as right) (hleft : left.Under v as i (!groupsRight))
      (hright : right.Under v as i groupsRight) : Grouped v as (.binary left op right)

theorem Under.primary {v : Vocabulary} {as : List Arm} {i : Nat} {allowed : Bool} (t : Token) :
    (OperatorTree.primary t).Under v as i allowed := by
  intro op hroot
  cases hroot

theorem Under.binary {v : Vocabulary} {as : List Arm} (hdistinct : Arm.Distinct v as)
    {left right : OperatorTree} {op : Token} {i j : Nat} {groupsRight allowed : Bool}
    (hop : Arm.IsOperator v as op.type j groupsRight) (h : j < i ∨ j = i ∧ allowed = true) :
    (OperatorTree.binary left op right).Under v as i allowed := by
  intro op' hroot k groupsRight' hk
  obtain rfl := Option.some.inj hroot
  rwa [← (hop.unique hdistinct hk).1]

theorem tokens_ne_nil (tree : OperatorTree) : tree.tokens ≠ [] := by
  cases tree <;> simp [tokens]

theorem tokens_binary_ne (left : OperatorTree) (op : Token) (right : OperatorTree) (t : Token) :
    (binary left op right).tokens ≠ [t] := by
  intro h
  rcases List.append_eq_singleton_iff.mp h with ⟨hleft, _⟩ | ⟨_, hright⟩
  · exact left.tokens_ne_nil hleft
  · cases hright

variable {v : Vocabulary} {as : List Arm} {tree tree' left left' right right' : OperatorTree}
  {op op' : Token}

/-- No operator of a grouped tree is of a later alternative than the one at the root. -/
theorem Grouped.exists_root (h : tree.Grouped v as) (hdistinct : Arm.Distinct v as)
    (hop : op ∈ tree.tokens) {i : Nat} {b : Bool} (hi : Arm.IsOperator v as op.type i b) :
    ∃ top j b', tree.root? = some top ∧ Arm.IsOperator v as top.type j b' ∧ i ≤ j := by
  induction h with
  | primary ht =>
    rw [List.mem_singleton.mp hop] at hi
    exact absurd hi (ht.not_isOperator hdistinct)
  | @binary left top right j b' htop _ _ hleft hright ihl ihr =>
    refine ⟨top, j, b', rfl, htop, ?_⟩
    rcases List.mem_append.mp hop with hmem | hmem
    · obtain ⟨_, k, _, hroot, hk, hle⟩ := ihl hmem
      have := hleft _ hroot k _ hk
      omega
    rcases List.mem_cons.mp hmem with rfl | hmem
    · exact Nat.le_of_eq (hi.unique hdistinct htop).1
    · obtain ⟨_, k, _, hroot, hk, hle⟩ := ihr hmem
      have := hright _ hroot k _ hk
      omega

/-- Of two operators, not both can be at the root with the other one under it. -/
theorem Grouped.not_swapped (hdistinct : Arm.Distinct v as)
    (h : (OperatorTree.binary left op right).Grouped v as)
    (h' : (OperatorTree.binary left' op' right').Grouped v as) (hop : op ∈ left'.tokens) :
    op' ∉ right.tokens := by
  intro hop'
  cases h with
  | binary hi _ hr _ hright =>
  cases h' with
  | binary hi' hl' _ hleft' _ =>
    obtain ⟨_, k, _, hroot, hk, hle⟩ := hl'.exists_root hdistinct hop hi
    obtain ⟨_, k', _, hroot', hk', hle'⟩ := hr.exists_root hdistinct hop' hi'
    have hunder := hleft' _ hroot k _ hk
    have hunder' := hright _ hroot' k' _ hk'
    -- Both are of one alternative, which would group to the left and to the right.
    obtain rfl : k = k' := by omega
    rcases hunder with hlt | ⟨rfl, hsame⟩
    · omega
    rcases hunder' with hlt | ⟨rfl, hsame'⟩
    · omega
    rw [hi.groups_eq hi'] at hsame'
    rw [hsame'] at hsame
    cases hsame

/-- The tokens of a grouped tree tell the tree. -/
theorem Grouped.unique (hdistinct : Arm.Distinct v as) (h : tree.Grouped v as)
    (h' : tree'.Grouped v as) (htokens : tree.tokens = tree'.tokens) : tree = tree' := by
  induction h generalizing tree' with
  | @primary t _ =>
    cases h' with
    | primary => exact congrArg _ (List.cons.inj htokens).1
    | binary => exact absurd htokens.symm (tokens_binary_ne _ _ _ _)
  | @binary left op right _ _ hop hl hr hleft hright ihl ihr =>
    have htree : (OperatorTree.binary left op right).Grouped v as := .binary hop hl hr hleft hright
    cases h' with
    | primary => exact absurd htokens (tokens_binary_ne _ _ _ _)
    | @binary left' op' right' _ _ hop' hl' hr' hleft' hright' =>
      have htree' : (OperatorTree.binary left' op' right').Grouped v as :=
        .binary hop' hl' hr' hleft' hright'
      rcases List.append_eq_append_iff.mp htokens with ⟨more, hfirst, hrest⟩ | ⟨more, hfirst, hrest⟩
      · cases more with
        | nil =>
          obtain ⟨rfl, hright⟩ := List.cons.inj hrest
          rw [ihl hl' (by simpa using hfirst.symm), ihr hr' hright]
        | cons t more =>
          obtain ⟨rfl, hright⟩ := List.cons.inj hrest
          exact absurd (by simp [hright]) (htree.not_swapped hdistinct htree' (by simp [hfirst]))
      · cases more with
        | nil =>
          obtain ⟨rfl, hright⟩ := List.cons.inj hrest
          rw [ihl hl' (by simpa using hfirst), ihr hr' hright.symm]
        | cons t more =>
          obtain ⟨rfl, hright⟩ := List.cons.inj hrest
          exact absurd (by simp [hright]) (htree'.not_swapped hdistinct htree (by simp [hfirst]))

end OperatorTree

end AdaptiveLL
