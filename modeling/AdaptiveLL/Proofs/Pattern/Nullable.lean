/-
Which patterns match the empty text.

The rule of a token is refused if its pattern is nullable, and this is told from the
pattern alone, without a search.  A pattern that is not nullable never stops where
it starts.  A nullable one does so wherever it starts, if its repetitions may have
as many copies as they must have and its choices have something to choose from.
-/
import AdaptiveLL.Proofs.Furthest
import AdaptiveLL.Proofs.Pattern.Fragment

namespace AdaptiveLL

/-- A text that ends where it starts is the empty one. -/
theorem Spans.self_iff {input : Array Char} {L : Language Char} {pos : Nat}
    (hpos : pos ≤ input.size) : Spans input L pos pos ↔ [] ∈ L := by
  have hslice : (input.extract pos pos).toList = [] := by simp
  constructor
  · intro h
    exact hslice ▸ h.mem
  · intro h
    exact ⟨Nat.le_refl pos, hpos, hslice.symm ▸ h⟩

namespace Pattern

/-- A repetition may have as many copies as it must have, a choice has something to
choose from. -/
def Feasible : Pattern → Prop
  | .repetition _ min max => ∀ m ∈ max, min ≤ m
  | .alt items => items ≠ []
  | _ => True

section Empty

variable {L M : Language Char}

theorem nil_mem_mul : [] ∈ L * M ↔ [] ∈ L ∧ [] ∈ M := by
  rw [Language.mem_mul]
  constructor
  · rintro ⟨u, hu, v, hv, hnil⟩
    obtain ⟨rfl, rfl⟩ := List.append_eq_nil_iff.mp hnil
    exact ⟨hu, hv⟩
  · rintro ⟨hL, hM⟩
    exact ⟨[], hL, [], hM, rfl⟩

theorem nil_mem_pow {k : Nat} : [] ∈ L ^ k ↔ k = 0 ∨ [] ∈ L := by
  induction k with
  | zero => simp
  | succ k ih =>
    rw [pow_succ, nil_mem_mul, ih]
    constructor
    · rintro ⟨_, hlast⟩
      exact .inr hlast
    · intro h
      have hcopy : [] ∈ L := h.resolve_left k.succ_ne_zero
      exact ⟨.inr hcopy, hcopy⟩

theorem nil_notMem_oneChar {accepts : Char → Bool} : [] ∉ oneChar accepts := by
  rintro ⟨c, _, hnil⟩
  cases hnil

theorem nil_mem_literal {text : String} : [] ∈ (literal text).language ↔ text.isEmpty = true := by
  rw [language, String.isEmpty_iff, ← String.toList_eq_nil_iff]
  exact eq_comm

/-- A repetition matches the empty text only if it needs no copy or if the copies
can be empty. -/
theorem of_nil_mem_repetition {body : Pattern} {min : Nat} {max : Option Nat}
    (h : [] ∈ (repetition body min max).language) : min = 0 ∨ [] ∈ body.language := by
  obtain ⟨k, hmin, _, hmem⟩ := h
  rcases nil_mem_pow.mp hmem with rfl | hbody
  · exact .inl (Nat.le_zero.mp hmin)
  · exact .inr hbody

/-- If it may have as many copies as it must have, that is enough. -/
theorem nil_mem_repetition {body : Pattern} {min : Nat} {max : Option Nat}
    (hbounds : ∀ m ∈ max, min ≤ m) (h : min = 0 ∨ [] ∈ body.language) :
    [] ∈ (repetition body min max).language :=
  ⟨min, Nat.le_refl min, hbounds, nil_mem_pow.mpr h⟩

end Empty

mutual

/-- Only what is nullable matches the empty text. -/
theorem isNullable_of_nil_mem (p : Pattern) (h : [] ∈ p.language) : p.isNullable = true := by
  cases p with
  | literal text => exact nil_mem_literal.mp h
  | oneOf | any => exact absurd h nil_notMem_oneChar
  | fragment name => exact absurd h (Language.notMem_zero [])
  | repetition body min max =>
    rw [isNullable, Bool.or_eq_true, beq_iff_eq]
    exact (of_nil_mem_repetition h).imp_right (isNullable_of_nil_mem body)
  | seq items => exact allNullable_of_nil_mem items h
  | alt items =>
    rw [isNullable, Bool.or_eq_true]
    exact .inr (anyNullable_of_nil_mem items h)

theorem allNullable_of_nil_mem (items : List Pattern) (h : [] ∈ languageSeq items) :
    allNullable items = true := by
  cases items with
  | nil => rfl
  | cons p rest =>
    obtain ⟨hfirst, hrest⟩ := nil_mem_mul.mp h
    rw [allNullable, isNullable_of_nil_mem p hfirst, allNullable_of_nil_mem rest hrest,
      Bool.and_self]

theorem anyNullable_of_nil_mem (items : List Pattern) (h : [] ∈ languageAlt items) :
    anyNullable items = true := by
  cases items with
  | nil => exact absurd h (Language.notMem_zero [])
  | cons p rest =>
    rw [anyNullable, Bool.or_eq_true]
    exact ((Language.mem_add _ _ _).mp h).imp (isNullable_of_nil_mem p)
      (anyNullable_of_nil_mem rest)

end

mutual

/-- What is nullable matches the empty text, if every part of it is feasible. -/
theorem nil_mem_of_isNullable (p : Pattern) (hparts : ∀ q ∈ p.parts, q.Feasible)
    (h : p.isNullable = true) : [] ∈ p.language := by
  cases p with
  | literal text => exact nil_mem_literal.mpr h
  | oneOf | fragment | any => cases h
  | repetition body min max =>
    obtain ⟨hself, hbody⟩ := List.forall_mem_cons.mp hparts
    rw [isNullable, Bool.or_eq_true, beq_iff_eq] at h
    exact nil_mem_repetition hself (h.imp_right (nil_mem_of_isNullable body hbody))
  | seq items => exact nil_mem_languageSeq items (List.forall_mem_cons.mp hparts).2 h
  | alt items =>
    obtain ⟨hself, hitems⟩ := List.forall_mem_cons.mp hparts
    rw [isNullable, Bool.or_eq_true, List.isEmpty_iff] at h
    exact nil_mem_languageAlt items hitems (h.resolve_left hself)

theorem nil_mem_languageSeq (items : List Pattern) (hparts : ∀ q ∈ partsAll items, q.Feasible)
    (h : allNullable items = true) : [] ∈ languageSeq items := by
  cases items with
  | nil => exact Language.nil_mem_one
  | cons p rest =>
    obtain ⟨hp, hrest⟩ := List.forall_mem_append.mp hparts
    rw [allNullable, Bool.and_eq_true] at h
    exact nil_mem_mul.mpr ⟨nil_mem_of_isNullable p hp h.1, nil_mem_languageSeq rest hrest h.2⟩

theorem nil_mem_languageAlt (items : List Pattern) (hparts : ∀ q ∈ partsAll items, q.Feasible)
    (h : anyNullable items = true) : [] ∈ languageAlt items := by
  cases items with
  | nil => cases h
  | cons p rest =>
    obtain ⟨hp, hrest⟩ := List.forall_mem_append.mp hparts
    rw [anyNullable, Bool.or_eq_true] at h
    exact (Language.mem_add _ _ _).mpr
      (h.imp (nil_mem_of_isNullable p hp) (nil_mem_languageAlt rest hrest))

end

section Search

variable {p : Pattern} {input : Array Char} {pos : Nat}

/-- The search from a position stops there if and only if the empty text is matched. -/
theorem self_mem_reach (hcaps : ∀ q ∈ p.parts, q.CapFits input.size) (hpos : pos ≤ input.size) :
    pos ∈ (p.reach input [pos]).ends ↔ [] ∈ p.language := by
  rw [mem_reach_singleton hcaps hpos, Spans.self_iff hpos]

/-- Nullability tells whether a pattern stops where it starts, in every input for
which its caps fit.  What stops there is nullable, and what is nullable stops there
if every part of it is feasible. -/
theorem isNullable_exact (p : Pattern) (hcaps : ∀ q ∈ p.parts, q.CapFits input.size)
    (hpos : pos ≤ input.size) :
    (pos ∈ (p.reach input [pos]).ends → p.isNullable = true) ∧
      ((∀ q ∈ p.parts, q.Feasible) →
        (p.isNullable = true ↔ pos ∈ (p.reach input [pos]).ends)) := by
  rw [self_mem_reach hcaps hpos]
  refine ⟨isNullable_of_nil_mem p, fun hparts => ⟨?_, isNullable_of_nil_mem p⟩⟩
  exact nil_mem_of_isNullable p hparts

/-- Two or three copies of what may be nothing come to nothing. -/
theorem isNullable_exact_nested :
    (∀ q ∈ (repetition (alt [star (literal "a"), any]) 2 (some 3)).parts, q.Feasible) ∧
      1 ∈ ((repetition (alt [star (literal "a"), any]) 2 (some 3)).reach
        "ba".toList.toArray [1]).ends := by
  have hparts :
      ∀ q ∈ (repetition (alt [star (literal "a"), any]) 2 (some 3)).parts, q.Feasible := by
    simp [parts, partsAll, star, Feasible]
  have hcaps : ∀ q ∈ (repetition (alt [star (literal "a"), any]) 2 (some 3)).parts,
      q.CapFits "ba".toList.toArray.size := by decide +kernel
  exact ⟨hparts, ((isNullable_exact _ hcaps (by decide)).2 hparts).mp rfl⟩

/-- The pattern stops wherever it starts in an input. -/
def MatchesEmpty (p : Pattern) : Prop :=
  ∀ (input : Array Char) (pos : Nat), pos ≤ input.size → pos ∈ (p.reach input [pos]).ends

/-- A choice between no patterns is nullable, and so are two copies of nothing where
one is the most, and as many copies of nothing as a word can count.  None of them
stops wherever it starts. -/
theorem nullable_not_matchesEmpty :
    ((alt []).references = [] ∧ ¬((alt []).isNullable = true ↔ (alt []).MatchesEmpty)) ∧
      ((repetition (literal "") 2 (some 1)).references = [] ∧
        ¬((repetition (literal "") 2 (some 1)).isNullable = true ↔
          (repetition (literal "") 2 (some 1)).MatchesEmpty)) ∧
      (repetition (literal "") (Word.bound - 1) none).references = [] ∧
        ¬((repetition (literal "") (Word.bound - 1) none).isNullable = true ↔
          (repetition (literal "") (Word.bound - 1) none).MatchesEmpty) := by
  have hchoice : 0 ∉ ((alt []).reach #[] [0]).ends := by decide +kernel
  have hcopies : 0 ∉ ((repetition (literal "") 2 (some 1)).reach #[] [0]).ends := by decide +kernel
  have hwrapped : 0 ∉ ((repetition (literal "") (Word.bound - 1) none).reach #['a'] [0]).ends := by
    decide +kernel
  refine ⟨⟨rfl, fun h => ?_⟩, ⟨rfl, fun h => ?_⟩, rfl, fun h => ?_⟩
  · exact hchoice (h.mp rfl #[] 0 (Nat.le_refl 0))
  · exact hcopies (h.mp (by decide +kernel) #[] 0 (Nat.le_refl 0))
  · exact hwrapped (h.mp (by decide +kernel) #['a'] 0 (Nat.zero_le 1))

end Search

end Pattern

end AdaptiveLL
