/-
The tables of a vocabulary agree, whatever calls it was made by.

The types are handed out one after the other.  A name stands for the type that it
was given, and a literal that is shown for a type stands for that type.  Where a
second literal was let stand for a type, one of the two is shown, so the way back
from a literal may end at another one.  The name of the end of the input is reserved
and stands for this end even where a type was given to it.
-/
import AdaptiveLL.Proofs.Vocabulary

namespace AdaptiveLL

inductive VocabularyCall where
  /-- Give a type to a name. -/
  | name (name : String)
  /-- Give a type to a literal. -/
  | literal (text : String)
  /-- Let a literal stand for a type. -/
  | spelling (t : TokenType) (text : String)

namespace Vocabulary

def call (v : Vocabulary) : VocabularyCall → Option TokenType × Vocabulary
  | .name name => (some (v.internName name).1, (v.internName name).2)
  | .literal text => (some (v.internLiteral text).1, (v.internLiteral text).2)
  | .spelling t text => (none, v.addSpelling t text)

/-- The vocabulary that calls make of the one without types. -/
def ofCalls (calls : List VocabularyCall) : Vocabulary :=
  calls.foldl (fun v c => (v.call c).2) .empty

/-- This call is among the calls, and it was answered with this type. -/
def Answered (calls : List VocabularyCall) (c : VocabularyCall) (t : TokenType) : Prop :=
  ∃ before rest, calls = before ++ c :: rest ∧ ((ofCalls before).call c).1 = some t

variable {v : Vocabulary} {calls : List VocabularyCall} {c : VocabularyCall} {t : TokenType}
  {name text : String}

section Places

theorem exists_place_of_lookup {e : VocabularyEntry} (h : v.lookup? t = some e) :
    ∃ i : Nat, t = i + 1 ∧ v.entries[i]? = some e := by
  unfold lookup? at h
  split at h
  · cases h
  · rename_i hfirst
    refine ⟨(t - 1).toNat, ?_, h⟩
    simp only [TokenType, TokenType.first] at hfirst ⊢
    omega

theorem literal?_place (v : Vocabulary) (i : Nat) :
    v.literal? (i + 1 : Int) = v.entries[i]?.bind VocabularyEntry.literal := by
  rw [literal?, lookup?_place]

/-- Only a type that was handed out shows a literal. -/
theorem exists_place_of_literal (h : v.literal? t = some text) :
    ∃ i : Nat, t = i + 1 ∧ i < v.entries.size := by
  obtain ⟨e, he, _⟩ := Option.bind_eq_some_iff.mp h
  obtain ⟨i, rfl, hentry⟩ := exists_place_of_lookup he
  exact ⟨i, rfl, (Array.getElem?_eq_some_iff.mp hentry).1⟩

/-- A new entry comes behind the others. -/
theorem literal?_push (e : VocabularyEntry) (names spellings : List (String × TokenType)) :
    (Vocabulary.mk (v.entries.push e) names spellings).literal? t = some text ↔
      v.literal? t = some text ∨ t = v.maxType + 1 ∧ e.literal = some text := by
  constructor
  · intro h
    obtain ⟨i, rfl, -⟩ := exists_place_of_literal h
    rw [literal?_place, Array.getElem?_push] at h
    split at h
    · rename_i hlast
      exact .inr ⟨by rw [hlast, maxType], h⟩
    · exact .inl ((v.literal?_place i).trans h)
  · rintro (h | ⟨rfl, hliteral⟩)
    · obtain ⟨i, rfl, hlt⟩ := exists_place_of_literal h
      rw [literal?_place] at h ⊢
      rwa [Array.getElem?_push_lt hlt, ← Array.getElem?_eq_getElem hlt]
    · rw [maxType, literal?_place, Array.getElem?_push_size]
      exact hliteral

/-- The new literal of a type takes the place of the one that was shown for it. -/
theorem literal?_modify {place : Nat} (hplace : place < v.entries.size) (new : String)
    (names spellings : List (String × TokenType)) :
    (Vocabulary.mk (v.entries.modify place fun e => { e with literal := some new }) names
        spellings).literal? t =
      if t = (place : Int) + 1 then some new else v.literal? t := by
  split
  · rename_i heq
    rw [heq, literal?_place, Array.getElem?_modify, if_pos rfl, Array.getElem?_eq_getElem hplace]
    rfl
  · rename_i hother
    rw [literal?, literal?, lookup?, lookup?]
    split
    · rfl
    · rename_i hfirst
      have hplace' : ¬place = (t - 1).toNat := by
        simp only [TokenType, TokenType.first] at hfirst hother
        omega
      rw [Array.getElem?_modify, if_neg hplace']

/-- A literal is shown between quotes. -/
theorem literalName?_eq_some :
    v.literalName? t = some ("'" ++ text ++ "'") ↔ v.literal? t = some text := by
  rw [literalName?, Option.map_eq_some_iff]
  constructor
  · rintro ⟨other, hother, hquoted⟩
    rw [String.append_left_inj, String.append_right_inj] at hquoted
    rwa [hquoted] at hother
  · exact fun h => ⟨text, h, rfl⟩

theorem first_le_place (i : Nat) : TokenType.first ≤ (i + 1 : Int) :=
  Int.le_add_of_nonneg_left (Int.natCast_nonneg i)

end Places

/-- What is shown for a type stands for it, and a type that a literal stands for
shows one. -/
structure ShowsLiterals (v : Vocabulary) : Prop where
  stands : ∀ text t, v.literal? t = some text → v.typeOfLiteral? text = some t
  shows : ∀ text t, v.typeOfLiteral? text = some t → ∃ other, v.literal? t = some other

namespace ShowsLiterals

theorem empty : Vocabulary.empty.ShowsLiterals where
  stands text t h := by
    obtain ⟨i, -, hi⟩ := exists_place_of_literal h
    exact absurd hi (Nat.not_lt_zero i)
  shows _ _ h := by cases h

theorem internName (h : v.ShowsLiterals) (name : String) :
    (v.internName name).2.ShowsLiterals := by
  unfold Vocabulary.internName
  split
  · exact h
  · refine ⟨fun text t ht => ?_, fun text t ht => ?_⟩
    · rcases (literal?_push _ _ _).mp ht with hold | ⟨-, hnone⟩
      · exact h.stands text t hold
      · cases hnone
    · obtain ⟨other, hother⟩ := h.shows text t ht
      exact ⟨other, (literal?_push _ _ _).mpr (.inl hother)⟩

theorem internLiteral (h : v.ShowsLiterals) (text : String) :
    (v.internLiteral text).2.ShowsLiterals := by
  unfold Vocabulary.internLiteral
  split
  · exact h
  · rename_i hnew
    refine ⟨fun other t ht => ?_, fun other t ht => ?_⟩
    · rcases (literal?_push _ _ _).mp ht with hold | ⟨rfl, hliteral⟩
      · exact lookup_cons_of_new hnew _ other t (h.stands other t hold)
      · obtain rfl := Option.some.inj hliteral
        exact List.lookup_cons_self
    · rcases lookup_cons_cases ht with ⟨rfl, rfl⟩ | hold
      · exact ⟨other, (literal?_push _ _ _).mpr (.inr ⟨rfl, rfl⟩)⟩
      · obtain ⟨shown, hshown⟩ := h.shows other t hold
        exact ⟨shown, (literal?_push _ _ _).mpr (.inl hshown)⟩

theorem addSpelling (h : v.ShowsLiterals) (t : TokenType) (text : String) :
    (v.addSpelling t text).ShowsLiterals := by
  unfold Vocabulary.addSpelling
  split
  · exact h
  · rename_i hnew
    rw [Bool.not_eq_true, Bool.or_eq_false_iff, Option.isNone_eq_false_iff,
      Option.isSome_eq_false_iff, Option.isSome_iff_exists, Option.isNone_iff_eq_none] at hnew
    obtain ⟨⟨entry, hentry⟩, hnew⟩ := hnew
    obtain ⟨place, rfl, hfound⟩ := exists_place_of_lookup hentry
    have hplace : place < v.entries.size := (Array.getElem?_eq_some_iff.mp hfound).1
    have hback : ((place : Int) + 1 - 1).toNat = place := by omega
    rw [hback]
    refine ⟨fun other t ht => ?_, fun other t ht => ?_⟩
    · rw [literal?_modify hplace] at ht
      split at ht
      · rename_i htype
        obtain rfl := Option.some.inj ht
        rw [htype]
        exact List.lookup_cons_self
      · exact lookup_cons_of_new hnew _ other t (h.stands other t ht)
    · rw [literal?_modify hplace]
      split
      · exact ⟨text, rfl⟩
      · rename_i hother
        rcases lookup_cons_cases ht with ⟨-, rfl⟩ | hold
        · exact absurd rfl hother
        · exact h.shows other t hold

theorem bounds (h : v.ShowsLiterals) (ht : v.typeOfLiteral? text = some t) :
    TokenType.first ≤ t ∧ t ≤ v.maxType := by
  obtain ⟨other, hother⟩ := h.shows text t ht
  obtain ⟨i, rfl, hi⟩ := exists_place_of_literal hother
  exact ⟨first_le_place i, Int.ofNat_le.mpr hi⟩

/-- What is shown for a type that a literal stands for stands for it as well. -/
theorem exists_literalName (h : v.ShowsLiterals) (ht : v.typeOfLiteral? text = some t) :
    ∃ shown, v.typeOfLiteral? shown = some t ∧
      v.literalName? t = some ("'" ++ shown ++ "'") := by
  obtain ⟨shown, hshown⟩ := h.shows text t ht
  exact ⟨shown, h.stands shown t hshown, literalName?_eq_some.mpr hshown⟩

end ShowsLiterals

section Calls

theorem grows_internLiteral (v : Vocabulary) (text : String) :
    v.Grows (v.internLiteral text).2 := by
  unfold internLiteral
  split
  · exact .refl v
  · rename_i hnew
    exact .push v _ (fun _ _ h => h) (lookup_cons_of_new hnew _)

theorem grows_call (v : Vocabulary) (c : VocabularyCall) : v.Grows (v.call c).2 := by
  cases c with
  | name name => exact v.grows_internName name
  | literal text => exact v.grows_internLiteral text
  | spelling t text => exact v.grows_addSpelling t text

theorem ShowsLiterals.call (h : v.ShowsLiterals) (c : VocabularyCall) :
    (v.call c).2.ShowsLiterals := by
  cases c with
  | name name => exact h.internName name
  | literal text => exact h.internLiteral text
  | spelling t text => exact h.addSpelling t text

/-- A call hands out at most one type, the next one, and answers with it. -/
theorem maxType_call (v : Vocabulary) (c : VocabularyCall) :
    (v.call c).2.maxType = v.maxType ∨
      (v.call c).2.maxType = v.maxType + 1 ∧ (v.call c).1 = some (v.maxType + 1) := by
  cases c with
  | name name =>
    simp only [Vocabulary.call, internName]
    split
    · exact .inl rfl
    · exact .inr ⟨by simp [maxType], rfl⟩
  | literal text =>
    simp only [Vocabulary.call, internLiteral]
    split
    · exact .inl rfl
    · exact .inr ⟨by simp [maxType], rfl⟩
  | spelling t text =>
    refine .inl ?_
    simp only [Vocabulary.call, addSpelling]
    split
    · rfl
    · simp [maxType]

theorem Grows.maxType_le {v' : Vocabulary} (h : v.Grows v') : v.maxType ≤ v'.maxType := by
  refine Int.ofNat_le.mpr (Nat.le_of_not_lt fun hlt => ?_)
  obtain ⟨e', he', _⟩ := h.entry v'.entries.size _ (Array.getElem?_eq_getElem hlt)
  exact absurd (Array.getElem?_eq_some_iff.mp he').1 (Nat.lt_irrefl _)

theorem typeOfLiteral?_internLiteral (v : Vocabulary) (text : String) :
    (v.internLiteral text).2.typeOfLiteral? text = some (v.internLiteral text).1 := by
  unfold internLiteral
  split
  · assumption
  · exact List.lookup_cons_self

theorem IndexesNames.call (h : v.IndexesNames) (c : VocabularyCall) :
    (v.call c).2.IndexesNames := by
  cases c with
  | name name => exact h.internName name
  | literal text => exact h.internLiteral text
  | spelling t text => exact h.addSpelling t text

/-- What is answered to a call is a type that was handed out. -/
theorem bounds_call (hnames : v.IndexesNames) (hliterals : v.ShowsLiterals)
    (hanswer : (v.call c).1 = some t) : TokenType.first ≤ t ∧ t ≤ (v.call c).2.maxType := by
  cases c with
  | name name =>
    obtain rfl := Option.some.inj hanswer
    exact (hnames.internName name).bounds (v.definedType?_internName name)
  | literal text =>
    obtain rfl := Option.some.inj hanswer
    exact (hliterals.internLiteral text).bounds (v.typeOfLiteral?_internLiteral text)
  | spelling t text => cases hanswer

end Calls

section Runs

theorem ofCalls_append (before rest : List VocabularyCall) :
    ofCalls (before ++ rest) = rest.foldl (fun v c => (v.call c).2) (ofCalls before) :=
  List.foldl_append

theorem showsLiterals_ofCalls (calls : List VocabularyCall) : (ofCalls calls).ShowsLiterals :=
  List.foldlRecOn calls _ .empty fun _ h c _ => h.call c

theorem indexesNames_ofCalls (calls : List VocabularyCall) : (ofCalls calls).IndexesNames :=
  .foldl (fun _ c h => h.call c) calls .empty

/-- What the vocabulary right behind a call knows is known from then on. -/
theorem Answered.grows (h : Answered calls c t) :
    ∃ before, ((ofCalls before).call c).1 = some t ∧
      ((ofCalls before).call c).2.Grows (ofCalls calls) := by
  obtain ⟨before, rest, rfl, hanswer⟩ := h
  refine ⟨before, hanswer, ?_⟩
  rw [ofCalls_append, List.foldl_cons]
  exact .foldl grows_call rest _

theorem Answered.bounds (h : Answered calls c t) :
    TokenType.first ≤ t ∧ t ≤ (ofCalls calls).maxType := by
  obtain ⟨before, hanswer, hgrows⟩ := h.grows
  obtain ⟨hlow, hhigh⟩ :=
    bounds_call (indexesNames_ofCalls before) (showsLiterals_ofCalls before) hanswer
  exact ⟨hlow, Int.le_trans hhigh hgrows.maxType_le⟩

theorem Answered.append (h : Answered calls c t) (more : List VocabularyCall) :
    Answered (calls ++ more) c t := by
  obtain ⟨before, rest, rfl, hanswer⟩ := h
  exact ⟨before, rest ++ more, by rw [List.append_assoc, List.cons_append], hanswer⟩

/-- Every type up to the highest one was an answer. -/
theorem exists_answered (hlow : TokenType.first ≤ t) (hhigh : t ≤ (ofCalls calls).maxType) :
    ∃ c, Answered calls c t := by
  induction calls using List.reverseRecOn with
  | nil => exact absurd (Int.le_trans hlow hhigh) (by decide)
  | append_singleton calls c ih =>
    have hstep : ofCalls (calls ++ [c]) = ((ofCalls calls).call c).2 := ofCalls_append calls [c]
    rw [hstep] at hhigh
    rcases (ofCalls calls).maxType_call c with hsame | ⟨hnext, hanswer⟩
    · obtain ⟨c', hc'⟩ := ih (hsame ▸ hhigh)
      exact ⟨c', hc'.append [c]⟩
    · rw [hnext] at hhigh
      rcases Int.lt_or_eq_of_le hhigh with hlt | rfl
      · obtain ⟨c', hc'⟩ := ih (Int.lt_add_one_iff.mp hlt)
        exact ⟨c', hc'.append [c]⟩
      · exact ⟨c, calls, [], rfl, hanswer⟩

theorem Answered.definedType (h : Answered calls (.name name) t) :
    (ofCalls calls).definedType? name = some t := by
  obtain ⟨before, hanswer, hgrows⟩ := h.grows
  refine hgrows.definedType _ _ ?_
  rw [← hanswer]
  exact (ofCalls before).definedType?_internName name

end Runs

/-- The types are the answers, one after the other.  A name stands for the type that
it was given, unless it is that of the end of the input, and this type shows the
name.  A literal that is shown for a type stands for it, and for a type that a
literal stands for one of its literals is shown. -/
theorem tables_agree (calls : List VocabularyCall) :
    (∀ t, (∃ c, Answered calls c t) ↔
      TokenType.first ≤ t ∧ t ≤ (ofCalls calls).maxType) ∧
    (∀ name t, Answered calls (.name name) t →
      (name ≠ "EOF" → (ofCalls calls).typeOfName? name = some t) ∧
        (ofCalls calls).symbolicName? t = some name) ∧
    ∀ text t,
      ((ofCalls calls).literalName? t = some ("'" ++ text ++ "'") →
        TokenType.first ≤ t ∧ (ofCalls calls).typeOfLiteral? text = some t) ∧
      ((ofCalls calls).typeOfLiteral? text = some t →
        TokenType.first ≤ t ∧
          ∃ shown, (ofCalls calls).typeOfLiteral? shown = some t ∧
            (ofCalls calls).literalName? t = some ("'" ++ shown ++ "'")) := by
  have hshows := showsLiterals_ofCalls calls
  refine ⟨fun t => ⟨fun ⟨_, h⟩ => h.bounds, fun ⟨hlow, hhigh⟩ => exists_answered hlow hhigh⟩,
    fun name t h => ⟨fun hne => ?_, (indexesNames_ofCalls calls).symbolicName? h.definedType⟩,
    fun text t => ⟨fun h => ?_, fun h => ⟨(hshows.bounds h).1, hshows.exists_literalName h⟩⟩⟩
  · rw [typeOfName?, if_neg hne]
    exact h.definedType
  · have hstands := hshows.stands text t (literalName?_eq_some.mp h)
    exact ⟨(hshows.bounds hstands).1, hstands⟩

/-- A name that is reserved, and a type that two literals stand for. -/
def respelled : List VocabularyCall :=
  [.name "EOF", .name "N", .spelling 2 "a", .spelling 2 "b"]

/-- The reserved name does not stand for the type it was given, and of two literals
of one type the first one is shown no more. -/
theorem tables_differ :
    ¬ (∀ name t, Answered respelled (.name name) t →
      (ofCalls respelled).typeOfName? name = some t) ∧
    ¬ (∀ text t, (ofCalls respelled).typeOfLiteral? text = some t ↔
      TokenType.first ≤ t ∧ (ofCalls respelled).literalName? t = some ("'" ++ text ++ "'")) := by
  refine ⟨fun h => ?_, fun h => ?_⟩
  · have hreserved := h "EOF" 1 ⟨[], _, rfl, by decide +kernel⟩
    exact absurd hreserved (by decide +kernel)
  · have hfirst := (h "a" 2).mp (by decide +kernel)
    exact absurd hfirst.2 (by decide +kernel)

end Vocabulary

end AdaptiveLL
