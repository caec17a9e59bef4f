/-
What a vocabulary keeps while types are handed out.

A name or a literal that has a type keeps it, whatever is defined later.  The table
of the names agrees with the entries, so that different names have different types.
The types without a name are those of the literals that no lexer rule spells, one
each, so no name and no spelling of a lexer rule can come to stand for them.
-/
import AdaptiveLL.Proofs.Build

namespace AdaptiveLL

namespace Vocabulary

variable {v v' v'' : Vocabulary} {name : String} {t : TokenType}

/-- The entry of a type has the place below it. -/
theorem lookup?_place (v : Vocabulary) (i : Nat) : v.lookup? (i + 1 : Int) = v.entries[i]? := by
  have hfirst : ¬(i + 1 : Int) < TokenType.first := by
    simp only [TokenType.first]
    omega
  rw [lookup?, if_neg hfirst]
  simp

/-- No place is that of the end of the input. -/
theorem place_ne_eof (i : Nat) : (i + 1 : Int) ≠ TokenType.eof := by
  simp only [TokenType.eof]
  omega

theorem symbolicName?_place (v : Vocabulary) (i : Nat) :
    v.symbolicName? (i + 1 : Int) = v.entries[i]?.bind VocabularyEntry.name := by
  rw [symbolicName?, if_neg (place_ne_eof i), lookup?_place]

theorem getElem?_push_of_some {α : Type} {xs : Array α} {i : Nat} {x : α} (h : xs[i]? = some x)
    (y : α) : (xs.push y)[i]? = some x := by
  obtain ⟨hlt, rfl⟩ := Array.getElem?_eq_some_iff.mp h
  exact Array.getElem?_push_lt hlt

/-- The names and literals with a type keep it. -/
structure Grows (v v' : Vocabulary) : Prop where
  entry : ∀ (i : Nat) e, v.entries[i]? = some e → ∃ e', v'.entries[i]? = some e' ∧ e'.name = e.name
  definedType : ∀ name t, v.definedType? name = some t → v'.definedType? name = some t
  literal : ∀ text t, v.typeOfLiteral? text = some t → v'.typeOfLiteral? text = some t

namespace Grows

theorem refl (v : Vocabulary) : v.Grows v :=
  ⟨fun _ e he => ⟨e, he, rfl⟩, fun _ _ h => h, fun _ _ h => h⟩

theorem trans (h : v.Grows v') (h' : v'.Grows v'') : v.Grows v'' where
  entry i e he := by
    obtain ⟨e', he', hname⟩ := h.entry i e he
    obtain ⟨e'', he'', hname'⟩ := h'.entry i e' he'
    exact ⟨e'', he'', hname'.trans hname⟩
  definedType name t ht := h'.definedType name t (h.definedType name t ht)
  literal text t ht := h'.literal text t (h.literal text t ht)

theorem foldl {α : Type} {f : Vocabulary → α → Vocabulary} (hf : ∀ v x, Grows v (f v x))
    (xs : List α) (v : Vocabulary) : v.Grows (xs.foldl f v) := by
  induction xs generalizing v with
  | nil => exact refl v
  | cons x xs ih => exact (hf v x).trans (ih (f v x))

/-- A new entry takes nothing from the others. -/
theorem push (v : Vocabulary) (e : VocabularyEntry) {names spellings : List (String × TokenType)}
    (hnames : ∀ name t, v.definedType? name = some t → names.lookup name = some t)
    (hspellings : ∀ text t, v.typeOfLiteral? text = some t → spellings.lookup text = some t) :
    v.Grows ⟨v.entries.push e, names, spellings⟩ where
  entry _ x hx := ⟨x, getElem?_push_of_some hx e, rfl⟩
  definedType := hnames
  literal := hspellings

end Grows

/-- What is put in front of a table is found there, and all else where it was before. -/
theorem lookup_cons_cases {table : List (String × TokenType)} {text other : String}
    {u : TokenType} (h : ((text, t) :: table).lookup other = some u) :
    other = text ∧ u = t ∨ table.lookup other = some u := by
  rw [List.lookup_cons] at h
  split at h
  · rename_i heq
    exact .inl ⟨eq_of_beq heq, (Option.some.inj h).symm⟩
  · exact .inr h

/-- What is new in a table takes nothing from the others. -/
theorem lookup_cons_of_new {table : List (String × TokenType)} {text : String}
    (hnew : table.lookup text = none) (t : TokenType) (other : String) (u : TokenType)
    (hother : table.lookup other = some u) : ((text, t) :: table).lookup other = some u := by
  have hne : (other == text) = false := by
    refine beq_eq_false_iff_ne.mpr ?_
    rintro rfl
    rw [hnew] at hother
    cases hother
  rw [List.lookup_cons, hne]
  exact hother

/-- A spelling is added to an existing type if the literal is new. -/
theorem addSpelling_cases (v : Vocabulary) (t : TokenType) (text : String) :
    v.addSpelling t text = v ∨ v.typeOfLiteral? text = none ∧ v.addSpelling t text =
      ⟨v.entries.modify (t - 1).toNat fun e => { e with literal := some text }, v.names,
        (text, t) :: v.spellings⟩ := by
  unfold addSpelling
  split
  · exact .inl rfl
  · rename_i hnew
    rw [Bool.not_eq_true, Bool.or_eq_false_iff, Option.isSome_eq_false_iff,
      Option.isNone_iff_eq_none] at hnew
    exact .inr ⟨hnew.2, rfl⟩

theorem grows_internName (v : Vocabulary) (name : String) : v.Grows (v.internName name).2 := by
  unfold internName
  split
  · exact .refl v
  · rename_i hnew
    exact .push v _ (lookup_cons_of_new hnew _) fun _ _ h => h

theorem grows_addSpelling (v : Vocabulary) (t : TokenType) (text : String) :
    v.Grows (v.addSpelling t text) := by
  rcases v.addSpelling_cases t text with hsame | ⟨hnew, hadded⟩
  · rw [hsame]
    exact .refl v
  · rw [hadded]
    refine ⟨fun i e he => ?_, fun _ _ h => h, lookup_cons_of_new hnew t⟩
    rw [Array.getElem?_modify, he]
    split
    · exact ⟨_, rfl, rfl⟩
    · exact ⟨e, rfl, rfl⟩

/-- A name that was defined has its type from then on. -/
theorem definedType?_internName (v : Vocabulary) (name : String) :
    (v.internName name).2.definedType? name = some (v.internName name).1 := by
  unfold internName
  split
  · assumption
  · exact List.lookup_cons_self

/-- The table of the names leads from each name to the entry that has it, and there
is one such entry at most. -/
def IndexesNames (v : Vocabulary) : Prop :=
  ∀ name t, v.definedType? name = some t ↔
    ∃ (i : Nat) (e : VocabularyEntry), t = i + 1 ∧ v.entries[i]? = some e ∧ e.name = some name

namespace IndexesNames

theorem empty : Vocabulary.empty.IndexesNames := by
  simp [IndexesNames, definedType?, Vocabulary.empty]

/-- An entry without a name is not in the table. -/
theorem push (h : v.IndexesNames) {e : VocabularyEntry} (he : e.name = none)
    (spellings : List (String × TokenType)) :
    IndexesNames ⟨v.entries.push e, v.names, spellings⟩ := by
  intro name t
  refine (h name t).trans ⟨?_, ?_⟩
  · rintro ⟨i, x, rfl, hx, hname⟩
    exact ⟨i, x, rfl, getElem?_push_of_some hx e, hname⟩
  · rintro ⟨i, x, rfl, hx, hname⟩
    rw [Array.getElem?_push] at hx
    split at hx
    · rw [← Option.some.inj hx, he] at hname
      cases hname
    · exact ⟨i, x, rfl, hx, hname⟩

theorem internName (h : v.IndexesNames) (name : String) :
    (v.internName name).2.IndexesNames := by
  unfold Vocabulary.internName
  split
  · exact h
  · rename_i hnew
    intro other t
    constructor
    · intro ht
      rcases lookup_cons_cases ht with ⟨rfl, rfl⟩ | hold
      · exact ⟨v.entries.size, _, rfl, Array.getElem?_push_size, rfl⟩
      · obtain ⟨i, x, rfl, hx, hname⟩ := (h other t).mp hold
        exact ⟨i, x, rfl, getElem?_push_of_some hx _, hname⟩
    · rintro ⟨i, x, rfl, hx, hname⟩
      rw [Array.getElem?_push] at hx
      split at hx
      · rename_i hlast
        obtain rfl := Option.some.inj hx
        obtain rfl := Option.some.inj hname
        rw [hlast]
        exact List.lookup_cons_self
      · exact lookup_cons_of_new hnew _ other _ ((h other _).mpr ⟨i, x, rfl, hx, hname⟩)

theorem internLiteral (h : v.IndexesNames) (text : String) :
    (v.internLiteral text).2.IndexesNames := by
  unfold Vocabulary.internLiteral
  split
  · exact h
  · exact h.push rfl _

theorem addSpelling (h : v.IndexesNames) (t : TokenType) (text : String) :
    (v.addSpelling t text).IndexesNames := by
  rcases v.addSpelling_cases t text with hsame | ⟨-, hadded⟩
  · rwa [hsame]
  · rw [hadded]
    intro name u
    refine (h name u).trans (exists_congr fun i => ?_)
    -- A spelling is written into an entry, whose name stays.
    rw [Array.getElem?_modify]
    cases v.entries[i]? with
    | none => simp
    | some e => split <;> simp

theorem foldl {α : Type} {f : Vocabulary → α → Vocabulary}
    (hf : ∀ v x, v.IndexesNames → (f v x).IndexesNames) (xs : List α) (h : v.IndexesNames) :
    (xs.foldl f v).IndexesNames :=
  List.foldlRecOn xs f h fun v hv x _ => hf v x hv

/-- Different names have different types. -/
theorem inj (h : v.IndexesNames) {name' : String} (ht : v.definedType? name = some t)
    (ht' : v.definedType? name' = some t) : name = name' := by
  obtain ⟨i, e, rfl, he, hname⟩ := (h name _).mp ht
  obtain ⟨j, e', hij, he', hname'⟩ := (h name' _).mp ht'
  obtain rfl : i = j := Int.ofNat.inj ((Int.add_left_inj 1).mp hij)
  obtain rfl : e = e' := Option.some.inj (he.symm.trans he')
  exact Option.some.inj (hname.symm.trans hname')

theorem bounds (h : v.IndexesNames) (ht : v.definedType? name = some t) :
    TokenType.first ≤ t ∧ t ≤ v.maxType := by
  obtain ⟨i, e, rfl, he, -⟩ := (h name t).mp ht
  exact ⟨Int.le_add_of_nonneg_left (Int.natCast_nonneg i),
    Int.ofNat_le.mpr (Array.getElem?_eq_some_iff.mp he).1⟩

/-- The entry of the type that a name stands for has this name. -/
theorem exists_lookup? (h : v.IndexesNames) (ht : v.definedType? name = some t) :
    ∃ e, v.lookup? t = some e ∧ e.name = some name := by
  obtain ⟨i, e, rfl, he, hname⟩ := (h name t).mp ht
  exact ⟨e, by rwa [lookup?_place], hname⟩

theorem symbolicName? (h : v.IndexesNames) (ht : v.definedType? name = some t) :
    v.symbolicName? t = some name := by
  obtain ⟨i, e, rfl, he, hname⟩ := (h name t).mp ht
  rw [symbolicName?_place, he]
  exact hname

end IndexesNames

/-- The types without a name are those of some literals, one each; and no other
literal has a type but those that lexer rules spell. -/
structure Separates (v : Vocabulary) (implicit spelled : List String) : Prop where
  unnamed : ∀ (i : Nat) e, v.entries[i]? = some e → e.name = none →
    ∃ text ∈ implicit, e.literal = some text ∧ v.typeOfLiteral? text = some (i + 1 : Int)
  kept : ∀ text ∈ implicit, ∀ t, v.typeOfLiteral? text = some t →
    ∃ (i : Nat) (e : VocabularyEntry), t = i + 1 ∧ v.entries[i]? = some e ∧ e.name = none ∧
      e.literal = some text
  known : ∀ text t, v.typeOfLiteral? text = some t → text ∈ implicit ∨ text ∈ spelled

namespace Separates

variable {implicit spelled : List String} {text : String}

theorem empty (implicit spelled : List String) : Vocabulary.empty.Separates implicit spelled where
  unnamed _ _ h := by simp [Vocabulary.empty] at h
  kept _ _ _ h := by simp [Vocabulary.empty, typeOfLiteral?] at h
  known _ _ h := by simp [Vocabulary.empty, typeOfLiteral?] at h

theorem internName (h : v.Separates implicit spelled) (name : String) :
    (v.internName name).2.Separates implicit spelled := by
  unfold Vocabulary.internName
  split
  · exact h
  · refine ⟨fun i e he hname => ?_, fun text hmem t ht => ?_, h.known⟩
    · rw [Array.getElem?_push] at he
      split at he
      · obtain rfl := Option.some.inj he
        cases hname
      · exact h.unnamed i e he hname
    · obtain ⟨i, e, rfl, he, hrest⟩ := h.kept text hmem t ht
      exact ⟨i, e, rfl, getElem?_push_of_some he _, hrest⟩

theorem internLiteral (h : v.Separates implicit spelled) (hmem : text ∈ implicit) :
    (v.internLiteral text).2.Separates implicit spelled := by
  unfold Vocabulary.internLiteral
  split
  · exact h
  · rename_i hnew
    refine ⟨fun i e he hname => ?_, fun other hother t ht => ?_, fun other t ht => ?_⟩
    · rw [Array.getElem?_push] at he
      split at he
      · rename_i hi
        obtain rfl := Option.some.inj he
        refine ⟨text, hmem, rfl, ?_⟩
        rw [typeOfLiteral?, List.lookup_cons_self, hi]
        rfl
      · obtain ⟨other, hother, hliteral, htype⟩ := h.unnamed i e he hname
        exact ⟨other, hother, hliteral, lookup_cons_of_new hnew _ other _ htype⟩
    · rcases lookup_cons_cases ht with ⟨rfl, rfl⟩ | hold
      · exact ⟨v.entries.size, _, rfl, Array.getElem?_push_size, rfl, rfl⟩
      · obtain ⟨i, e, rfl, he, hrest⟩ := h.kept other hother t hold
        exact ⟨i, e, rfl, getElem?_push_of_some he _, hrest⟩
    · rcases lookup_cons_cases ht with ⟨rfl, _⟩ | hold
      · exact .inl hmem
      · exact h.known other t hold

theorem addSpelling (h : v.Separates implicit spelled) (hnames : v.IndexesNames)
    (hdefined : v.definedType? name = some t) (hspelled : text ∈ spelled)
    (hnot : text ∉ implicit) :
    (v.addSpelling t text).Separates implicit spelled := by
  rcases v.addSpelling_cases t text with hsame | ⟨hnew, hadded⟩
  · rwa [hsame]
  · rw [hadded]
    obtain ⟨place, entry, rfl, hentry, hname⟩ := (hnames name t).mp hdefined
    have hplace : ((place : Int) + 1 - 1).toNat = place := by omega
    rw [hplace]
    -- The entry that gets a spelling has a name, so that none without one changes.
    have hother (i : Nat) (e : VocabularyEntry) (hunnamed : e.name = none) :
        (v.entries.modify place fun e => { e with literal := some text })[i]? = some e ↔
          v.entries[i]? = some e := by
      rw [Array.getElem?_modify]
      split
      · rename_i hi
        have hne {x : VocabularyEntry} (hx : x.name = entry.name) : x ≠ e := fun heq => by
          rw [← heq, hx, hname] at hunnamed
          cases hunnamed
        rw [← hi, hentry]
        exact ⟨fun he => absurd (Option.some.inj he) (hne rfl),
          fun he => absurd (Option.some.inj he) (hne rfl)⟩
      · rfl
    refine ⟨fun i e he hunnamed => ?_, fun other hmem u hu => ?_, fun other u hu => ?_⟩
    · obtain ⟨other, hmem, hliteral, htype⟩ := h.unnamed i e ((hother i e hunnamed).mp he) hunnamed
      exact ⟨other, hmem, hliteral, lookup_cons_of_new hnew _ other _ htype⟩
    · rcases lookup_cons_cases hu with ⟨rfl, _⟩ | hold
      · exact absurd hmem hnot
      · obtain ⟨i, e, rfl, he, hunnamed, hliteral⟩ := h.kept other hmem u hold
        exact ⟨i, e, rfl, (hother i e hunnamed).mpr he, hunnamed, hliteral⟩
    · rcases lookup_cons_cases hu with ⟨rfl, _⟩ | hold
      · exact .inr hspelled
      · exact h.known other u hold

end Separates

end Vocabulary

end AdaptiveLL
