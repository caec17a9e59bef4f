/-
One table of token types for parser rules and lexer rules.

Parser rules look types up by name or by literal, lexer rules get theirs by name,
and rules are made for the literals that no lexer rule spells.  Over a merged
grammar all these agree: a literal has the type of the first lexer rule written as
this literal, a name that of the lexer rule with this name, and no two lexer rules
share a type.  The name of the end of the input is the one exception, since it is
looked up as this end even where a lexer rule has it.
-/
import AdaptiveLL.Proofs.Vocabulary

namespace AdaptiveLL

section Merge

mutual

/-- What adding rules, lexer definitions and token names keeps holds of the merged
definitions. -/
theorem Definition.mergeInto_keeps {P : Merged → Prop} (hrule : ∀ m r, P m → P (m.addRule r))
    (hlexer : ∀ m d, P m → P (m.addLexer d))
    (htokens : ∀ m tokens, P m → P { m with tokens := m.tokens ++ tokens }) :
    ∀ (d : Definition) {m : Merged}, P m → P (d.mergeInto m)
  | ⟨name, rules, lexer, tokens, imports⟩, m, h => by
    rw [Definition.mergeInto]
    refine Definition.mergeAllInto_keeps hrule hlexer htokens imports (htokens _ tokens ?_)
    refine List.foldlRecOn lexer _ (List.foldlRecOn rules _ h ?_) ?_
    · exact fun m hm r _ => hrule m r hm
    · exact fun m hm d _ => hlexer m d hm

theorem Definition.mergeAllInto_keeps {P : Merged → Prop} (hrule : ∀ m r, P m → P (m.addRule r))
    (hlexer : ∀ m d, P m → P (m.addLexer d))
    (htokens : ∀ m tokens, P m → P { m with tokens := m.tokens ++ tokens }) :
    ∀ (ds : List Definition) {m : Merged}, P m → P (Definition.mergeAllInto m ds)
  | [], m, h => by rwa [Definition.mergeAllInto]
  | d :: rest, m, h => by
    rw [Definition.mergeAllInto]
    exact Definition.mergeAllInto_keeps hrule hlexer htokens rest
      (Definition.mergeInto_keeps hrule hlexer htokens d h)

end

theorem Merged.nodup_addLexer {m : Merged} (h : (m.lexer.map LexDefinition.name).Nodup)
    (d : LexDefinition) : ((m.addLexer d).lexer.map LexDefinition.name).Nodup := by
  unfold Merged.addLexer
  split
  · exact h
  · rename_i hnew
    simp only [List.any_eq_true, beq_iff_eq, not_exists, not_and] at hnew
    rw [List.map_append, List.nodup_append]
    refine ⟨h, by simp, fun a ha b hb => ?_⟩
    obtain ⟨other, hother, rfl⟩ := List.mem_map.mp ha
    obtain rfl : b = d.name := by simpa using hb
    exact hnew other hother

/-- Merging leaves one lexer definition of each name. -/
theorem Definition.nodup_lexer_merge (d : Definition) :
    (d.merge.lexer.map LexDefinition.name).Nodup := by
  refine Definition.mergeInto_keeps (P := fun m => (m.lexer.map LexDefinition.name).Nodup)
    (fun m r h => ?_) (fun _ d h => Merged.nodup_addLexer h d) (fun _ _ h => h) d List.nodup_nil
  unfold Merged.addRule
  split <;> exact h

end Merge

namespace Merged

variable {m : Merged} {v : Vocabulary} {text : String} {t : TokenType}

def spelled (m : Merged) : List String :=
  m.tokenRules.filterMap fun d => d.pattern.literalText?

theorem not_spelled_of_implicit (h : text ∈ m.implicitLiterals) : text ∉ m.spelled := by
  rw [implicitLiterals, List.mem_filterMap] at h
  obtain ⟨e, _, he⟩ := h
  split at he
  · split at he
    · cases he
    · rename_i hnot
      obtain rfl := Option.some.inj he
      exact fun hmem => hnot (List.contains_iff_mem.mpr hmem)
  · cases he

section Growing

open Vocabulary

theorem grows_defineTokenRule (v : Vocabulary) (d : LexDefinition) :
    v.Grows (defineTokenRule v d) := by
  unfold defineTokenRule
  dsimp only
  split
  · exact grows_internName v d.name
  · exact (grows_internName v d.name).trans (grows_addSpelling _ _ _)

theorem IndexesNames.defineTokenRule (h : v.IndexesNames) (d : LexDefinition) :
    (Merged.defineTokenRule v d).IndexesNames := by
  unfold Merged.defineTokenRule
  dsimp only
  split
  · exact h.internName d.name
  · exact (h.internName d.name).addSpelling _ _

/-- The name of a lexer rule has a type once the rule was looked at. -/
theorem exists_type_defineTokenRule (v : Vocabulary) (d : LexDefinition) :
    (defineTokenRule v d).definedType? d.name = some (v.internName d.name).1 := by
  have hname := definedType?_internName v d.name
  unfold defineTokenRule
  dsimp only
  split
  · exact hname
  · exact (grows_addSpelling _ _ _).definedType _ _ hname

/-- A lexer rule does not change what other literals stand for. -/
theorem typeOfLiteral?_defineTokenRule_of_ne (v : Vocabulary) {d : LexDefinition}
    (hne : d.pattern.literalText? ≠ some text) :
    (defineTokenRule v d).typeOfLiteral? text = v.typeOfLiteral? text := by
  have hsame : (v.internName d.name).2.typeOfLiteral? text = v.typeOfLiteral? text := by
    unfold internName
    split <;> rfl
  unfold defineTokenRule
  dsimp only
  split
  · exact hsame
  · rename_i other hother
    rw [hother] at hne
    rcases addSpelling_cases (v.internName d.name).2 (v.internName d.name).1 other with h | ⟨_, h⟩
    · rw [h, hsame]
    · have hfalse : (text == other) = false :=
        beq_eq_false_iff_ne.mpr fun heq => hne (congrArg some heq.symm)
      rw [h, typeOfLiteral?, List.lookup_cons, hfalse]
      exact hsame

/-- A lexer rule that is a literal gives this literal its type, if it has none. -/
theorem typeOfLiteral?_defineTokenRule (hnames : v.IndexesNames)
    (hnew : v.typeOfLiteral? text = none) {d : LexDefinition}
    (hd : d.pattern.literalText? = some text) :
    (defineTokenRule v d).typeOfLiteral? text = some (v.internName d.name).1 := by
  have hnone : (v.internName d.name).2.typeOfLiteral? text = none := by
    rw [← hnew]
    unfold internName
    split <;> rfl
  obtain ⟨e, hfound, _⟩ :=
    (hnames.internName d.name).exists_lookup? (definedType?_internName v d.name)
  unfold defineTokenRule
  dsimp only
  rw [hd]
  simp only [addSpelling, hfound, hnone, Option.isNone_some, Option.isSome_none, Bool.or_false]
  rw [if_neg Bool.false_ne_true, typeOfLiteral?, List.lookup_cons_self]

/-- Of the lexer rules that spell a new literal the first one gives it its type. -/
theorem typeOfLiteral?_foldl_defineTokenRule (ds : List LexDefinition) (hnames : v.IndexesNames)
    (hnew : v.typeOfLiteral? text = none) {d : LexDefinition}
    (hd : ds.find? (fun d => d.pattern.literalText? == some text) = some d) :
    ∃ t, (ds.foldl defineTokenRule v).definedType? d.name = some t ∧
      (ds.foldl defineTokenRule v).typeOfLiteral? text = some t := by
  induction ds generalizing v with
  | nil => cases hd
  | cons first rest ih =>
    rw [List.foldl_cons]
    by_cases hfirst : first.pattern.literalText? = some text
    · rw [List.find?_cons_of_pos (by simpa using hfirst)] at hd
      obtain rfl := Option.some.inj hd
      have hgrows := Grows.foldl grows_defineTokenRule rest (defineTokenRule v first)
      exact ⟨_, hgrows.definedType _ _ (exists_type_defineTokenRule v first),
        hgrows.literal _ _ (typeOfLiteral?_defineTokenRule hnames hnew hfirst)⟩
    · rw [List.find?_cons_of_neg (by simpa using hfirst)] at hd
      refine ih (IndexesNames.defineTokenRule hnames first) ?_ hd
      rwa [typeOfLiteral?_defineTokenRule_of_ne v hfirst]

theorem Separates.defineTokenRule {implicit spelled : List String}
    (h : v.Separates implicit spelled) (hnames : v.IndexesNames) {d : LexDefinition}
    (hd : ∀ text, d.pattern.literalText? = some text → text ∈ spelled ∧ text ∉ implicit) :
    (Merged.defineTokenRule v d).Separates implicit spelled := by
  unfold Merged.defineTokenRule
  dsimp only
  split
  · exact h.internName d.name
  · rename_i text htext
    obtain ⟨hspelled, hnot⟩ := hd text htext
    exact (h.internName d.name).addSpelling (hnames.internName d.name)
      (definedType?_internName v d.name) hspelled hnot

/-- The types of the literals that no lexer rule spells, before any other type is
handed out. -/
def literalTypes (m : Merged) : Vocabulary :=
  m.implicitLiterals.foldl (fun v text => (v.internLiteral text).2) .empty

theorem vocabulary_eq (m : Merged) : m.vocabulary =
    m.usedNames.foldl (fun v name => (v.internName name).2)
      (m.tokens.foldl (fun v name => (v.internName name).2)
        (m.tokenRules.foldl Merged.defineTokenRule m.literalTypes)) := rfl

theorem indexesNames_literalTypes (m : Merged) : m.literalTypes.IndexesNames :=
  .foldl (fun _ text h => h.internLiteral text) _ .empty

/-- The table of the names of a grammar agrees with its entries. -/
theorem indexesNames_vocabulary (m : Merged) : m.vocabulary.IndexesNames := by
  have hintern (v : Vocabulary) (name : String) (h : v.IndexesNames) :
      (v.internName name).2.IndexesNames := h.internName name
  rw [vocabulary_eq]
  exact .foldl hintern _ (.foldl hintern _
    (.foldl (fun _ d h => IndexesNames.defineTokenRule h d) _ m.indexesNames_literalTypes))

/-- What the lexer rules define stays in the vocabulary. -/
theorem grows_vocabulary (m : Merged) :
    (m.tokenRules.foldl Merged.defineTokenRule m.literalTypes).Grows m.vocabulary := by
  rw [vocabulary_eq]
  have hnames := Grows.foldl (f := fun v name => (v.internName name).2) grows_internName
  exact (hnames m.tokens _).trans (hnames m.usedNames _)

theorem separates_literalTypes (m : Merged) (spelled : List String) :
    m.literalTypes.Separates m.implicitLiterals spelled :=
  List.foldlRecOn (motive := fun v => Separates v m.implicitLiterals spelled) m.implicitLiterals _
    (Separates.empty _ _) fun _ h _ hmem => h.internLiteral hmem

theorem separates_vocabulary (m : Merged) :
    m.vocabulary.Separates m.implicitLiterals m.spelled := by
  rw [vocabulary_eq]
  have hnames (names : List String) {v : Vocabulary}
      (h : v.Separates m.implicitLiterals m.spelled) :
      (names.foldl (fun v name => (v.internName name).2) v).Separates m.implicitLiterals
        m.spelled :=
    List.foldlRecOn (motive := fun v => Separates v m.implicitLiterals m.spelled) names _ h
      fun _ h name _ => h.internName name
  refine hnames m.usedNames (hnames m.tokens ?_)
  refine (List.foldlRecOn
    (motive := fun v => IndexesNames v ∧ Separates v m.implicitLiterals m.spelled) m.tokenRules _
    ⟨m.indexesNames_literalTypes, m.separates_literalTypes m.spelled⟩ fun v h d hd => ?_).2
  refine ⟨IndexesNames.defineTokenRule h.1 d,
    Separates.defineTokenRule h.2 h.1 fun text htext => ?_⟩
  have hspelled : text ∈ m.spelled := List.mem_filterMap.mpr ⟨d, hd, htext⟩
  exact ⟨hspelled, fun himplicit => not_spelled_of_implicit himplicit hspelled⟩

/-- A literal stands for the type of the first lexer rule that is written as this
literal. -/
theorem typeOfLiteral?_of_spelled {d : LexDefinition}
    (hd : m.tokenRules.find? (fun d => d.pattern.literalText? == some text) = some d) :
    ∃ t, m.vocabulary.definedType? d.name = some t ∧ m.vocabulary.typeOfLiteral? text = some t := by
  have hspelled : text ∈ m.spelled :=
    List.mem_filterMap.mpr ⟨d, List.mem_of_find?_eq_some hd, by simpa using List.find?_some hd⟩
  have hnew : m.literalTypes.typeOfLiteral? text = none := by
    refine Option.eq_none_iff_forall_ne_some.mpr fun t ht => ?_
    rcases (m.separates_literalTypes []).known text t ht with himplicit | hnone
    · exact not_spelled_of_implicit himplicit hspelled
    · cases hnone
  obtain ⟨t, hname, hliteral⟩ :=
    typeOfLiteral?_foldl_defineTokenRule m.tokenRules m.indexesNames_literalTypes hnew hd
  exact ⟨t, m.grows_vocabulary.definedType _ _ hname, m.grows_vocabulary.literal _ _ hliteral⟩

end Growing

section Rules

/-- The lexer rule that a definition is made into. -/
structure Makes (fragments : FragmentTable) (v : Vocabulary) (d : LexDefinition) (r : LexRule) :
    Prop where
  name_eq : r.name = d.name
  typed : v.typeOfName? d.name = some r.type
  expanded : d.pattern.expandFragments fragments = .ok r.pattern
  role_eq : d.role = .rule r.disposition

/-- Only the name of the end of the input is not looked up as it was defined. -/
theorem Makes.definedType {fragments : FragmentTable} {d : LexDefinition} {r : LexRule}
    (h : Makes fragments v d r) (hne : r.name ≠ "EOF") : v.definedType? d.name = some r.type := by
  have htyped := h.typed
  rwa [Vocabulary.typeOfName?, if_neg fun heq => hne (h.name_eq.trans heq)] at htyped

theorem exists_makes {fragments : FragmentTable} {ds : List LexDefinition} {named : List LexRule}
    (h : List.Forall₂ (Makes fragments v) ds named) {r : LexRule} (hr : r ∈ named) :
    ∃ d ∈ ds, Makes fragments v d r := by
  induction h with
  | nil => cases hr
  | @cons d first ds named hd _ ih =>
    rcases List.mem_cons.mp hr with rfl | hr
    · exact ⟨d, List.mem_cons_self, hd⟩
    · obtain ⟨d', hd', hmakes⟩ := ih hr
      exact ⟨d', List.mem_cons_of_mem d hd', hmakes⟩

theorem lexRule?_ok {fragments : FragmentTable} {d : LexDefinition} {r? : Option LexRule}
    (h : lexRule? fragments v d = .ok r?) :
    d.isFragment = true ∧ r? = none ∨
      d.isFragment = false ∧ ∃ r, r? = some r ∧ Makes fragments v d r := by
  unfold lexRule? at h
  cases hrole : d.role with
  | fragment =>
    rw [hrole] at h
    cases h
    exact .inl ⟨by simp [LexDefinition.isFragment, hrole], rfl⟩
  | rule disposition =>
    refine .inr ⟨by simp [LexDefinition.isFragment, hrole], ?_⟩
    rw [hrole] at h
    cases hexpand : d.pattern.expandFragments fragments with
    | error defect => simp [hexpand, bind, Except.bind, Except.mapError] at h
    | ok pattern =>
      cases htype : v.typeOfName? d.name with
      | none =>
        simp only [hexpand, htype, bind, Except.bind, Except.mapError] at h
        split at h <;> cases h
      | some type =>
        simp only [hexpand, htype, bind, Except.bind, Except.mapError, pure, Except.pure] at h
        split at h
        · cases h
        · obtain rfl := Except.ok.inj h
          exact ⟨_, rfl, rfl, htype, hexpand, hrole⟩

theorem forall₂_makes {fragments : FragmentTable} {ds : List LexDefinition}
    {rs : List (Option LexRule)} (h : ds.mapM (lexRule? fragments v) = .ok rs) :
    List.Forall₂ (Makes fragments v) (ds.filter fun d => !d.isFragment) (rs.filterMap id) := by
  induction ds generalizing rs with
  | nil =>
    cases h
    exact .nil
  | cons d ds ih =>
    rw [List.mapM_cons] at h
    cases hd : lexRule? fragments v d with
    | error defect => simp [hd, bind, Except.bind] at h
    | ok r? =>
      cases hrest : ds.mapM (lexRule? fragments v) with
      | error defect => simp [hd, hrest, bind, Except.bind] at h
      | ok rest =>
        obtain rfl : r? :: rest = rs := by
          simpa [hd, hrest, bind, Except.bind, pure, Except.pure] using h
        rcases lexRule?_ok hd with ⟨hfragment, rfl⟩ | ⟨hrule, r, rfl, hmakes⟩
        · rw [List.filter_cons_of_neg (by simp [hfragment]), List.filterMap_cons_none rfl]
          exact ih hrest
        · rw [List.filter_cons_of_pos (by simp [hrule])]
          exact .cons hmakes (ih hrest)

/-- The lexer rules are those of the literals and then those that were written. -/
theorem lexRules_ok {rules : List LexRule} (h : m.lexRules v = .ok rules) :
    ∃ named, rules = literalRules v ++ named ∧
      List.Forall₂ (Makes m.fragments v) m.tokenRules named := by
  unfold lexRules at h
  cases hrules : m.lexer.mapM (lexRule? m.fragments v) with
  | error defect => simp [hrules, bind, Except.bind] at h
  | ok rs =>
    obtain rfl : literalRules v ++ rs.filterMap id = rules := by
      simpa [hrules, bind, Except.bind, pure, Except.pure] using h
    exact ⟨_, rfl, forall₂_makes hrules⟩

theorem mem_unnamedLiterals : (t, text) ∈ unnamedLiterals v ↔
    ∃ (i : Nat) (e : VocabularyEntry), t = i + 1 ∧ v.entries[i]? = some e ∧ e.name = none ∧
      e.literal = some text := by
  simp only [unnamedLiterals, Vocabulary.types, List.mem_filterMap, List.mem_map, List.mem_range]
  constructor
  · rintro ⟨_, ⟨i, hi, rfl⟩, h⟩
    have hentry := Array.getElem?_eq_getElem hi
    rw [v.symbolicName?_place, Vocabulary.literal?, v.lookup?_place, hentry, Option.bind_some,
      Option.bind_some] at h
    split at h
    · rename_i hname hliteral
      obtain ⟨rfl, rfl⟩ := Prod.mk.inj (Option.some.inj h)
      exact ⟨i, _, rfl, hentry, hname, hliteral⟩
    · cases h
  · rintro ⟨i, e, rfl, hentry, hname, hliteral⟩
    refine ⟨_, ⟨i, (Array.getElem?_eq_some_iff.mp hentry).1, rfl⟩, ?_⟩
    rw [v.symbolicName?_place, Vocabulary.literal?, v.lookup?_place, hentry, Option.bind_some,
      Option.bind_some, hname, hliteral]

theorem type_literalRules (v : Vocabulary) :
    (literalRules v).map LexRule.type = (unnamedLiterals v).map Prod.fst := by
  refine List.ext_getElem? fun i => ?_
  cases h : (unnamedLiterals v)[i]? <;> simp [literalRules, h]

theorem mem_literalRules {r : LexRule} (h : r ∈ literalRules v) :
    ∃ text, r.pattern = .literal text ∧ (r.type, text) ∈ unnamedLiterals v := by
  obtain ⟨i, hi, rfl⟩ := List.mem_mapIdx.mp h
  exact ⟨_, rfl, List.getElem_mem hi⟩

theorem exists_literalRule (h : (t, text) ∈ unnamedLiterals v) :
    ∃ r ∈ literalRules v, r.type = t ∧ r.pattern = .literal text := by
  obtain ⟨i, hi, heq⟩ := List.mem_iff_getElem.mp h
  exact ⟨_, List.mem_mapIdx.mpr ⟨i, hi, rfl⟩, by rw [heq], by rw [heq]⟩

theorem nodup_type_literalRules (v : Vocabulary) : ((literalRules v).map LexRule.type).Nodup := by
  rw [type_literalRules, unnamedLiterals, List.map_filterMap]
  have htypes : v.types.Nodup :=
    (List.nodup_map_iff fun i j h => Int.ofNat.inj ((Int.add_left_inj 1).mp h)).mpr List.nodup_range
  refine htypes.filterMap fun t t' u hu hu' => ?_
  split at hu
  · split at hu'
    · exact (Option.some.inj hu).trans (Option.some.inj hu').symm
    · cases hu'
  · cases hu

/-- Different names have different types, that of the end of the input included. -/
theorem typeOfName?_inj (hnames : v.IndexesNames) {name name' : String}
    (h : v.typeOfName? name = some t) (h' : v.typeOfName? name' = some t) : name = name' := by
  have heof {name : String} (h : v.definedType? name = some .eof) : False :=
    absurd (hnames.bounds h).1 (by decide)
  unfold Vocabulary.typeOfName? at h h'
  split at h
  · rename_i hname
    split at h'
    · rename_i hname'
      exact hname.trans hname'.symm
    · obtain rfl := Option.some.inj h
      exact (heof h').elim
  · split at h'
    · obtain rfl := Option.some.inj h'
      exact (heof h).elim
    · exact hnames.inj h h'

/-- The type of a name has a symbolic name, so it is none of the literals without
one. -/
theorem not_unnamed_of_typeOfName (hnames : v.IndexesNames) {name : String}
    (h : v.typeOfName? name = some t) : (t, text) ∉ unnamedLiterals v := by
  intro hmem
  obtain ⟨i, e, rfl, he, hname, _⟩ := mem_unnamedLiterals.mp hmem
  unfold Vocabulary.typeOfName? at h
  split at h
  · exact Vocabulary.place_ne_eof i (Option.some.inj h).symm
  · obtain ⟨e', he', hname'⟩ := hnames.exists_lookup? h
    rw [v.lookup?_place, he] at he'
    obtain rfl := Option.some.inj he'
    rw [hname] at hname'
    cases hname'

/-- No two lexer rules share a type. -/
theorem nodup_type_lexRules (hindexed : v.IndexesNames) {named : List LexRule}
    (hmakes : List.Forall₂ (Makes m.fragments v) m.tokenRules named)
    (hnames : (m.tokenRules.map LexDefinition.name).Nodup) :
    ((literalRules v ++ named).map LexRule.type).Nodup := by
  rw [List.map_append, List.nodup_append]
  refine ⟨nodup_type_literalRules v, ?_, fun t ht u hu => ?_⟩
  · generalize m.tokenRules = ds at hmakes hnames
    induction hmakes with
    | nil => exact List.nodup_nil
    | @cons d r ds named hd hrest ih =>
      rw [List.map_cons, List.nodup_cons] at hnames ⊢
      refine ⟨fun hmem => hnames.1 ?_, ih hnames.2⟩
      obtain ⟨r', hr', htype⟩ := List.mem_map.mp hmem
      obtain ⟨d', hd', hmakes'⟩ := exists_makes hrest hr'
      have htyped := hmakes'.typed
      rw [htype] at htyped
      rw [typeOfName?_inj hindexed hd.typed htyped]
      exact List.mem_map.mpr ⟨d', hd', rfl⟩
  · rintro rfl
    rw [type_literalRules] at ht
    obtain ⟨⟨_, text⟩, hmem, rfl⟩ := List.mem_map.mp ht
    obtain ⟨r, hr, htype⟩ := List.mem_map.mp hu
    obtain ⟨d, _, hd⟩ := exists_makes hmakes hr
    exact not_unnamed_of_typeOfName hindexed (htype ▸ hd.typed) hmem

/-- A lexer rule has a type that was handed out, unless it has the name of the end
of the input. -/
theorem type_bounds (hindexed : v.IndexesNames) {named : List LexRule}
    (hmakes : List.Forall₂ (Makes m.fragments v) m.tokenRules named) {r : LexRule}
    (hr : r ∈ literalRules v ++ named) (hne : r.name ≠ "EOF") :
    1 ≤ r.type ∧ r.type ≤ v.maxType := by
  rcases List.mem_append.mp hr with hliteral | hnamed
  · obtain ⟨text, _, hmem⟩ := mem_literalRules hliteral
    obtain ⟨i, e, htype, hentry, _⟩ := mem_unnamedLiterals.mp hmem
    rw [htype]
    exact ⟨Int.le_add_of_nonneg_left (Int.natCast_nonneg i),
      Int.ofNat_le.mpr (Array.getElem?_eq_some_iff.mp hentry).1⟩
  · obtain ⟨d, _, hd⟩ := exists_makes hmakes hnamed
    exact hindexed.bounds (hd.definedType hne)

/-- The lexer rules of written definitions, with their patterns before fragments
were put in. -/
def asWritten (m : Merged) (named : List LexRule) : List (LexRule × Pattern) :=
  named.zip (m.tokenRules.map LexDefinition.pattern)

/-- The first rule that is written as a literal belongs to the first definition that
is. -/
theorem find?_asWritten {named : List LexRule}
    (hmakes : List.Forall₂ (Makes m.fragments v) m.tokenRules named) {d : LexDefinition}
    (hd : m.tokenRules.find? (fun d => d.pattern.literalText? == some text) = some d) :
    ∃ r, (m.asWritten named).find? (fun x => x.2.literalText? == some text) = some (r, d.pattern) ∧
      Makes m.fragments v d r := by
  unfold asWritten
  generalize m.tokenRules = ds at hmakes hd
  induction hmakes with
  | nil => cases hd
  | @cons first r ds named hfirst _ ih =>
    rw [List.map_cons, List.zip_cons_cons]
    by_cases hspells : first.pattern.literalText? = some text
    · rw [List.find?_cons_of_pos (by simpa using hspells)] at hd
      obtain rfl := Option.some.inj hd
      exact ⟨r, List.find?_cons_of_pos (by simpa using hspells), hfirst⟩
    · rw [List.find?_cons_of_neg (by simpa using hspells)] at hd ⊢
      exact ih hd

/-- A literal that no lexer rule spells has the type of the rule made for it. -/
theorem find?_literalRules (htext : m.vocabulary.typeOfLiteral? text = some t)
    (hnot : text ∉ m.spelled) : ∃ r, (literalRules m.vocabulary).find?
      (fun r => r.pattern.literalText? == some text) = some r ∧ r.type = t := by
  have hseparates := m.separates_vocabulary
  have himplicit := (hseparates.known text t htext).resolve_right hnot
  obtain ⟨i, e, rfl, hentry⟩ := hseparates.kept text himplicit t htext
  obtain ⟨r, hr, _, hpattern⟩ :=
    exists_literalRule (mem_unnamedLiterals.mpr ⟨i, e, rfl, hentry⟩)
  cases hfind : (literalRules m.vocabulary).find? fun r => r.pattern.literalText? == some text with
  | none =>
    have hne := List.find?_eq_none.mp hfind r hr
    rw [hpattern] at hne
    simp [Pattern.literalText?] at hne
  | some found =>
    refine ⟨found, rfl, ?_⟩
    obtain ⟨other, hother, hmem⟩ := mem_literalRules (List.mem_of_find?_eq_some hfind)
    have hspells := List.find?_some hfind
    obtain rfl : other = text := by simpa [hother, Pattern.literalText?] using hspells
    obtain ⟨j, e', hj, hentry', hname', hliteral'⟩ := mem_unnamedLiterals.mp hmem
    obtain ⟨other', _, hother', htype⟩ := hseparates.unnamed j e' hentry' hname'
    obtain rfl : other' = other := Option.some.inj (hother'.symm.trans hliteral')
    rw [hj]
    exact Option.some.inj (htype.symm.trans htext)

/-- A rule made for a literal is not written as a literal that a lexer rule spells. -/
theorem find?_literalRules_eq_none (hspelled : text ∈ m.spelled) :
    (literalRules m.vocabulary).find? (fun r => r.pattern.literalText? == some text) = none := by
  refine List.find?_eq_none.mpr fun r hr hspells => ?_
  obtain ⟨other, hother, hmem⟩ := mem_literalRules hr
  obtain rfl : other = text := by simpa [hother, Pattern.literalText?] using hspells
  obtain ⟨i, e, _, hentry, hname, hliteral⟩ := mem_unnamedLiterals.mp hmem
  obtain ⟨other', himplicit, hother', _⟩ := m.separates_vocabulary.unnamed i e hentry hname
  obtain rfl : other' = other := Option.some.inj (hother'.symm.trans hliteral)
  exact not_spelled_of_implicit himplicit hspelled

/-- All lexer rules with their patterns as written, those made for literals first. -/
def writtenRules (m : Merged) (v : Vocabulary) (named : List LexRule) : List (LexRule × Pattern) :=
  (literalRules v).map (fun r => (r, r.pattern)) ++ m.asWritten named

/-- A literal has the type of the first lexer rule that is written as this literal,
unless this rule has the name of the end of the input. -/
theorem type_of_literal {named : List LexRule}
    (hmakes : List.Forall₂ (Makes m.fragments m.vocabulary) m.tokenRules named)
    (htext : m.vocabulary.typeOfLiteral? text = some t) :
    ∃ x, (m.writtenRules m.vocabulary named).find? (fun x => x.2.literalText? == some text) =
      some x ∧ (x.1.name ≠ "EOF" → x.1.type = t) := by
  rw [writtenRules, List.find?_append, List.find?_map]
  by_cases hspelled : text ∈ m.spelled
  · have hnone := find?_literalRules_eq_none hspelled
    obtain ⟨d, hfind⟩ : ∃ d,
        m.tokenRules.find? (fun d => d.pattern.literalText? == some text) = some d := by
      obtain ⟨d, hd, hspells⟩ := List.mem_filterMap.mp hspelled
      refine Option.isSome_iff_exists.mp (List.find?_isSome.mpr ⟨d, hd, by simp [hspells]⟩)
    obtain ⟨r, hr, hmake⟩ := find?_asWritten hmakes hfind
    obtain ⟨u, hname, htype⟩ := typeOfLiteral?_of_spelled hfind
    obtain rfl : t = u := Option.some.inj (htext.symm.trans htype)
    refine ⟨(r, d.pattern), ?_, fun hne => ?_⟩
    · change (((literalRules m.vocabulary).find?
        fun r => r.pattern.literalText? == some text).map _).or _ = _
      rw [hnone, hr]
      rfl
    · exact Option.some.inj ((hmake.definedType hne).symm.trans hname)
  · obtain ⟨r, hr, htype⟩ := find?_literalRules htext hspelled
    refine ⟨(r, r.pattern), ?_, fun _ => htype⟩
    change (((literalRules m.vocabulary).find?
      fun r => r.pattern.literalText? == some text).map _).or _ = _
    rw [hr]
    rfl

end Rules

end Merged

/-- What a definition that builds has: its vocabulary and its lexer rules are those
of the merged definitions, and its network has the layout of its rules. -/
theorem Definition.lexicon_of_build {d : Definition} {g : Grammar} (h : d.build = .ok g) :
    g.vocabulary = d.merge.vocabulary ∧ d.merge.lexRules g.vocabulary = .ok g.lexRules := by
  simp only [Definition.build, bind, Except.bind, pure, Except.pure] at h
  split at h
  · cases h
  split at h
  · cases h
  split at h
  · cases h
  rename_i rules hrules
  split at h
  · cases h
  split at h
  · cases h
  split at h
  · cases h
  cases h
  exact ⟨rfl, hrules⟩

/-- The token types of a definition that builds are the same for its parser rules
and its lexer rules, wherever they come from.  No two lexer rules share a type, and
each has one that the vocabulary hands out, or that of the end of the input if it
has this name.  The rules are laid in the network with the types that their literals
and names have; and a literal has that of the first lexer rule which is written as
this literal, and a name that of the lexer rule which the definition gives this
name. -/
theorem Definition.token_types_unified {d : Definition} {g : Grammar} (h : d.build = .ok g) :
    ∃ named rules, g.lexRules = Merged.literalRules g.vocabulary ++ named ∧
      List.Forall₂ (Merged.Makes d.merge.fragments g.vocabulary) d.merge.tokenRules named ∧
      (g.lexRules.map LexRule.type).Nodup ∧
      (∀ r ∈ g.lexRules, r.name ≠ "EOF" → 1 ≤ r.type ∧ r.type ≤ g.network.maxType) ∧
      (∀ r ∈ named, r.name = "EOF" → r.type = .eof) ∧
      d.operatorRules = .ok rules ∧ RulesLaid g.network.toGraph g.vocabulary rules ∧
      (∀ text t, TokenFor g.vocabulary (.literal text) t →
        ∃ x, (d.merge.writtenRules g.vocabulary named).find?
          (fun x => x.2.literalText? == some text) = some x ∧
            (x.1.name ≠ "EOF" → x.1.type = t)) ∧
      ∀ name t, name ≠ "EOF" → TokenFor g.vocabulary (.token name) t →
        ∀ r ∈ named, r.name = name → r.type = t := by
  obtain ⟨hvocabulary, hlexRules⟩ := Definition.lexicon_of_build h
  obtain ⟨rules, hrules, _, hruns⟩ := Definition.runs_of_build h
  obtain ⟨named, hsplit, hmakes⟩ := Merged.lexRules_ok hlexRules
  have hnames : (d.merge.tokenRules.map LexDefinition.name).Nodup :=
    (List.Sublist.map _ List.filter_sublist).nodup d.nodup_lexer_merge
  have hindexed : g.vocabulary.IndexesNames := hvocabulary ▸ d.merge.indexesNames_vocabulary
  refine ⟨named, rules, hsplit, hmakes, ?_, fun r hr hne => ?_, fun r hr hname => ?_, hrules,
    hruns.laid, fun text t htoken => ?_, fun name t hne htoken r hr hname => ?_⟩
  · rw [hsplit]
    exact Merged.nodup_type_lexRules hindexed hmakes hnames
  · rw [hruns.maxType_eq]
    exact Merged.type_bounds hindexed hmakes (hsplit ▸ hr) hne
  · obtain ⟨definition, _, hmake⟩ := Merged.exists_makes hmakes hr
    have htyped := hmake.typed
    rw [Vocabulary.typeOfName?, if_pos (hmake.name_eq.symm.trans hname)] at htyped
    exact (Option.some.inj htyped).symm
  · cases htoken with
    | literal ht =>
      rw [hvocabulary] at ht hmakes ⊢
      exact Merged.type_of_literal hmakes ht
  · cases htoken with
    | token ht =>
      obtain ⟨definition, _, hmake⟩ := Merged.exists_makes hmakes hr
      have htyped := hmake.typed
      rw [← hmake.name_eq, hname, ht] at htyped
      exact (Option.some.inj htyped).symm

/-- Phrases of words from elsewhere, one of which is spelled there in another way. -/
def phrases : Definition where
  name := "Phrases"
  rules := [{ name := "s", body := .seq [.rule "x" 0, .literal "+", .token "B"] }]
  lexer := [⟨"B", .literal "b", .rule .emit⟩]
  imports := [{
    name := "Words"
    rules := [{ name := "x", body := .choice [.token "A", .literal "b"] }]
    lexer := [⟨"A", .literal "a", .rule .emit⟩, ⟨"B", .literal "c", .rule .emit⟩]
    tokens := ["B", "A"] }]

theorem token_types_unified_phrases :
    let g := phrases.grammar (by decide +kernel)
    (g.lexRules.map LexRule.type).Nodup ∧
      ∃ named, g.lexRules = Merged.literalRules g.vocabulary ++ named ∧
        ∀ r ∈ named, r.name = "A" → r.type = 3 := by
  intro g
  obtain ⟨named, _, hsplit, _, hnodup, _, _, _, _, _, hnames⟩ :=
    Definition.token_types_unified (phrases.build_eq _)
  exact ⟨hnodup, named, hsplit, hnames "A" 3 (by decide) (.token (by decide +kernel))⟩

def endNamed : Definition where
  name := "EndNamed"
  rules := [{ name := "s", body := .literal "a" }]
  lexer := [⟨"EOF", .literal "a", .rule .emit⟩]

/-- Two lexer rules that match one literal, the first of which names a fragment for
it. -/
def viaFragment : Definition where
  name := "ViaFragment"
  rules := [{ name := "s", body := .literal "a" }]
  lexer := [⟨"A", .fragment "F", .rule .emit⟩, ⟨"F", .literal "a", .fragment⟩,
    ⟨"B", .literal "a", .rule .emit⟩]

/-- A token with the name that the rule of the first unspelled literal gets. -/
def numberedName : Definition where
  name := "NumberedName"
  rules := [{ name := "s", body := .seq [.literal "a", .token "T__0"] }]

/-- A rule with the name of the end of the input has no type of the vocabulary; a
fragment that is a literal does not give it its type; and the name of a rule made
for a literal can be that of another token. -/
theorem token_types_not_unified :
    (∃ h, (endNamed.grammar h).lexRules.map (fun r => (r.name, r.type)) = [("EOF", -1)]) ∧
    (∃ h, (viaFragment.grammar h).lexRules.map (fun r => (r.type, r.pattern.literalText?)) =
        [(1, some "a"), (2, some "a")] ∧
      (viaFragment.grammar h).network.shape? 2 = some ⟨.basic, 0, [.atom 3 2]⟩) ∧
    ∃ h, (numberedName.grammar h).lexRules.map (fun r => (r.name, r.type)) = [("T__0", 1)] ∧
      (numberedName.grammar h).network.shape? 4 = some ⟨.basic, 0, [.atom 5 2]⟩ :=
  ⟨⟨by decide +kernel, by decide +kernel⟩,
    ⟨by decide +kernel, by decide +kernel, by decide +kernel⟩,
    ⟨by decide +kernel, by decide +kernel, by decide +kernel⟩⟩

end AdaptiveLL
