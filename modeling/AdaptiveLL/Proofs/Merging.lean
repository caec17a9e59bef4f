/-
What merging takes from a tree of definitions.

Parser rules and lexer definitions are merged apart.  A name stands in each of the
two lists for what the first definition in depth-first order says that gives it in
this role, and it stands there once.  So the two lists have a name in common where,
and only where, one definition of the tree gives it to a parser rule and one to a
lexer rule or a fragment: then both of them stay.
-/
import AdaptiveLL.Proofs.Lexicon

namespace AdaptiveLL

mutual

/-- A definition and all that it imports, depth first. -/
def Definition.inOrder : Definition → List Definition
  | ⟨name, rules, lexer, tokens, imports⟩ =>
    ⟨name, rules, lexer, tokens, imports⟩ :: Definition.inOrderOfAll imports

def Definition.inOrderOfAll : List Definition → List Definition
  | [] => []
  | d :: rest => d.inOrder ++ Definition.inOrderOfAll rest

end

namespace Merged

variable {m : Merged}

def addOwn (m : Merged) (d : Definition) : Merged :=
  let m := d.lexer.foldl addLexer (d.rules.foldl addRule m)
  { m with tokens := m.tokens ++ d.tokens }

section First

variable {α : Type} {key : α → String} {name : String}

/-- An entry that is left out since one of its name is there would not be the first
of its name. -/
theorem find?_unless_known (xs : List α) (x : α) (name : String) :
    (if xs.any (fun y => key y == key x) then xs else xs ++ [x]).find? (fun y => key y == name) =
      (xs ++ [x]).find? (fun y => key y == name) := by
  split
  · rename_i hknown
    rw [List.find?_append]
    cases hfirst : xs.find? (fun y => key y == name) with
    | some y => rfl
    | none =>
      obtain ⟨y, hy, hkey⟩ := List.any_eq_true.mp hknown
      have hother := List.find?_eq_none.mp hfirst y hy
      rw [eq_of_beq hkey] at hother
      simp [hother]
  · rfl

/-- What is found for a name among entries that were added one after the other. -/
theorem find?_foldl {part : Merged → List α} {add : Merged → α → Merged}
    (hadd : ∀ m x, part (add m x) =
      if (part m).any (fun y => key y == key x) then part m else part m ++ [x])
    (m : Merged) (xs : List α) (name : String) :
    (part (xs.foldl add m)).find? (fun y => key y == name) =
      (part m ++ xs).find? (fun y => key y == name) := by
  induction xs generalizing m with
  | nil => rw [List.foldl_nil, List.append_nil]
  | cons x rest ih =>
    rw [List.foldl_cons, ih, List.find?_append, hadd, find?_unless_known, ← List.find?_append,
      List.append_assoc, List.singleton_append]

theorem mem_names_iff {xs : List α} :
    name ∈ xs.map key ↔ (xs.find? (fun y => key y == name)).isSome = true := by
  simp [List.find?_isSome]

theorem find?_eq_none_iff {xs : List α} :
    xs.find? (fun y => key y == name) = none ↔ name ∉ xs.map key := by
  rw [mem_names_iff, Option.not_isSome_iff_eq_none]

end First

theorem rules_addRule (m : Merged) (r : Rule) : (m.addRule r).rules =
    if m.rules.any (fun other => other.name == r.name) then m.rules else m.rules ++ [r] := by
  unfold addRule
  split <;> rfl

theorem lexer_addLexer (m : Merged) (d : LexDefinition) : (m.addLexer d).lexer =
    if m.lexer.any (fun other => other.name == d.name) then m.lexer else m.lexer ++ [d] := by
  unfold addLexer
  split <;> rfl

theorem lexer_foldl_addRule (m : Merged) (rs : List Rule) :
    (rs.foldl addRule m).lexer = m.lexer := by
  refine List.foldlRecOn (motive := fun m' => m'.lexer = m.lexer) rs addRule rfl fun m' h r _ => ?_
  unfold addRule
  split <;> exact h

theorem find?_rules_addOwn (m : Merged) (d : Definition) (name : String) :
    (m.addOwn d).rules.find? (fun r => r.name == name) =
      (m.rules ++ d.rules).find? (fun r => r.name == name) := by
  have hrules : (m.addOwn d).rules = (d.rules.foldl addRule m).rules :=
    rules_foldl_addLexer _ d.lexer
  rw [hrules, find?_foldl rules_addRule]

theorem find?_lexer_addOwn (m : Merged) (d : Definition) (name : String) :
    (m.addOwn d).lexer.find? (fun x => x.name == name) =
      (m.lexer ++ d.lexer).find? (fun x => x.name == name) := by
  have hlexer := find?_foldl lexer_addLexer (d.rules.foldl addRule m) d.lexer name
  rwa [lexer_foldl_addRule] at hlexer

end Merged

namespace Definition

mutual

/-- Merging goes through the definitions in order. -/
theorem mergeInto_eq : ∀ (d : Definition) (m : Merged),
    d.mergeInto m = d.inOrder.foldl Merged.addOwn m
  | ⟨name, rules, lexer, tokens, imports⟩, m => by
    rw [mergeInto, inOrder, List.foldl_cons, ← mergeAllInto_eq imports]
    rfl

theorem mergeAllInto_eq : ∀ (ds : List Definition) (m : Merged),
    mergeAllInto m ds = (inOrderOfAll ds).foldl Merged.addOwn m
  | [], m => by rw [mergeAllInto, inOrderOfAll, List.foldl_nil]
  | d :: rest, m => by
    rw [mergeAllInto, inOrderOfAll, List.foldl_append, ← mergeInto_eq d, ← mergeAllInto_eq rest]

end

/-- What is found for a name in one part of the merged definitions is what the first
definition gives for it there. -/
theorem find?_merge {α : Type} {p : α → Bool} {part : Merged → List α}
    {own : Definition → List α} (hempty : part {} = [])
    (hown : ∀ m d, (part (m.addOwn d)).find? p = (part m ++ own d).find? p) (d : Definition) :
    (part d.merge).find? p = d.inOrder.findSome? fun g => (own g).find? p := by
  have grow (ds : List Definition) (m : Merged) : (part (ds.foldl Merged.addOwn m)).find? p =
      ((part m).find? p).or (ds.findSome? fun g => (own g).find? p) := by
    induction ds generalizing m with
    | nil => simp
    | cons g rest ih =>
      rw [List.foldl_cons, ih, hown, List.find?_append, List.findSome?_cons, Option.or_assoc]
      cases (own g).find? p <;> rfl
  rw [merge, mergeInto_eq, grow, hempty]
  rfl

/-- A name has one parser rule, that of the first definition that gives it one. -/
theorem find?_rules_merge (d : Definition) (name : String) :
    d.merge.rules.find? (fun r => r.name == name) =
      d.inOrder.findSome? fun g => g.rules.find? (fun r => r.name == name) :=
  find?_merge rfl (fun m g => m.find?_rules_addOwn g name) d

/-- A name has one lexer rule or fragment, that of the first definition that gives
it one. -/
theorem find?_lexer_merge (d : Definition) (name : String) :
    d.merge.lexer.find? (fun x => x.name == name) =
      d.inOrder.findSome? fun g => g.lexer.find? (fun x => x.name == name) :=
  find?_merge rfl (fun m g => m.find?_lexer_addOwn g name) d

def ruleNames (d : Definition) : List String :=
  d.rules.map Rule.name

def lexerNames (d : Definition) : List String :=
  d.lexer.map LexDefinition.name

/-- No name is given to a parser rule in one definition of the tree and to a lexer
rule or a fragment in one. -/
def KeepsRoles (d : Definition) : Prop :=
  ∀ g ∈ d.inOrder, ∀ g' ∈ d.inOrder, ∀ name ∈ g.ruleNames, name ∉ g'.lexerNames

instance (d : Definition) : Decidable d.KeepsRoles :=
  inferInstanceAs (Decidable
    (∀ g ∈ d.inOrder, ∀ g' ∈ d.inOrder, ∀ name ∈ g.ruleNames, name ∉ g'.lexerNames))

theorem mem_ruleNames_merge {d : Definition} {name : String} :
    name ∈ d.merge.rules.map Rule.name ↔ ∃ g ∈ d.inOrder, name ∈ g.ruleNames := by
  rw [Merged.mem_names_iff, find?_rules_merge, List.findSome?_isSome_iff]
  exact exists_congr fun g => and_congr_right fun _ => Merged.mem_names_iff.symm

theorem mem_lexerNames_merge {d : Definition} {name : String} :
    name ∈ d.merge.lexer.map LexDefinition.name ↔ ∃ g ∈ d.inOrder, name ∈ g.lexerNames := by
  rw [Merged.mem_names_iff, find?_lexer_merge, List.findSome?_isSome_iff]
  exact exists_congr fun g => and_congr_right fun _ => Merged.mem_names_iff.symm

/-- The merged names are distinct across parser rules, lexer rules and fragments if
and only if none is given in two roles. -/
theorem nodup_names_merge_iff (d : Definition) :
    (d.merge.rules.map Rule.name ++ d.merge.lexer.map LexDefinition.name).Nodup ↔
      d.KeepsRoles := by
  rw [List.nodup_append]
  constructor
  · rintro ⟨-, -, hdistinct⟩ g hg g' hg' name hname hname'
    exact hdistinct name (mem_ruleNames_merge.mpr ⟨g, hg, hname⟩) name
      (mem_lexerNames_merge.mpr ⟨g', hg', hname'⟩) rfl
  · intro hroles
    refine ⟨d.nodup_merge, d.nodup_lexer_merge, fun name hname other hother heq => ?_⟩
    obtain ⟨g, hg, hrule⟩ := mem_ruleNames_merge.mp hname
    obtain ⟨g', hg', hlexer⟩ := mem_lexerNames_merge.mp hother
    exact hroles g hg g' hg' name hrule (heq ▸ hlexer)

/-- What is found first is what a definition says, if none before it has the name,
and none behind it has the name that it has not. -/
theorem findSome?_of_first {α : Type} {key : α → String} {own : Definition → List α}
    {before rest : List Definition} {g : Definition} {name : String}
    (hbefore : ∀ a ∈ before, name ∉ (own a).map key)
    (hrest : name ∉ (own g).map key → ∀ a ∈ rest, name ∉ (own a).map key) :
    (before ++ g :: rest).findSome? (fun a => (own a).find? (fun y => key y == name)) =
      (own g).find? (fun y => key y == name) := by
  have hnone : before.findSome? (fun a => (own a).find? (fun y => key y == name)) = none :=
    List.findSome?_eq_none_iff.mpr fun a ha => Merged.find?_eq_none_iff.mpr (hbefore a ha)
  rw [List.findSome?_append, hnone, Option.none_or, List.findSome?_cons]
  cases hfound : (own g).find? (fun y => key y == name) with
  | some y => rfl
  | none =>
    have hlacks := hrest (Merged.find?_eq_none_iff.mp hfound)
    exact List.findSome?_eq_none_iff.mpr fun a ha => Merged.find?_eq_none_iff.mpr (hlacks a ha)

theorem find?_merge_of_first {d g : Definition} (hroles : d.KeepsRoles) {name : String}
    (hfirst : d.inOrder.find? (fun g => g.ownNames.contains name) = some g) :
    d.merge.rules.find? (fun r => r.name == name) = g.rules.find? (fun r => r.name == name) ∧
      d.merge.lexer.find? (fun x => x.name == name) =
        g.lexer.find? (fun x => x.name == name) := by
  obtain ⟨hgives, before, rest, horder, hbefore⟩ := List.find?_eq_some_iff_append.mp hfirst
  have hown : name ∈ g.ruleNames ∨ name ∈ g.lexerNames :=
    List.mem_append.mp (List.contains_iff_mem.mp hgives)
  have hlacks : ∀ a ∈ before, name ∉ a.ruleNames ∧ name ∉ a.lexerNames := fun a ha => by
    have hnot : name ∉ a.ownNames := by simpa using hbefore a ha
    exact ⟨fun h => hnot (List.mem_append_left _ h), fun h => hnot (List.mem_append_right _ h)⟩
  have hg : g ∈ d.inOrder := horder ▸ List.mem_append_right _ List.mem_cons_self
  have hmem (a : Definition) (ha : a ∈ rest) : a ∈ d.inOrder :=
    horder ▸ List.mem_append_right _ (List.mem_cons_of_mem g ha)
  rw [find?_rules_merge, find?_lexer_merge, horder]
  refine ⟨findSome?_of_first (fun a ha => (hlacks a ha).1) fun hnot a ha hrule => ?_,
    findSome?_of_first (fun a ha => (hlacks a ha).2) fun hnot a ha hlexer => ?_⟩
  · exact hroles a (hmem a ha) g hg name hrule (hown.resolve_left hnot)
  · exact hroles g hg a (hmem a ha) name (hown.resolve_right hnot) hlexer

/-- Merging keeps one namespace where no name is given in two roles.  There the
merged names are distinct across parser rules, lexer rules and fragments, which they
are nowhere else, and a name means what the first definition says that gives it in
any role. -/
theorem merge_keeps_namespace (d : Definition) :
    ((d.merge.rules.map Rule.name ++ d.merge.lexer.map LexDefinition.name).Nodup ↔
      d.KeepsRoles) ∧
    (d.KeepsRoles → ∀ name g, d.inOrder.find? (fun g => g.ownNames.contains name) = some g →
      d.merge.rules.find? (fun r => r.name == name) = g.rules.find? (fun r => r.name == name) ∧
        d.merge.lexer.find? (fun x => x.name == name) =
          g.lexer.find? (fun x => x.name == name)) :=
  ⟨d.nodup_names_merge_iff, fun hroles _ _ hfirst => find?_merge_of_first hroles hfirst⟩

/-- One of two imported rules is defined anew, and the other is used. -/
def refined : Definition where
  name := "Refined"
  rules := [{ name := "x", body := .seq [.rule "y" 0, .eof] }]
  imports := [{ name := "Plain", rules := [{ name := "x", body := .rule "y" 0 },
    { name := "y", body := .literal "b" }], lexer := [⟨"ID", .between 'a' 'z', .rule .emit⟩] }]

/-- The rule that is defined anew takes the place of the imported one, and the
others stay. -/
theorem merge_keeps_namespace_refined :
    (refined.merge.rules.map Rule.name ++ refined.merge.lexer.map LexDefinition.name).Nodup ∧
    refined.merge.rules.find? (fun r => r.name == "x") =
      some { name := "x", body := .seq [.rule "y" 0, .eof] } ∧
    refined.merge.rules.find? (fun r => r.name == "y") =
      some { name := "y", body := .literal "b" } := by
  have hroles : refined.KeepsRoles := by decide +kernel
  obtain ⟨hnodup, hfirst⟩ := refined.merge_keeps_namespace
  exact ⟨hnodup.mpr hroles, (hfirst hroles "x" _ rfl).1, (hfirst hroles "y" _ rfl).1⟩

/-- A parser rule with the name of a lexer rule that is imported. -/
def overridden : Definition where
  name := "Overriding"
  rules := [{ name := "x", body := .seq [.literal "a", .eof] }]
  imports := [{ name := "Overridden", lexer := [⟨"x", .literal "b", .rule .emit⟩] }]

/-- No definition gives a name twice, and yet the imported lexer rule stays beside
the parser rule. -/
theorem merge_splits_namespace :
    overridden.checkNames = .ok () ∧
    ¬(overridden.merge.rules.map Rule.name ++
      overridden.merge.lexer.map LexDefinition.name).Nodup ∧
    overridden.inOrder.find? (fun g => g.ownNames.contains "x") = some overridden ∧
    overridden.merge.lexer.find? (fun x => x.name == "x") ≠
      overridden.lexer.find? (fun x => x.name == "x") :=
  ⟨by decide +kernel, by decide +kernel, rfl, fun h => nomatch h⟩

end Definition

end AdaptiveLL
