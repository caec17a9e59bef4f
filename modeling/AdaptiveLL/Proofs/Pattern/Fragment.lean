/-
Putting fragments in the place of their names.

A pattern uses the fragments that it refers to, and those that the bodies of these
refer to in turn.  If all names that it uses are known and no fragment comes back to
itself, every reference can be replaced, and what comes out matches the same texts
as before.  Else one of the names that are unknown or come back to themselves is
reported.
-/
import AdaptiveLL.Pattern.Fragment
import AdaptiveLL.Proofs.Pattern
import Mathlib.Data.List.Perm.Subperm

namespace AdaptiveLL

namespace Pattern

mutual

/-- The names that a pattern refers to, from left to right. -/
def references : Pattern → List String
  | .literal _ => []
  | .oneOf _ => []
  | .repetition body _ _ => body.references
  | .seq items => referencesOfAll items
  | .alt items => referencesOfAll items
  | .fragment name => [name]
  | .any => []

def referencesOfAll : List Pattern → List String
  | [] => []
  | p :: rest => p.references ++ referencesOfAll rest

end

/-- The pattern matches a text, where a reference stands for the body of its
fragment. -/
inductive Matches (table : FragmentTable) : Pattern → List Char → Prop where
  | literal {text} : Matches table (.literal text) text.toList
  | oneOf {chars c} (hc : chars.contains c = true) : Matches table (.oneOf chars) [c]
  | any {c} : Matches table .any [c]
  | repetition {body min max} {copies : List (List Char)} (hmin : min ≤ copies.length)
      (hmax : ∀ m ∈ max, copies.length ≤ m) (hcopies : ∀ w ∈ copies, Matches table body w) :
      Matches table (.repetition body min max) copies.flatten
  | nil : Matches table (.seq []) []
  | cons {p items u w} (hfirst : Matches table p u) (hrest : Matches table (.seq items) w) :
      Matches table (.seq (p :: items)) (u ++ w)
  | alt {p items w} (hp : p ∈ items) (hmatches : Matches table p w) : Matches table (.alt items) w
  | fragment {name body w} (hbody : table.lookup name = some body)
      (hmatches : Matches table body w) : Matches table (.fragment name) w

end Pattern

namespace FragmentTable

/-- The body of one fragment refers to another. -/
def Refers (table : FragmentTable) (a b : String) : Prop :=
  ∃ body, table.lookup a = some body ∧ b ∈ body.references

/-- The pattern refers to the name, itself or through the bodies of fragments. -/
def Uses (table : FragmentTable) (p : Pattern) (name : String) : Prop :=
  ∃ first ∈ p.references, Relation.ReflTransGen table.Refers first name

/-- The fragment comes back to itself through the bodies of fragments. -/
def Recurs (table : FragmentTable) (name : String) : Prop :=
  Relation.TransGen table.Refers name name

theorem Uses.of_body {table : FragmentTable} {p body : Pattern} {first name : String}
    (hfirst : first ∈ p.references) (hbody : table.lookup first = some body)
    (h : table.Uses body name) : table.Uses p name := by
  obtain ⟨next, hnext, hway⟩ := h
  exact ⟨first, hfirst, .head ⟨body, hbody, hnext⟩ hway⟩

/-- A fragment that comes back to itself does so through a name of its body. -/
theorem Recurs.uses_body {table : FragmentTable} {body : Pattern} {name : String}
    (h : table.Recurs name) (hbody : table.lookup name = some body) : table.Uses body name := by
  obtain ⟨next, ⟨body', hbody', hnext⟩, hway⟩ := Relation.TransGen.head'_iff.mp h
  obtain rfl := Option.some.inj (hbody.symm.trans hbody')
  exact ⟨next, hnext, hway⟩

end FragmentTable

namespace Pattern

section Resolve

variable {lookup : String → Except FragmentDefect Pattern} {table : FragmentTable}

theorem bind_eq_ok {α β : Type} {x : Except FragmentDefect α} {f : α → Except FragmentDefect β}
    {b : β} : x >>= f = .ok b ↔ ∃ a, x = .ok a ∧ f a = .ok b := by
  cases x <;> simp [bind, Except.bind]

theorem bind_eq_error {α β : Type} {x : Except FragmentDefect α} {f : α → Except FragmentDefect β}
    {defect : FragmentDefect} :
    x >>= f = .error defect ↔ x = .error defect ∨ ∃ a, x = .ok a ∧ f a = .error defect := by
  cases x <;> simp [bind, Except.bind]

mutual

/-- Replacing references fails with what the look-up of one of them fails with. -/
theorem exists_of_resolve_error (p : Pattern) {defect : FragmentDefect}
    (h : p.resolve lookup = .error defect) :
    ∃ name ∈ p.references, lookup name = .error defect := by
  cases p with
  | literal | oneOf | any => cases h
  | fragment name => exact ⟨name, List.mem_singleton_self name, h⟩
  | repetition body min max =>
    rcases bind_eq_error.mp h with hbody | ⟨_, _, hdone⟩
    · exact exists_of_resolve_error body hbody
    · cases hdone
  | seq items | alt items =>
    rcases bind_eq_error.mp h with hitems | ⟨_, _, hdone⟩
    · exact exists_of_resolveAll_error items hitems
    · cases hdone

theorem exists_of_resolveAll_error (ps : List Pattern) {defect : FragmentDefect}
    (h : resolveAll lookup ps = .error defect) :
    ∃ name ∈ referencesOfAll ps, lookup name = .error defect := by
  cases ps with
  | nil => cases h
  | cons p rest =>
    rw [referencesOfAll]
    rcases bind_eq_error.mp h with hp | ⟨_, _, hmore⟩
    · obtain ⟨name, hname, hlookup⟩ := exists_of_resolve_error p hp
      exact ⟨name, List.mem_append_left _ hname, hlookup⟩
    · rcases bind_eq_error.mp hmore with hrest | ⟨_, _, hdone⟩
      · obtain ⟨name, hname, hlookup⟩ := exists_of_resolveAll_error rest hrest
        exact ⟨name, List.mem_append_right _ hname, hlookup⟩
      · cases hdone

end

mutual

/-- Replacing references needs the look-up of each. -/
theorem lookup_of_resolve_ok (p : Pattern) {q : Pattern} (h : p.resolve lookup = .ok q) :
    ∀ name ∈ p.references, ∃ r, lookup name = .ok r := by
  cases p with
  | literal | oneOf | any => exact nofun
  | fragment name =>
    intro name' hname
    obtain rfl := List.mem_singleton.mp hname
    exact ⟨q, h⟩
  | repetition body min max =>
    obtain ⟨_, hbody, _⟩ := bind_eq_ok.mp h
    exact lookup_of_resolve_ok body hbody
  | seq items | alt items =>
    obtain ⟨_, hitems, _⟩ := bind_eq_ok.mp h
    exact lookup_of_resolveAll_ok items hitems

theorem lookup_of_resolveAll_ok (ps : List Pattern) {qs : List Pattern}
    (h : resolveAll lookup ps = .ok qs) :
    ∀ name ∈ referencesOfAll ps, ∃ r, lookup name = .ok r := by
  cases ps with
  | nil => exact nofun
  | cons p rest =>
    obtain ⟨_, hp, hmore⟩ := bind_eq_ok.mp h
    obtain ⟨_, hrest, _⟩ := bind_eq_ok.mp hmore
    rw [referencesOfAll]
    intro name hname
    rcases List.mem_append.mp hname with hname | hname
    · exact lookup_of_resolve_ok p hp name hname
    · exact lookup_of_resolveAll_ok rest hrest name hname

end

mutual

/-- Only what is looked up for the references counts. -/
theorem resolve_congr {other : String → Except FragmentDefect Pattern} (p : Pattern)
    (h : ∀ name ∈ p.references, lookup name = other name) : p.resolve lookup = p.resolve other := by
  cases p with
  | literal | oneOf | any => rfl
  | fragment name => exact h name (List.mem_singleton_self name)
  | repetition body min max => rw [resolve, resolve, resolve_congr body h]
  | seq items | alt items => rw [resolve, resolve, resolveAll_congr items h]

theorem resolveAll_congr {other : String → Except FragmentDefect Pattern} (ps : List Pattern)
    (h : ∀ name ∈ referencesOfAll ps, lookup name = other name) :
    resolveAll lookup ps = resolveAll other ps := by
  cases ps with
  | nil => rfl
  | cons p rest =>
    rw [referencesOfAll] at h
    obtain ⟨hfirst, hothers⟩ := List.forall_mem_append.mp h
    rw [resolveAll, resolveAll, resolve_congr p hfirst, resolveAll_congr rest hothers]

end

end Resolve

/-- The second pattern refers to no fragment and matches what the first one does. -/
structure Inlines (table : FragmentTable) (p q : Pattern) : Prop where
  references_eq : q.references = []
  mem_language : ∀ w, w ∈ q.language ↔ Matches table p w

namespace Inlines

variable {table : FragmentTable} {ps qs : List Pattern}

theorem literal (text : String) : Inlines table (.literal text) (.literal text) where
  references_eq := rfl
  mem_language w := by
    constructor
    · rintro rfl
      exact .literal
    · intro h
      cases h
      rfl

theorem oneOf (chars : CharClass) : Inlines table (.oneOf chars) (.oneOf chars) where
  references_eq := rfl
  mem_language w := by
    constructor
    · rintro ⟨c, hc, rfl⟩
      exact .oneOf hc
    · intro h
      cases h with
      | oneOf hc => exact ⟨_, hc, rfl⟩

theorem any : Inlines table .any .any where
  references_eq := rfl
  mem_language w := by
    constructor
    · rintro ⟨c, _, rfl⟩
      exact .any
    · intro h
      cases h
      exact ⟨_, rfl, rfl⟩

/-- Copies of a pattern are a list of texts that it matches. -/
theorem repetition {body q : Pattern} (h : Inlines table body q) (min : Nat) (max : Option Nat) :
    Inlines table (.repetition body min max) (.repetition q min max) where
  references_eq := h.references_eq
  mem_language w := by
    constructor
    · rintro ⟨k, hmin, hmax, hw⟩
      obtain ⟨copies, rfl, rfl, hcopies⟩ := Language.mem_pow.mp hw
      exact .repetition hmin hmax fun u hu => (h.mem_language u).mp (hcopies u hu)
    · intro hw
      cases hw with
      | repetition hmin hmax hcopies =>
        refine ⟨_, hmin, hmax, Language.mem_pow.mpr ⟨_, rfl, rfl, ?_⟩⟩
        intro u hu
        exact (h.mem_language u).mpr (hcopies u hu)

theorem references_of_forall₂ (h : List.Forall₂ (Inlines table) ps qs) :
    referencesOfAll qs = [] := by
  induction h with
  | nil => rfl
  | cons hfirst _ ih => rw [referencesOfAll, hfirst.references_eq, ih, List.append_nil]

theorem seq (h : List.Forall₂ (Inlines table) ps qs) : Inlines table (.seq ps) (.seq qs) where
  references_eq := references_of_forall₂ h
  mem_language w := by
    induction h generalizing w with
    | nil =>
      constructor
      · rintro rfl
        exact .nil
      · intro hw
        cases hw
        rfl
    | cons hfirst _ ih =>
      constructor
      · rintro ⟨u, hu, rest, hrest, rfl⟩
        exact .cons ((hfirst.mem_language u).mp hu) ((ih rest).mp hrest)
      · intro hw
        cases hw with
        | cons hu hrest =>
          exact Language.append_mem_mul ((hfirst.mem_language _).mpr hu) ((ih _).mpr hrest)

theorem alt (h : List.Forall₂ (Inlines table) ps qs) : Inlines table (.alt ps) (.alt qs) where
  references_eq := references_of_forall₂ h
  mem_language w := by
    induction h with
    | nil =>
      constructor
      · intro hw
        cases hw
      · intro hw
        cases hw with
        | alt hp => cases hp
    | cons hfirst _ ih =>
      constructor
      · rintro (hw | hw)
        · exact .alt List.mem_cons_self ((hfirst.mem_language w).mp hw)
        · cases ih.mp hw with
          | alt hp hmatches => exact .alt (List.mem_cons_of_mem _ hp) hmatches
      · intro hw
        cases hw with
        | alt hp hmatches =>
          rcases List.mem_cons.mp hp with rfl | hp
          · exact .inl ((hfirst.mem_language w).mpr hmatches)
          · exact .inr (ih.mpr (.alt hp hmatches))

/-- A reference is inlined by what inlines its body. -/
theorem fragment {name : String} {body q : Pattern} (hbody : table.lookup name = some body)
    (h : Inlines table body q) : Inlines table (.fragment name) q where
  references_eq := h.references_eq
  mem_language w := by
    rw [h.mem_language]
    constructor
    · exact .fragment hbody
    · intro hw
      cases hw with
      | fragment hbody' hmatches =>
        obtain rfl := Option.some.inj (hbody.symm.trans hbody')
        exact hmatches

end Inlines

section Inlining

variable {lookup : String → Except FragmentDefect Pattern} {table : FragmentTable}

mutual

/-- A pattern is inlined if what is put in the place of each reference inlines it. -/
theorem inlines_of_resolve (p : Pattern) {q : Pattern}
    (hlookup : ∀ name ∈ p.references, ∀ r, lookup name = .ok r → Inlines table (.fragment name) r)
    (h : p.resolve lookup = .ok q) : Inlines table p q := by
  cases p with
  | literal text =>
    obtain rfl := Except.ok.inj h
    exact .literal text
  | oneOf chars =>
    obtain rfl := Except.ok.inj h
    exact .oneOf chars
  | any =>
    obtain rfl := Except.ok.inj h
    exact .any
  | fragment name => exact hlookup name (List.mem_singleton_self name) q h
  | repetition body min max =>
    obtain ⟨b, hbody, hq⟩ := bind_eq_ok.mp h
    obtain rfl := Except.ok.inj hq
    exact (inlines_of_resolve body hlookup hbody).repetition min max
  | seq items =>
    obtain ⟨qs, hitems, hq⟩ := bind_eq_ok.mp h
    obtain rfl := Except.ok.inj hq
    exact .seq (inlines_of_resolveAll items hlookup hitems)
  | alt items =>
    obtain ⟨qs, hitems, hq⟩ := bind_eq_ok.mp h
    obtain rfl := Except.ok.inj hq
    exact .alt (inlines_of_resolveAll items hlookup hitems)

theorem inlines_of_resolveAll (ps : List Pattern) {qs : List Pattern}
    (hlookup : ∀ name ∈ referencesOfAll ps, ∀ r, lookup name = .ok r →
      Inlines table (.fragment name) r)
    (h : resolveAll lookup ps = .ok qs) : List.Forall₂ (Inlines table) ps qs := by
  cases ps with
  | nil =>
    obtain rfl := Except.ok.inj h
    exact .nil
  | cons p rest =>
    obtain ⟨q, hp, hmore⟩ := bind_eq_ok.mp h
    obtain ⟨rest', hrest, hqs⟩ := bind_eq_ok.mp hmore
    obtain rfl := Except.ok.inj hqs
    rw [referencesOfAll] at hlookup
    obtain ⟨hfirst, hothers⟩ := List.forall_mem_append.mp hlookup
    exact .cons (inlines_of_resolve p hfirst hp) (inlines_of_resolveAll rest hothers hrest)

end

end Inlining

section Expand

variable {table : FragmentTable} {active : List String} {depth : Nat} {p q : Pattern}
  {name : String} {defect : FragmentDefect}

/-- What is put in the place of a reference while the active names are being inlined. -/
def expandName (table : FragmentTable) (depth : Nat) (active : List String) (name : String) :
    Except FragmentDefect Pattern :=
  if active.contains name then .error (.recursive name)
  else
    match table.lookup name with
    | none => .error (.undefined name)
    | some body => expandTo table depth (name :: active) body

theorem expandName_ok (h : expandName table depth active name = .ok q) :
    name ∉ active ∧ ∃ body, table.lookup name = some body ∧
      expandTo table depth (name :: active) body = .ok q := by
  unfold expandName at h
  split at h
  · cases h
  · rename_i hnew
    split at h
    · cases h
    · rename_i body hbody
      exact ⟨by simpa using hnew, body, hbody, h⟩

theorem expandName_error (h : expandName table depth active name = .error defect) :
    (defect = .recursive name ∧ name ∈ active) ∨
      (defect = .undefined name ∧ table.lookup name = none) ∨
        name ∉ active ∧ ∃ body, table.lookup name = some body ∧
          expandTo table depth (name :: active) body = .error defect := by
  unfold expandName at h
  split at h
  · rename_i hold
    exact .inl ⟨(Except.error.inj h).symm, by simpa using hold⟩
  · rename_i hnew
    split at h
    · rename_i hnone
      exact .inr (.inl ⟨(Except.error.inj h).symm, hnone⟩)
    · rename_i body hbody
      exact .inr (.inr ⟨by simpa using hnew, body, hbody, h⟩)

/-- A pattern that was expanded is inlined, whatever depth it took. -/
theorem inlines_of_expandTo (h : expandTo table depth active p = .ok q) : Inlines table p q := by
  induction depth generalizing active p q with
  | zero =>
    apply inlines_of_resolve p _ h
    intro name _ r hr
    cases hr
  | succ depth ih =>
    apply inlines_of_resolve p _ h
    intro name _ r hr
    obtain ⟨_, body, hbody, hexpand⟩ := expandName_ok hr
    exact (ih hexpand).fragment hbody

/-- A pattern that was expanded uses no active name.  Below a fragment its own name
is active, so that the fragment does not come back to itself. -/
theorem uses_of_expandTo (h : expandTo table depth active p = .ok q) (huses : table.Uses p name) :
    name ∉ active ∧ (∃ body, table.lookup name = some body) ∧ ¬table.Recurs name := by
  induction depth generalizing active p q name with
  | zero =>
    obtain ⟨first, hfirst, _⟩ := huses
    obtain ⟨r, hr⟩ := lookup_of_resolve_ok p h first hfirst
    cases hr
  | succ depth ih =>
    obtain ⟨first, hfirst, hway⟩ := huses
    obtain ⟨r, hr⟩ := lookup_of_resolve_ok p h first hfirst
    obtain ⟨hnew, body, hbody, hexpand⟩ := expandName_ok hr
    rcases hway.cases_head with rfl | ⟨next, ⟨body', hbody', hnext⟩, hrest⟩
    · refine ⟨hnew, ⟨body, hbody⟩, fun hrecurs => ?_⟩
      exact (ih hexpand (hrecurs.uses_body hbody)).1 List.mem_cons_self
    · obtain rfl := Option.some.inj (hbody.symm.trans hbody')
      obtain ⟨hinactive, hname⟩ := ih hexpand ⟨next, hnext, hrest⟩
      exact ⟨fun hmem => hinactive (List.mem_cons_of_mem _ hmem), hname⟩

/-- The names being inlined are different names of the table, each of which leads to
every reference of the pattern, and the depth is enough for the names that are
left. -/
structure Active (table : FragmentTable) (depth : Nat) (active : List String) (p : Pattern) :
    Prop where
  nodup : active.Nodup
  known : active ⊆ table.map Prod.fst
  leads : ∀ a ∈ active, ∀ b ∈ p.references, Relation.TransGen table.Refers a b
  length_lt : table.length < depth + active.length

namespace Active

theorem start (h : table.length < depth) : Active table depth [] p where
  nodup := .nil
  known := List.nil_subset _
  leads := nofun
  length_lt := h

/-- There are not more active names than names, so the depth is never used up. -/
theorem depth_ne_zero (h : Active table depth active p) : depth ≠ 0 := by
  have hle : active.length ≤ (table.map Prod.fst).length :=
    (List.subperm_of_subset h.nodup h.known).length_le
  have hlt := h.length_lt
  rw [List.length_map] at hle
  omega

theorem next {body : Pattern} (h : Active table (depth + 1) active p) (hname : name ∈ p.references)
    (hnew : name ∉ active) (hbody : table.lookup name = some body) :
    Active table depth (name :: active) body where
  nodup := List.nodup_cons.mpr ⟨hnew, h.nodup⟩
  known := by
    apply List.cons_subset.mpr
    obtain ⟨before, after, rfl, _⟩ := List.lookup_eq_some_iff.mp hbody
    exact ⟨List.mem_map_of_mem (List.mem_append_right _ List.mem_cons_self), h.known⟩
  leads := by
    intro a ha b hb
    rcases List.mem_cons.mp ha with rfl | ha
    · exact .single ⟨body, hbody, hb⟩
    · exact (h.leads a ha name hname).tail ⟨body, hbody, hb⟩
  length_lt := by
    have hlt := h.length_lt
    rw [List.length_cons]
    omega

/-- No depth that is enough makes a difference. -/
theorem expandTo_eq {more : Nat} (h : Active table depth active p)
    (hmore : Active table more active p) :
    expandTo table depth active p = expandTo table more active p := by
  induction depth generalizing more active p with
  | zero => exact absurd rfl h.depth_ne_zero
  | succ depth ih =>
    obtain ⟨more, rfl⟩ := Nat.exists_eq_succ_of_ne_zero hmore.depth_ne_zero
    apply resolve_congr
    intro name hname
    by_cases hnew : name ∈ active
    · rw [if_pos (by simpa using hnew), if_pos (by simpa using hnew)]
    · rw [if_neg (by simpa using hnew), if_neg (by simpa using hnew)]
      cases hbody : table.lookup name with
      | none => rfl
      | some body => exact ih (h.next hname hnew hbody) (hmore.next hname hnew hbody)

/-- The defect reported is one of a name that the pattern uses. -/
theorem defect_of_expandTo (hactive : Active table depth active p)
    (h : expandTo table depth active p = .error defect) :
    (∃ name, defect = .undefined name ∧ table.Uses p name ∧ table.lookup name = none) ∨
      ∃ name, defect = .recursive name ∧ table.Uses p name ∧ table.Recurs name := by
  induction depth generalizing active p with
  | zero => exact absurd rfl hactive.depth_ne_zero
  | succ depth ih =>
    obtain ⟨name, hname, herror⟩ := exists_of_resolve_error p h
    rcases expandName_error herror with ⟨rfl, hold⟩ | ⟨rfl, hnone⟩ | ⟨hnew, body, hbody, hexpand⟩
    · exact .inr ⟨name, rfl, ⟨name, hname, .refl⟩, hactive.leads name hold name hname⟩
    · exact .inl ⟨name, rfl, ⟨name, hname, .refl⟩, hnone⟩
    · -- the body fails, and what it uses the pattern uses through the name
      refine (ih (hactive.next hname hnew hbody) hexpand).imp ?_ ?_ <;>
      · rintro ⟨bad, hdefect, huses, hbad⟩
        exact ⟨bad, hdefect, .of_body hname hbody huses, hbad⟩

end Active

end Expand

/-- Inlining comes to an end: no depth beyond the number of fragments makes a
difference.  References are replaced exactly if every name that the pattern uses is
known and does not come back to itself.  Then no reference is left and the language
is the same, else a name that spoils it is reported. -/
theorem expandFragments_exact (table : FragmentTable) (p : Pattern) :
    (∀ depth, table.length < depth → expandTo table depth [] p = p.expandFragments table) ∧
      ((∃ q, p.expandFragments table = .ok q) ↔
        ∀ name, table.Uses p name →
          (∃ body, table.lookup name = some body) ∧ ¬table.Recurs name) ∧
      (∀ q, p.expandFragments table = .ok q →
        q.references = [] ∧ ∀ w, w ∈ q.language ↔ Matches table p w) ∧
      ∀ defect, p.expandFragments table = .error defect →
        (∃ name, defect = .undefined name ∧ table.Uses p name ∧ table.lookup name = none) ∨
          ∃ name, defect = .recursive name ∧ table.Uses p name ∧ table.Recurs name := by
  have hstart : Active table (table.length + 1) [] p := .start (Nat.lt_succ_self _)
  refine ⟨?_, ⟨?_, ?_⟩, ?_, ?_⟩
  · intro depth hdepth
    exact (Active.start hdepth).expandTo_eq hstart
  · rintro ⟨q, hq⟩ name huses
    exact (uses_of_expandTo hq huses).2
  · intro hgood
    cases hexpand : p.expandFragments table with
    | ok q => exact ⟨q, rfl⟩
    | error defect =>
      rcases hstart.defect_of_expandTo hexpand with
        ⟨name, _, huses, hnone⟩ | ⟨name, _, huses, hrecurs⟩
      · obtain ⟨body, hbody⟩ := (hgood name huses).1
        rw [hnone] at hbody
        cases hbody
      · exact absurd hrecurs (hgood name huses).2
  · intro q hq
    have hinlines := inlines_of_expandTo hq
    exact ⟨hinlines.references_eq, hinlines.mem_language⟩
  · intro defect hdefect
    exact hstart.defect_of_expandTo hdefect

/-- Two ways to one fragment are fine, a way back to it is not. -/
example :
    (Pattern.seq [.fragment "A", .fragment "B"]).expandFragments
      [("A", .fragment "C"), ("B", .fragment "C"), ("C", .literal "c")] =
      .ok (.seq [.literal "c", .literal "c"]) ∧
    (Pattern.fragment "A").expandFragments [("A", .fragment "B"), ("B", .fragment "A")] =
      .error (.recursive "A") := by
  constructor <;> rfl

end Pattern

end AdaptiveLL
