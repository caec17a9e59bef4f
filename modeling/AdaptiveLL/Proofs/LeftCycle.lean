/-
The search for cycles of left calls is exact.

An expression derives nothing, or calls a rule first, by rules of its own that do
not mention how either is found out.  The nullable rules are those that derive
nothing, and the search finds a cycle if and only if a rule can come back to itself
through first calls.
-/
import AdaptiveLL.Proofs.Derivation
import Mathlib.Data.List.Chain

namespace AdaptiveLL

/-- The expression derives the empty word, if all predicates hold and no level of
precedence is too low. -/
inductive DerivesNothing (rules : List Rule) : Expr → Prop where
  | empty : DerivesNothing rules .empty
  | action {text} : DerivesNothing rules (.action text)
  | predicate {text} : DerivesNothing rules (.predicate text)
  | precedence {level} : DerivesNothing rules (.precedence level)
  | rule {r level} (hr : r ∈ rules) (hbody : DerivesNothing rules r.body) :
      DerivesNothing rules (.rule r.name level)
  | seq {es} (hes : ∀ e ∈ es, DerivesNothing rules e) : DerivesNothing rules (.seq es)
  | choice {es e} (he : e ∈ es) (hnothing : DerivesNothing rules e) :
      DerivesNothing rules (.choice es)
  | optional {e} : DerivesNothing rules (.optional e)
  | star {e} : DerivesNothing rules (.star e)
  | operatorLoop {e} : DerivesNothing rules (.operatorLoop e)
  | plus {e} (hbody : DerivesNothing rules e) : DerivesNothing rules (.plus e)
  | label {name e} (hbody : DerivesNothing rules e) : DerivesNothing rules (.label name e)
  | rightAssoc {e} (hbody : DerivesNothing rules e) : DerivesNothing rules (.rightAssoc e)

/-- The expression can call the rule before anything is read. -/
inductive CallsFirst (rules : List Rule) : Expr → String → Prop where
  | rule {name level} : CallsFirst rules (.rule name level) name
  | seq {before e after name} (hbefore : ∀ x ∈ before, DerivesNothing rules x)
      (he : CallsFirst rules e name) : CallsFirst rules (.seq (before ++ e :: after)) name
  | choice {es e name} (hmem : e ∈ es) (he : CallsFirst rules e name) :
      CallsFirst rules (.choice es) name
  | optional {e name} (he : CallsFirst rules e name) : CallsFirst rules (.optional e) name
  | star {e name} (he : CallsFirst rules e name) : CallsFirst rules (.star e) name
  | operatorLoop {e name} (he : CallsFirst rules e name) : CallsFirst rules (.operatorLoop e) name
  | plus {e name} (he : CallsFirst rules e name) : CallsFirst rules (.plus e) name
  | label {label e name} (he : CallsFirst rules e name) : CallsFirst rules (.label label e) name
  | rightAssoc {e name} (he : CallsFirst rules e name) : CallsFirst rules (.rightAssoc e) name

/-- The first rule can call the second, which is defined, before anything is read. -/
def LeftCalls (rules : List Rule) (caller callee : String) : Prop :=
  (∃ r ∈ rules, r.name = caller ∧ CallsFirst rules r.body callee) ∧
    ∃ r ∈ rules, r.name = callee

section Nothing

variable {rules : List Rule} {nullable : List String}

theorem Expr.allNullable_eq (es : List Expr) :
    Expr.allNullable nullable es = es.all fun e => e.isNullable nullable := by
  induction es with
  | nil => rfl
  | cons e es ih => rw [Expr.allNullable, List.all_cons, ih]

/-- Each of the names is that of a rule whose body derives nothing. -/
def NullableSound (rules : List Rule) (nullable : List String) : Prop :=
  ∀ name ∈ nullable, ∃ r ∈ rules, r.name = name ∧ DerivesNothing rules r.body

namespace NullableSound

mutual

theorem derivesNothing (h : NullableSound rules nullable) (e : Expr)
    (he : e.isNullable nullable = true) : DerivesNothing rules e := by
  cases e with
  | literal | token | eof | wildcard => cases he
  | rule name level =>
    obtain ⟨r, hr, rfl, hbody⟩ := h name (by simpa [Expr.isNullable] using he)
    exact .rule hr hbody
  | seq es => exact .seq (h.derivesNothing_all es he)
  | choice es =>
    obtain ⟨e, hmem, hnothing⟩ := h.derivesNothing_any es he
    exact .choice hmem hnothing
  | plus body => exact .plus (h.derivesNothing body he)
  | label name body => exact .label (h.derivesNothing body he)
  | rightAssoc body => exact .rightAssoc (h.derivesNothing body he)
  | optional => exact .optional
  | star => exact .star
  | operatorLoop => exact .operatorLoop
  | empty => exact .empty
  | action => exact .action
  | predicate => exact .predicate
  | precedence => exact .precedence

theorem derivesNothing_all (h : NullableSound rules nullable) (es : List Expr)
    (hes : Expr.allNullable nullable es = true) : ∀ e ∈ es, DerivesNothing rules e := by
  cases es with
  | nil => exact nofun
  | cons e rest =>
    obtain ⟨he, hrest⟩ := Bool.and_eq_true_iff.mp hes
    exact List.forall_mem_cons.mpr ⟨h.derivesNothing e he, h.derivesNothing_all rest hrest⟩

theorem derivesNothing_any (h : NullableSound rules nullable) (es : List Expr)
    (hes : Expr.anyNullable nullable es = true) : ∃ e ∈ es, DerivesNothing rules e := by
  cases es with
  | nil => cases hes
  | cons e rest =>
    rcases Bool.or_eq_true_iff.mp hes with he | hrest
    · exact ⟨e, List.mem_cons_self, h.derivesNothing e he⟩
    · obtain ⟨x, hx, hnothing⟩ := h.derivesNothing_any rest hrest
      exact ⟨x, List.mem_cons_of_mem _ hx, hnothing⟩

end

/-- A round adds only names of rules whose bodies derive nothing. -/
theorem growNullable {part : List Rule} (hpart : part ⊆ rules) (h : NullableSound rules nullable) :
    NullableSound rules (growNullable part nullable) := by
  unfold AdaptiveLL.growNullable
  induction part generalizing nullable with
  | nil => exact h
  | cons r rest ih =>
    obtain ⟨hr, hrest⟩ := List.cons_subset.mp hpart
    rw [List.foldl_cons]
    apply ih hrest
    split
    · rename_i hnew
      have hbody := (Bool.and_eq_true_iff.mp hnew).2
      exact List.forall_mem_cons.mpr ⟨⟨r, hr, rfl, h.derivesNothing r.body hbody⟩, h⟩
    · exact h

theorem nullableIn (rounds : Nat) : NullableSound rules (nullableIn rules rounds) := by
  induction rounds with
  | zero => exact nofun
  | succ rounds ih =>
    rw [nullableIn_succ]
    exact ih.growNullable (List.Subset.refl _)

end NullableSound

/-- An expression is nullable under the nullable rules exactly if it derives nothing. -/
theorem isNullable_nullableRules (e : Expr) :
    e.isNullable (nullableRules rules) = true ↔ DerivesNothing rules e := by
  constructor
  · exact (NullableSound.nullableIn rules.length).derivesNothing e
  · intro h
    induction h with
    | rule hr _ ih => simpa [Expr.isNullable] using mem_nullableRules hr ih
    | seq _ ih =>
      rw [Expr.isNullable, Expr.allNullable_eq, List.all_eq_true]
      exact ih
    | choice he _ ih =>
      rw [Expr.isNullable, Expr.anyNullable_eq, List.any_eq_true]
      exact ⟨_, he, ih⟩
    | plus _ ih | label _ ih | rightAssoc _ ih => exact ih
    | _ => rfl

end Nothing

section First

variable {rules : List Rule} {e : Expr} {es : List Expr} {name : String}

/-- What a sequence calls first behind an item that derives nothing. -/
theorem CallsFirst.cons (he : DerivesNothing rules e) (h : CallsFirst rules (.seq es) name) :
    CallsFirst rules (.seq (e :: es)) name := by
  cases h with
  | seq hbefore hcalls =>
    exact @CallsFirst.seq _ (e :: _) _ _ _ (List.forall_mem_cons.mpr ⟨he, hbefore⟩) hcalls

mutual

/-- The left calls of an expression are what it can call first. -/
theorem callsFirst_of_mem_leftCalls (e : Expr) (h : name ∈ e.leftCalls (nullableRules rules)) :
    CallsFirst rules e name := by
  cases e with
  | rule callee level =>
    obtain rfl := List.mem_singleton.mp h
    exact .rule
  | seq es => exact callsFirst_of_mem_seq es h
  | choice es =>
    obtain ⟨e, he, hcalls⟩ := callsFirst_of_mem_any es h
    exact .choice he hcalls
  | optional body => exact .optional (callsFirst_of_mem_leftCalls body h)
  | star body => exact .star (callsFirst_of_mem_leftCalls body h)
  | plus body => exact .plus (callsFirst_of_mem_leftCalls body h)
  | label _ body => exact .label (callsFirst_of_mem_leftCalls body h)
  | rightAssoc body => exact .rightAssoc (callsFirst_of_mem_leftCalls body h)
  | operatorLoop body => exact .operatorLoop (callsFirst_of_mem_leftCalls body h)
  | _ => cases h

theorem callsFirst_of_mem_seq (es : List Expr)
    (h : name ∈ Expr.leftCallsOfSeq (nullableRules rules) es) :
    CallsFirst rules (.seq es) name := by
  cases es with
  | nil => cases h
  | cons e rest =>
    rcases List.mem_append.mp h with he | hrest
    · exact @CallsFirst.seq _ [] _ _ _ nofun (callsFirst_of_mem_leftCalls e he)
    · by_cases hnull : e.isNullable (nullableRules rules) = true
      · rw [if_pos hnull] at hrest
        exact .cons ((isNullable_nullableRules e).mp hnull) (callsFirst_of_mem_seq rest hrest)
      · rw [if_neg hnull] at hrest
        cases hrest

theorem callsFirst_of_mem_any (es : List Expr)
    (h : name ∈ Expr.leftCallsOfAny (nullableRules rules) es) :
    ∃ e ∈ es, CallsFirst rules e name := by
  cases es with
  | nil => cases h
  | cons e rest =>
    rcases List.mem_append.mp h with he | hrest
    · exact ⟨e, List.mem_cons_self, callsFirst_of_mem_leftCalls e he⟩
    · obtain ⟨x, hx, hcalls⟩ := callsFirst_of_mem_any rest hrest
      exact ⟨x, List.mem_cons_of_mem _ hx, hcalls⟩

end

/-- What an item calls first a sequence does, if nothing needs to be read before. -/
theorem mem_leftCallsOfSeq {nullable before after : List _}
    (hbefore : ∀ x ∈ before, Expr.isNullable nullable x = true) (h : name ∈ e.leftCalls nullable) :
    name ∈ Expr.leftCallsOfSeq nullable (before ++ e :: after) := by
  induction before with
  | nil => exact List.mem_append_left _ h
  | cons x before ih =>
    obtain ⟨hx, hrest⟩ := List.forall_mem_cons.mp hbefore
    rw [List.cons_append, Expr.leftCallsOfSeq, if_pos hx]
    exact List.mem_append_right _ (ih hrest)

theorem mem_leftCalls_iff :
    name ∈ e.leftCalls (nullableRules rules) ↔ CallsFirst rules e name := by
  constructor
  · exact callsFirst_of_mem_leftCalls e
  · intro h
    induction h with
    | rule => exact List.mem_cons_self
    | seq hbefore _ ih =>
      apply mem_leftCallsOfSeq _ ih
      intro x hx
      exact (isNullable_nullableRules x).mpr (hbefore x hx)
    | choice hmem _ ih =>
      rw [Expr.leftCalls, Expr.leftCallsOfAny_eq, List.mem_flatMap]
      exact ⟨_, hmem, ih⟩
    | _ _ ih => exact ih

/-- Where names are distinct, the callees that the search goes to are the left calls. -/
theorem mem_leftCallees_iff (hnodup : (rules.map Rule.name).Nodup) {caller callee : String} :
    callee ∈ leftCallees rules (nullableRules rules) caller ↔ LeftCalls rules caller callee := by
  unfold leftCallees
  split
  · rename_i hnone
    constructor
    · exact nofun
    · rintro ⟨⟨r, hr, hname, _⟩, _⟩
      have hother := List.find?_eq_none.mp hnone r hr
      exact absurd hname (by simpa using hother)
  · rename_i r hfind
    have hr := List.mem_of_find?_eq_some hfind
    have hname : r.name = caller := by simpa using List.find?_some hfind
    rw [List.mem_filter, mem_leftCalls_iff]
    constructor
    · rintro ⟨hcalls, hdefined⟩
      exact ⟨⟨r, hr, hname, hcalls⟩, by simpa using hdefined⟩
    · rintro ⟨⟨r', hr', hname', hcalls⟩, hdefined⟩
      obtain rfl : r' = r := List.inj_on_of_nodup_map hnodup hr' hr (hname'.trans hname.symm)
      exact ⟨hcalls, by simpa using hdefined⟩

end First

section Search

variable {R : String → String → Prop} {callees : String → List String}

/-- The names are distinct, each is related to the next one, and the last one to the
first. -/
def IsCycle (R : String → String → Prop) (names : List String) : Prop :=
  names.Nodup ∧ ∃ first rest, names = first :: rest ∧ List.IsChain R (first :: rest ++ [first])

theorem IsCycle.transGen {names : List String} (h : IsCycle R names) :
    ∃ a, Relation.TransGen R a a := by
  obtain ⟨_, first, rest, _, hchain⟩ := h
  refine ⟨first, ?_⟩
  have hway : List.IsChain (Relation.TransGen R) (first :: (rest ++ [first])) :=
    hchain.imp fun _ _ hstep => .single hstep
  exact hway.rel_cons (List.mem_append_right _ List.mem_cons_self)

/-- Where all chains of calls come to an end, none leads back. -/
theorem not_transGen_of_acc {a : String} (h : Acc (fun b a => b ∈ callees a) a) :
    ¬Relation.TransGen (fun a b => b ∈ callees a) a a := by
  induction h with
  | intro a _ ih =>
    intro hloop
    obtain ⟨b, hcall, hback⟩ := Relation.TransGen.head'_iff.mp hloop
    exact ih b hcall (.tail' hback hcall)

theorem foldlM_error {α β : Type} {f : α → String → Except β α} {names : List String} {done : α}
    {defect : β} (h : names.foldlM f done = .error defect) :
    ∃ name ∈ names, ∃ found, f found name = .error defect := by
  induction names generalizing done with
  | nil => cases h
  | cons name names ih =>
    rw [List.foldlM_cons] at h
    cases hfirst : f done name with
    | error defect' =>
      rw [hfirst] at h
      obtain rfl := Except.error.inj h
      exact ⟨name, List.mem_cons_self, done, hfirst⟩
    | ok found =>
      rw [hfirst] at h
      obtain ⟨name', hname', found', herror⟩ := ih h
      exact ⟨name', List.mem_cons_of_mem _ hname', found', herror⟩

/-- A path that comes to a name again closes a cycle. -/
theorem isCycle_of_path {path : List String} {name : String} (hnodup : path.Nodup)
    (hchain : List.IsChain (fun b a => R a b) (name :: path)) (hname : name ∈ path) :
    IsCycle R (name :: (path.takeWhile (· != name)).reverse) := by
  obtain ⟨recent, older, rfl, hnew⟩ := List.eq_append_cons_of_mem hname
  have htake : (recent ++ name :: older).takeWhile (· != name) = recent := by
    rw [List.takeWhile_append_of_pos, List.takeWhile_cons_of_neg (by simp), List.append_nil]
    intro x hx
    simpa using ne_of_mem_of_not_mem hx hnew
  rw [htake]
  constructor
  · apply List.nodup_cons.mpr
    exact ⟨by simpa using hnew, List.nodup_reverse.mpr (List.Nodup.of_append_left hnodup)⟩
  · refine ⟨name, recent.reverse, rfl, ?_⟩
    have hround : List.IsChain (fun b a => R a b) (name :: recent ++ [name]) := by
      exact hchain.prefix ⟨older, by simp⟩
    simpa using List.isChain_reverse.mpr hround

/-- A search that fails has found a cycle, if its path is one of calls. -/
theorem searchCycle_error {depth : Nat} {path done cycle : List String} {name : String}
    (hnodup : path.Nodup) (hchain : List.IsChain (fun b a => b ∈ callees a) (name :: path))
    (h : searchCycle callees depth path done name = .error cycle) :
    IsCycle (fun a b => b ∈ callees a) cycle := by
  induction depth generalizing path done name with
  | zero => cases h
  | succ depth ih =>
    rw [searchCycle] at h
    by_cases hold : path.contains name = true
    · rw [if_pos hold] at h
      obtain rfl := Except.error.inj h
      exact isCycle_of_path hnodup hchain (by simpa using hold)
    · rw [if_neg hold] at h
      by_cases hdone : done.contains name = true
      · rw [if_pos hdone] at h
        cases h
      · rw [if_neg hdone] at h
        cases hfold : (callees name).foldlM (searchCycle callees depth (name :: path)) done with
        | ok found =>
          rw [hfold] at h
          cases h
        | error cycle' =>
          rw [hfold] at h
          obtain rfl := Except.error.inj h
          obtain ⟨callee, hcallee, found, herror⟩ := foldlM_error hfold
          have hnodup' : (name :: path).Nodup := List.nodup_cons.mpr ⟨by simpa using hold, hnodup⟩
          exact ih hnodup' (hchain.cons_cons hcallee) herror

/-- What the search reports is a cycle of callees. -/
theorem isCycle_of_leftCycle? {rules : List Rule} {cycle : List String}
    (h : leftCycle? rules = some cycle) :
    IsCycle (fun a b => b ∈ leftCallees rules (nullableRules rules) a) cycle := by
  unfold leftCycle? at h
  simp only at h
  split at h
  · cases h
  · rename_i cycle' hsearch
    obtain rfl := Option.some.inj h
    rw [← List.foldlM_map] at hsearch
    obtain ⟨name, _, done, herror⟩ := foldlM_error hsearch
    exact searchCycle_error .nil (.singleton name) herror

end Search

/-- The check finds no cycle exactly if no rule can come back to itself through left
calls; what it reports is a cycle of them. -/
theorem leftCycle?_exact {rules : List Rule} (hnodup : (rules.map Rule.name).Nodup) :
    (leftCycle? rules = none ↔ ∀ a, ¬Relation.TransGen (LeftCalls rules) a a) ∧
      (∀ cycle, leftCycle? rules = some cycle → IsCycle (LeftCalls rules) cycle) ∧
      ∀ cycle, checkProgress rules = .error (.leftCycle cycle) ↔ leftCycle? rules = some cycle := by
  have hcalls : LeftCalls rules = fun a b => b ∈ leftCallees rules (nullableRules rules) a := by
    funext a b
    exact propext (mem_leftCallees_iff hnodup).symm
  rw [hcalls]
  refine ⟨⟨?_, ?_⟩, ?_, ?_⟩
  · intro hnone a hloop
    have hends := allEnd_of_leftCycle?_eq_none hnone
    -- a name that calls something is that of a rule
    obtain ⟨b, hcall, _⟩ := Relation.TransGen.head'_iff.mp hloop
    obtain ⟨⟨r, hr, rfl, _⟩, _⟩ := (mem_leftCallees_iff hnodup).mp hcall
    exact not_transGen_of_acc (hends r.name (List.mem_map_of_mem hr)) hloop
  · intro hacyclic
    cases hcycle : leftCycle? rules with
    | none => rfl
    | some cycle =>
      obtain ⟨a, hloop⟩ := (isCycle_of_leftCycle? hcycle).transGen
      exact absurd hloop (hacyclic a)
  · intro cycle hcycle
    exact isCycle_of_leftCycle? hcycle
  · intro cycle
    unfold checkProgress
    split <;> simp_all

/-- Two rules that call each other, one of them behind an option. -/
def entwinedRules : List Rule :=
  [⟨"a", .seq [.optional (.literal "-"), .rule "b" 0], false⟩,
    ⟨"b", .choice [.rule "a" 0, .token "ID"], false⟩]

theorem leftCycle?_entwinedRules :
    (entwinedRules.map Rule.name).Nodup ∧ IsCycle (LeftCalls entwinedRules) ["a", "b"] ∧
      checkProgress entwinedRules = .error (.leftCycle ["a", "b"]) := by
  have hnodup : (entwinedRules.map Rule.name).Nodup := by decide
  obtain ⟨_, hcycle, hcheck⟩ := leftCycle?_exact hnodup
  have hfound : leftCycle? entwinedRules = some ["a", "b"] := by decide +kernel
  exact ⟨hnodup, hcycle _ hfound, (hcheck _).mpr hfound⟩

end AdaptiveLL
