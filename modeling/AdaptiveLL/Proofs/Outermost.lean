/-
The end of the input in a network.

A rule is fit to be the outermost one if no rule calls it and if the end of the
input stands at most at the end of its body.  Then the end of the input is read
nowhere else than behind all the rest of that body, and what is behind it can only
end the parse.
-/
import AdaptiveLL.Proofs.Derivation

namespace AdaptiveLL

namespace Expr

/-- Whether an expression is the end of the input, under either of its spellings. -/
def isEnd : Expr → Bool
  | .eof => true
  | .token name => name == "EOF"
  | _ => false

theorem isLeaf_of_isEnd {e : Expr} (h : e.isEnd = true) : e.isLeaf = true := by
  cases e with
  | token | eof => rfl
  | _ => cases h

/-- The end of the input stands nowhere in the expression. -/
def EndFree (e : Expr) : Prop :=
  ∀ x ∈ e.subterms, x.isEnd = false

/-- The end of the input is the last element of the expression and stands nowhere
else. -/
inductive EndsLast : Expr → Prop where
  | token {e} (he : e.isEnd = true) : EndsLast e
  | only {e} (he : EndsLast e) : EndsLast (.seq [e])
  | chain {e next rest} (he : e.EndFree) (hrest : EndsLast (.seq (next :: rest))) :
      EndsLast (.seq (e :: next :: rest))
  | label {name e} (he : EndsLast e) : EndsLast (.label name e)
  | rightAssoc {e} (he : EndsLast e) : EndsLast (.rightAssoc e)

/-- The end of the input is the last element of the expression. -/
inductive Ends : Expr → Prop where
  | token {e} (he : e.isEnd = true) : Ends e
  | only {e} (he : Ends e) : Ends (.seq [e])
  | chain {e next rest} (hrest : Ends (.seq (next :: rest))) : Ends (.seq (e :: next :: rest))
  | label {name e} (he : Ends e) : Ends (.label name e)
  | rightAssoc {e} (he : Ends e) : Ends (.rightAssoc e)

theorem EndsLast.ends {e : Expr} (h : e.EndsLast) : e.Ends := by
  induction h with
  | token he => exact .token he
  | only _ ih => exact .only ih
  | chain _ _ ih => exact .chain ih
  | label _ ih => exact .label ih
  | rightAssoc _ ih => exact .rightAssoc ih

theorem Ends.seq (items : List Expr) {e : Expr} (he : e.isEnd = true) :
    (Expr.seq (items ++ [e])).Ends := by
  induction items with
  | nil => exact .only (.token he)
  | cons item items ih =>
    obtain ⟨next, rest, hcons⟩ := List.exists_cons_of_ne_nil (l := items ++ [e]) (by simp)
    rw [hcons] at ih
    rw [List.cons_append, hcons]
    exact .chain ih

theorem endFree_cons {e : Expr} {es : List Expr} :
    (.seq (e :: es) : Expr).EndFree ↔ e.EndFree ∧ (.seq es : Expr).EndFree := by
  simp only [EndFree, subterms, subtermsOfAll, List.forall_mem_cons, List.forall_mem_append]
  constructor
  · rintro ⟨_, he, hes⟩
    exact ⟨he, rfl, hes⟩
  · rintro ⟨he, _, hes⟩
    exact ⟨rfl, he, hes⟩

mutual

theorem subterms_trans : ∀ (e : Expr) {x : Expr}, x ∈ e.subterms → x.subterms ⊆ e.subterms
  | .literal _, x, hx | .token _, x, hx | .rule _ _, x, hx | .wildcard, x, hx | .eof, x, hx
  | .empty, x, hx | .action _, x, hx | .predicate _, x, hx | .precedence _, x, hx => by
    obtain rfl := List.mem_singleton.mp hx
    exact List.Subset.refl _
  | .seq items, x, hx => by
    rw [subterms] at hx ⊢
    rcases List.mem_cons.mp hx with rfl | hx
    · rw [subterms]
      exact List.Subset.refl _
    · exact List.Subset.trans (subtermsOfAll_trans items hx) (List.subset_cons_self _ _)
  | .choice alternatives, x, hx => by
    rw [subterms] at hx ⊢
    rcases List.mem_cons.mp hx with rfl | hx
    · rw [subterms]
      exact List.Subset.refl _
    · exact List.Subset.trans (subtermsOfAll_trans alternatives hx) (List.subset_cons_self _ _)
  | .optional body, x, hx | .star body, x, hx | .plus body, x, hx | .label _ body, x, hx
  | .rightAssoc body, x, hx | .operatorLoop body, x, hx => by
    rw [subterms] at hx ⊢
    rcases List.mem_cons.mp hx with rfl | hx
    · rw [subterms]
      exact List.Subset.refl _
    · exact List.Subset.trans (subterms_trans body hx) (List.subset_cons_self _ _)

theorem subtermsOfAll_trans : ∀ (es : List Expr) {x : Expr}, x ∈ subtermsOfAll es →
    x.subterms ⊆ subtermsOfAll es
  | [], x, hx => by cases hx
  | e :: rest, x, hx => by
    rw [subtermsOfAll] at hx ⊢
    rcases List.mem_append.mp hx with hx | hx
    · exact List.Subset.trans (subterms_trans e hx) (List.subset_append_left _ _)
    · exact List.Subset.trans (subtermsOfAll_trans rest hx) (List.subset_append_right _ _)

end

theorem EndFree.of_mem {e x : Expr} (h : e.EndFree) (hx : x ∈ e.subterms) : x.EndFree :=
  fun _ hy => h _ (subterms_trans e hx hy)

theorem EndsLast.not_endFree {e : Expr} (h : e.EndsLast) : ¬e.EndFree := by
  induction h with
  | token he => exact fun hfree =>
    Bool.false_ne_true ((hfree _ (self_mem_subterms _)).symm.trans he)
  | only _ ih => exact fun hfree => ih (endFree_cons.mp hfree).1
  | chain _ _ ih => exact fun hfree => ih (endFree_cons.mp hfree).2
  | @label name e _ ih =>
    exact fun hfree => ih (hfree.of_mem (List.mem_cons_of_mem _ e.self_mem_subterms))
  | @rightAssoc e _ ih =>
    exact fun hfree => ih (hfree.of_mem (List.mem_cons_of_mem _ e.self_mem_subterms))

end Expr

/-- A rule that a parse can begin with: no rule calls it, and the end of the input
stands at most at the end of its body. -/
structure Outermost (rules : List Rule) (start : Rule) : Prop where
  mem : start ∈ rules
  uncalled : ∀ r ∈ rules, ∀ level, .rule start.name level ∉ r.body.subterms
  inner : ∀ r ∈ rules, r.name ≠ start.name → r.body.EndFree
  body : start.body.EndFree ∨ start.body.EndsLast

def Uncalled (rules : List Rule) (r : Rule) : Prop :=
  ∀ r' ∈ rules, ∀ level, .rule r.name level ∉ r'.body.subterms

/-- The end of the input stands at most at the end of rules that no rule calls. -/
def EndsOutermost (rules : List Rule) : Prop :=
  ∀ r ∈ rules, r.body.EndFree ∨ r.body.EndsLast ∧ Uncalled rules r

theorem Outermost.endsOutermost {rules : List Rule} {r₀ : Rule} (hout : Outermost rules r₀)
    (hnodup : (rules.map Rule.name).Nodup) : EndsOutermost rules := by
  intro r hr
  by_cases hname : r.name = r₀.name
  · obtain rfl : r = r₀ := List.inj_on_of_nodup_map hnodup hr hout.mem hname
    exact hout.body.imp_right fun hends => ⟨hends, hout.uncalled⟩
  · exact .inl (hout.inner r hr hname)

section Tokens

variable {v : Vocabulary} {e : Expr} {t : TokenType}

theorem TokenFor.isEnd (h : TokenFor v e t) (hspelled : v.SpellsTokens) :
    t = .eof ∧ e.isEnd = true ∨ TokenType.first ≤ t ∧ e.isEnd = false := by
  cases h with
  | literal ht => exact .inr ⟨hspelled.first_le ht, rfl⟩
  | @token name _ ht =>
    unfold Vocabulary.typeOfName? at ht
    split at ht
    · rename_i hname
      exact .inl ⟨(Option.some.inj ht).symm, by simp [Expr.isEnd, hname]⟩
    · rename_i hname
      exact .inr ⟨hspelled.first_le_name ht, by simp [Expr.isEnd, hname]⟩
  | eof => exact .inl ⟨rfl, rfl⟩

theorem TokenFor.eq_eof (h : TokenFor v e t) (hspelled : v.SpellsTokens) (he : e.isEnd = true) :
    t = .eof := by
  rcases h.isEnd hspelled with ⟨ht, _⟩ | ⟨_, hfree⟩
  · exact ht
  · simp [he] at hfree

theorem TokenFor.not_eof (h : TokenFor v e t) (hspelled : v.SpellsTokens) (he : e.isEnd = false) :
    t ≠ .eof := by
  rcases h.isEnd hspelled with ⟨_, hend⟩ | ⟨hfirst, _⟩
  · simp [he] at hend
  · rintro rfl
    exact absurd hfirst (by decide)

end Tokens

section Forms

variable {g : Graph} {v : Vocabulary} {rule : RuleIndex} {exprs : List Expr} {Near : Nat → Prop}
  {role : StateRole} {ts : List Transition} {t : Transition}

/-- What is made of expressions without the end of the input does not accept it. -/
theorem Form.accepts_eof {e : Expr} {maxType : TokenType}
    (h : Form g v rule e.subterms Near role ts) (hspelled : v.SpellsTokens) (hfree : e.EndFree)
    (ht : t ∈ ts) : t.accepts maxType .eof = false := by
  cases h with
  | edge hedge he _ =>
    obtain rfl := List.mem_singleton.mp ht
    cases hedge with
    | token htoken => simpa [Transition.accepts] using htoken.not_eof hspelled (hfree _ he)
    | @tokens alternatives types _ htypes =>
      rw [Transition.accepts, Bool.eq_false_iff, ne_eq, TypeSet.contains_ofList]
      intro hmem
      obtain ⟨e', he', htoken⟩ := TokenFor.exists_expr htypes hmem
      refine htoken.not_eof hspelled (hfree e' ?_) rfl
      exact Expr.subterms_trans e he (Expr.subterms_choice_subset he' e'.self_mem_subterms)
    | wildcard => rfl
    | _ => rfl
  | hop =>
    obtain rfl := List.mem_singleton.mp ht
    rfl
  | block =>
    obtain ⟨_, _, rfl⟩ := List.mem_map.mp ht
    rfl
  | loop => rcases List.mem_pair.mp ht with rfl | rfl <;> rfl

end Forms

section Body

variable {g : Graph} {v : Vocabulary} {rule : RuleIndex} {e : Expr} {entry exit lo hi : Nat}

/-- A body that ends with the end of the input has more states than its exit. -/
theorem Laid.entry_ne_exit (hlaid : Laid g v rule e entry exit lo hi) (he : e.Ends) :
    entry ≠ exit := by
  induction he generalizing entry exit lo hi with
  | token he =>
    obtain ⟨⟨_, rfl, _⟩, _⟩ := hlaid.leaf_inv (Expr.isLeaf_of_isEnd he)
    exact Nat.ne_of_lt (Nat.lt_succ_self entry)
  | only _ ih => exact ih hlaid.only_inv
  | chain _ ih =>
    obtain ⟨mid, mid', cut, hfirst, hrest, _⟩ := hlaid.chain_inv
    have hmem := hfirst.mem
    have hmem' := hrest.mem
    omega
  | label _ ih => exact ih hlaid.label_inv
  | rightAssoc _ ih => exact ih hlaid.rightAssoc_inv

/-- The end of the input is one transition. -/
theorem Laid.end_inv (hlaid : Laid g v rule e entry exit lo hi) (hspelled : v.SpellsTokens)
    (he : e.isEnd = true) {s : Nat} (hlo : lo ≤ s) (hhi : s < hi) (hexit : s ≠ exit)
    {shape : Shape} (hshape : g.shape? s = some shape) {t : Transition}
    (ht : t ∈ shape.transitions) : t = .atom exit .eof := by
  obtain ⟨⟨rfl, rfl, rfl⟩, t', hedge, hentry⟩ := hlaid.leaf_inv (Expr.isLeaf_of_isEnd he)
  obtain rfl : s = lo := by omega
  obtain rfl := Option.some.inj (hshape.symm.trans hentry)
  obtain rfl := List.mem_singleton.mp ht
  cases hedge with
  | token htoken => rw [htoken.eq_eof hspelled he]
  | _ => cases he

/-- Of the first part of a sequence no transition comes to the exit of the sequence,
and if the end of the input stands nowhere in it, none reads that. -/
theorem Laid.first_inv {mid mid' cut : Nat} {e' : Expr}
    (hfirst : Laid g v rule e entry mid lo cut) (hrest : Laid g v rule e' mid' exit cut hi)
    (hmid : g.LeadsTo rule mid mid') (hspelled : v.SpellsTokens) {s : Nat} (hlo : lo ≤ s)
    (hcut : s < cut) {shape : Shape} (hshape : g.shape? s = some shape) {t : Transition}
    (ht : t ∈ shape.transitions) :
    (mid' ≠ exit → t.lands ≠ exit) ∧
      ∀ maxType, e.EndFree → t.accepts maxType .eof = false := by
  have hmem := hrest.mem
  by_cases hlast : s = mid
  · subst hlast
    obtain ⟨role, _, hshape'⟩ := hmid
    obtain rfl := Option.some.inj (hshape.symm.trans hshape')
    obtain rfl := List.mem_singleton.mp ht
    exact ⟨fun hne => hne, fun _ _ => rfl⟩
  · obtain ⟨role, ts, _, hshape', _, hform⟩ := hfirst.forms s hlo hcut hlast
    obtain rfl := Option.some.inj (hshape.symm.trans hshape')
    refine ⟨fun _ hland => ?_, fun _ hfree => hform.accepts_eof hspelled hfree ht⟩
    have hinside : lo ≤ exit ∧ exit < cut := hland ▸ hform.lands ht
    omega

/-- In a body that ends with the end of the input, there is no way to the exit but
by reading it. -/
theorem Laid.ending_of_lands (hlaid : Laid g v rule e entry exit lo hi) (hspelled : v.SpellsTokens)
    (he : e.Ends) {s : Nat} (hlo : lo ≤ s) (hhi : s < hi) (hexit : s ≠ exit)
    {shape : Shape} (hshape : g.shape? s = some shape) {t : Transition}
    (ht : t ∈ shape.transitions) (hland : t.lands = exit) : t = .atom exit .eof := by
  induction he generalizing entry exit lo hi s shape with
  | token he => exact hlaid.end_inv hspelled he hlo hhi hexit hshape ht
  | only _ ih => exact ih hlaid.only_inv hlo hhi hexit hshape ht hland
  | chain hends ih =>
    obtain ⟨mid, mid', cut, hfirst, hrest, hmid⟩ := hlaid.chain_inv
    by_cases hcut : s < cut
    · have hnot := (hfirst.first_inv hrest hmid hspelled hlo hcut hshape ht).1
      exact absurd hland (hnot (hrest.entry_ne_exit hends))
    · exact ih hrest (by omega) hhi hexit hshape ht hland
  | label _ ih => exact ih hlaid.label_inv hlo hhi hexit hshape ht hland
  | rightAssoc _ ih => exact ih hlaid.rightAssoc_inv hlo hhi hexit hshape ht hland

/-- In a body that has the end of the input at its end only, this end is read on the
way to the exit and nowhere else. -/
theorem Laid.ending_of_accepts (hlaid : Laid g v rule e entry exit lo hi)
    (hspelled : v.SpellsTokens) (he : e.EndsLast) {s : Nat} (hlo : lo ≤ s) (hhi : s < hi)
    (hexit : s ≠ exit) {shape : Shape} (hshape : g.shape? s = some shape) {t : Transition}
    (ht : t ∈ shape.transitions) {maxType : TokenType} (hend : t.accepts maxType .eof = true) :
    t = .atom exit .eof := by
  induction he generalizing entry exit lo hi s shape with
  | token he => exact hlaid.end_inv hspelled he hlo hhi hexit hshape ht
  | only _ ih => exact ih hlaid.only_inv hlo hhi hexit hshape ht
  | chain hfree _ ih =>
    obtain ⟨mid, mid', cut, hfirst, hrest, hmid⟩ := hlaid.chain_inv
    by_cases hcut : s < cut
    · have hnot := (hfirst.first_inv hrest hmid hspelled hlo hcut hshape ht).2 maxType hfree
      exact absurd (hnot.symm.trans hend) Bool.false_ne_true
    · exact ih hrest (by omega) hhi hexit hshape ht
  | label _ ih => exact ih hlaid.label_inv hlo hhi hexit hshape ht
  | rightAssoc _ ih => exact ih hlaid.rightAssoc_inv hlo hhi hexit hshape ht

end Body

/-- The rule can be running under the stack, if the outermost rule has this number. -/
inductive Called (g : Graph) (start : RuleIndex) : RuleIndex → CallStack → Prop where
  | outermost : Called g start start []
  | call {caller stack id s target rule follow level p} (hcaller : Called g start caller stack)
      (hs : g.state? id = some s) (hrule : s.rule = caller)
      (ht : .call target rule follow level ∈ s.transitions) :
      Called g start rule (⟨follow, p⟩ :: stack)

/-- Only the outermost rule runs under the empty stack. -/
theorem Called.eq_of_nil {g : Graph} {start rule : RuleIndex} {stack : CallStack}
    (h : Called g start rule stack) (hstack : stack = []) : rule = start := by
  cases h with
  | outermost => rfl
  | call => cases hstack

/-- The spot is in a rule that can be running under the stack. -/
def Placed (g : Graph) (start : RuleIndex) (p : Spot) : Prop :=
  ∃ s, g.state? p.state = some s ∧ Called g start s.rule p.stack

/-- The state stands behind the body of the rule. -/
def Graph.Closing (g : Graph) (rule : RuleIndex) (id : StateId) : Prop :=
  ∃ span, g.rule? rule = some span ∧ (id = span.stop ∨ g.LeadsOn rule id [.epsilon span.stop])

/-- Only the end of the outermost rule is left of the parse. -/
def Past (g : Graph) (start : RuleIndex) (p : Spot) : Prop :=
  p.stack = [] ∧ g.Closing start p.state

namespace Network.Runs

variable {n : Network} {v : Vocabulary} {rules : List Rule} {start : RuleIndex} {r₀ : Rule}
  {p q : Spot}

/-- No transition calls a rule that no rule calls. -/
theorem call_ne_start (hruns : n.Runs v rules) (hstart : rules[start]? = some r₀)
    (huncalled : Uncalled rules r₀) {id : Nat} {s : State} {target rule : Nat} {follow : StateId}
    {level : Int} (hs : n.state? id = some s)
    (ht : .call target rule follow level ∈ s.transitions) :
    rule ≠ start := by
  rintro rfl
  obtain ⟨r, span, x, hr, hlaid, _, hform⟩ := hruns.laid.form_of_mem hs ht
  obtain ⟨_, name, span', he, hindex, hspan, _⟩ := hform.call ht
  obtain ⟨r', x', hr', rfl, _⟩ := hruns.laid.rule_of_name hindex hspan
  obtain rfl := Option.some.inj (hstart.symm.trans hr')
  exact absurd he (huncalled r (List.mem_of_getElem? hr) level)

/-- Such a rule runs under the empty stack only. -/
theorem eq_start_of_called (hruns : n.Runs v rules) (hstart : rules[start]? = some r₀)
    (huncalled : Uncalled rules r₀) {out : RuleIndex} {stack : CallStack}
    (h : Called n.toGraph out start stack) : out = start ∧ stack = [] := by
  cases h with
  | outermost => exact ⟨rfl, rfl⟩
  | call _ hs _ ht => exact absurd rfl (hruns.call_ne_start hstart huncalled hs ht)

theorem placed_pass (hruns : n.Runs v rules) {s : State} {t : Transition} {precedence : Int}
    (hp : Placed n.toGraph start p) (hs : n.state? p.state = some s) (ht : t ∈ s.transitions)
    (hcall : t.call? = none) : Placed n.toGraph start ⟨t.target, precedence, p.stack⟩ := by
  obtain ⟨s', hs', hcalled⟩ := hp
  obtain rfl := Option.some.inj (hs.symm.trans hs')
  obtain ⟨s'', hs'', hrule⟩ := hruns.laid.target_state hs ht hcall
  exact ⟨s'', hs'', hrule ▸ hcalled⟩

theorem placed_call (hruns : n.Runs v rules) {s : State} {target follow : StateId}
    {rule : RuleIndex} {level precedence precedence' : Int} (hp : Placed n.toGraph start p)
    (hs : n.state? p.state = some s) (ht : .call target rule follow level ∈ s.transitions) :
    Placed n.toGraph start ⟨target, precedence, ⟨follow, precedence'⟩ :: p.stack⟩ := by
  obtain ⟨s', hs', hcalled⟩ := hp
  obtain rfl := Option.some.inj (hs.symm.trans hs')
  obtain ⟨s'', hs'', hrule⟩ := hruns.laid.start_state hs ht
  refine ⟨s'', hs'', ?_⟩
  rw [hrule]
  exact .call hcalled hs rfl ht

theorem placed_back (hruns : n.Runs v rules) {frame : Frame} {stack : CallStack}
    (hp : Placed n.toGraph start p) (hstack : p.stack = frame :: stack) :
    Placed n.toGraph start (.behind frame stack) := by
  obtain ⟨s, hs, hcalled⟩ := hp
  rw [hstack] at hcalled
  cases hcalled with
  | call hcaller hs' hrule ht =>
    obtain ⟨s'', hs'', hrule'⟩ := hruns.laid.follow_state hs' ht
    exact ⟨s'', hs'', (hrule'.trans hrule) ▸ hcaller⟩

theorem placed_drift (hruns : n.Runs v rules) (hp : Placed n.toGraph start p)
    (h : Drift n.toGraph p q) : Placed n.toGraph start q := by
  cases h with
  | @pass _ s t hs hrun ht hq =>
    cases t with
    | epsilon | predicate | precedence | action =>
      obtain rfl := Option.some.inj hq
      exact hruns.placed_pass hp hs ht rfl
    | call =>
      obtain rfl := Option.some.inj hq
      exact hruns.placed_call hp hs ht
    | atom | set | wildcard => cases hq
  | back hs hstop hstack => exact hruns.placed_back hp hstack

theorem placed_drifts (hruns : n.Runs v rules) (hp : Placed n.toGraph start p)
    (h : Drifts n.toGraph p q) : Placed n.toGraph start q := by
  induction h with
  | refl => exact hp
  | tail _ hstep ih => exact hruns.placed_drift ih hstep

theorem placed_read (hruns : n.Runs v rules) {s : State} {t : Transition} {a : TokenType}
    (hp : Placed n.toGraph start p) (hs : n.state? p.state = some s) (ht : t ∈ s.transitions)
    (ha : t.accepts n.maxType a = true) :
    Placed n.toGraph start { p with state := t.target } := by
  refine hruns.placed_pass hp hs ht ?_
  cases t with
  | call => cases ha
  | _ => rfl

/-- All states that a placed spot refers to exist. -/
theorem states_of_placed (hruns : n.Runs v rules) (hp : Placed n.toGraph start p) :
    ∀ id ∈ p.state :: p.stack.returnStates, id < n.states.size := by
  obtain ⟨s, hs, hcalled⟩ := hp
  refine List.forall_mem_cons.mpr ⟨Graph.lt_of_state? hs, ?_⟩
  generalize s.rule = rule at hcalled
  generalize p.stack = stack at hcalled
  induction hcalled with
  | outermost => simp [CallStack.returnStates]
  | call _ hs' _ ht ih =>
    obtain ⟨_, hs'', _⟩ := hruns.laid.follow_state hs' ht
    exact List.forall_mem_cons.mpr ⟨Graph.lt_of_state? hs'', ih⟩

end Network.Runs

namespace RuleLaid

variable {g : Graph} {v : Vocabulary} {i : RuleIndex} {r : Rule} {span : RuleSpan} {x : Part}

/-- A state of the body leads on, within the body unless it is the exit. -/
theorem state_of_mem (h : RuleLaid g v i r span x) {id : Nat} (hlo : x.lo ≤ id) (hhi : id < x.hi) :
    ∃ role ts, role ≠ .ruleStop ∧ g.shape? id = some ⟨role, i, ts⟩ ∧
      (id ≠ x.exit → ∀ t ∈ ts, x.lo ≤ t.lands ∧ t.lands < x.hi) := by
  by_cases hexit : id = x.exit
  · subst hexit
    obtain ⟨role, hrole, hshape⟩ := h.leave
    exact ⟨role, _, hrole.1, hshape, fun hne => absurd rfl hne⟩
  · obtain ⟨role, ts, hrole, hshape, _, hform⟩ := h.body.forms id hlo hhi hexit
    exact ⟨role, ts, hrole, hshape, fun _ t ht => hform.lands ht⟩

/-- Of the states of a body only the exit leads to the end of the rule. -/
theorem eq_exit_of_closing (h : RuleLaid g v i r span x) {id : Nat} (hlo : x.lo ≤ id)
    (hhi : id < x.hi) (hclosing : g.Closing i id) : id = x.exit := by
  have hstop : ¬(x.lo ≤ span.stop ∧ span.stop < x.hi) := by
    intro hmem
    obtain ⟨role, ts, hrole, hshape, _⟩ := h.state_of_mem hmem.1 hmem.2
    have heq := Option.some.inj (hshape.symm.trans h.stop_shape)
    exact hrole (Shape.mk.inj heq).1
  obtain ⟨span', hspan, hcases⟩ := hclosing
  obtain rfl := Option.some.inj (h.span_eq.symm.trans hspan)
  by_contra hexit
  rcases hcases with rfl | ⟨role', hrole', hshape'⟩
  · exact hstop ⟨hlo, hhi⟩
  · obtain ⟨role, ts, _, hshape, hlands⟩ := h.state_of_mem hlo hhi
    have heq := (Shape.mk.inj (Option.some.inj (hshape.symm.trans hshape'))).2.2
    exact hstop (hlands hexit (.epsilon span.stop) (by simp [heq]))

theorem closing_exit (h : RuleLaid g v i r span x) : g.Closing i x.exit :=
  ⟨span, h.span_eq, .inr h.leave.leadsOn⟩

theorem closing_stop (h : RuleLaid g v i r span x) : g.Closing i span.stop :=
  ⟨span, h.span_eq, .inl rfl⟩

/-- The start of a rule is not behind its body. -/
theorem not_closing_start (h : RuleLaid g v i r span x) : ¬g.Closing i span.start := by
  rintro ⟨span', hspan, hstop | hleads⟩
  · obtain rfl := Option.some.inj (h.span_eq.symm.trans hspan)
    have hshape := h.start_shape
    rw [hstop, h.stop_shape] at hshape
    cases hshape
  · obtain rfl := Option.some.inj (h.span_eq.symm.trans hspan)
    obtain ⟨role, hrole, hshape⟩ := hleads
    rw [h.start_shape] at hshape
    have hentry : x.entry = span.stop := by
      simp only [Option.some.injEq, Shape.mk.injEq, List.cons.injEq, Transition.epsilon.injEq,
        and_true, true_and] at hshape
      exact hshape.2
    obtain ⟨hlo, hhi⟩ := h.body.mem.1
    obtain ⟨role, ts, hrole, hshape, _⟩ := h.state_of_mem hlo hhi
    rw [hentry, h.stop_shape] at hshape
    cases hshape
    exact hrole rfl

end RuleLaid

namespace Network.Runs

variable {n : Network} {v : Vocabulary} {rules : List Rule} {start : RuleIndex} {r₀ : Rule}
  {p q : Spot}

/-- In front of the end of a rule a transition leads into the body, or on in the
body. -/
theorem transition_of_not_closing (hruns : n.Runs v rules) (hstart : rules[start]? = some r₀)
    {id : Nat} {s : State} {t : Transition} (hs : n.state? id = some s) (hrule : s.rule = start)
    (hid : ¬n.toGraph.Closing start id) (ht : t ∈ s.transitions) :
    ∃ span x, RuleLaid n.toGraph v start r₀ span x ∧ (t = .epsilon x.entry ∨
      x.lo ≤ id ∧ id < x.hi ∧ id ≠ x.exit ∧ x.lo ≤ t.lands ∧ t.lands < x.hi) := by
  have hshape := Graph.shape?_of_state? hs
  obtain ⟨i, r, span, x, hr, hlaid, hcases⟩ := hruns.laid.cover id (Graph.lt_of_state? hs)
  rcases hcases with rfl | rfl | ⟨hlo, hhi⟩
  · have heq := Shape.mk.inj (Option.some.inj (hshape.symm.trans hlaid.start_shape))
    obtain rfl : i = start := heq.2.1.symm.trans hrule
    obtain rfl := Option.some.inj (hstart.symm.trans hr)
    exact ⟨span, x, hlaid, .inl (List.mem_singleton.mp (heq.2.2 ▸ ht))⟩
  · have heq := Shape.mk.inj (Option.some.inj (hshape.symm.trans hlaid.stop_shape))
    obtain rfl : i = start := heq.2.1.symm.trans hrule
    exact absurd hlaid.closing_stop hid
  · obtain ⟨role, ts, _, hshape', hlands⟩ := hlaid.state_of_mem hlo hhi
    have heq := Shape.mk.inj (Option.some.inj (hshape.symm.trans hshape'))
    obtain rfl : i = start := heq.2.1.symm.trans hrule
    obtain rfl := Option.some.inj (hstart.symm.trans hr)
    have hexit : id ≠ x.exit := fun hexit => hid (hexit ▸ hlaid.closing_exit)
    exact ⟨span, x, hlaid, .inr ⟨hlo, hhi, hexit, hlands hexit t (heq.2.2 ▸ ht)⟩⟩

/-- There is no way behind the body of a rule that ends with the end of the input
but by reading it. -/
theorem ending_of_lands (hruns : n.Runs v rules) (hstart : rules[start]? = some r₀)
    (hbody : r₀.body.Ends) {id : Nat} {s : State} {t : Transition}
    (hs : n.state? id = some s) (hrule : s.rule = start) (hid : ¬n.toGraph.Closing start id)
    (ht : t ∈ s.transitions) (hland : n.toGraph.Closing start t.lands) :
    ∃ exit, t = .atom exit .eof := by
  obtain ⟨span, x, hlaid, rfl | ⟨hlo, hhi, hexit, hlands⟩⟩ :=
    hruns.transition_of_not_closing hstart hs hrule hid ht
  · have hmem := hlaid.body.mem
    have hentry := hlaid.eq_exit_of_closing hmem.1.1 hmem.1.2 hland
    exact absurd hentry (hlaid.body.entry_ne_exit hbody)
  · exact ⟨_, hlaid.body.ending_of_lands hruns.spelled hbody hlo hhi hexit
      (Graph.shape?_of_state? hs) ht (hlaid.eq_exit_of_closing hlands.1 hlands.2 hland)⟩

/-- In a rule that has the end of the input at its end only, this end is read on the
way behind the body and nowhere else, and there is no other way there. -/
theorem ending (hruns : n.Runs v rules) (hstart : rules[start]? = some r₀)
    (hbody : r₀.body.EndsLast) {id : Nat} {s : State} {t : Transition}
    (hs : n.state? id = some s) (hrule : s.rule = start) (hid : ¬n.toGraph.Closing start id)
    (ht : t ∈ s.transitions)
    (hend : t.accepts n.maxType .eof = true ∨ n.toGraph.Closing start t.lands) :
    (∃ exit, t = .atom exit .eof) ∧ n.toGraph.Closing start t.target := by
  rcases hend with hend | hland
  · obtain ⟨span, x, hlaid, rfl | ⟨hlo, hhi, hexit, _⟩⟩ :=
      hruns.transition_of_not_closing hstart hs hrule hid ht
    · cases hend
    · obtain rfl := hlaid.body.ending_of_accepts hruns.spelled hbody hlo hhi hexit
        (Graph.shape?_of_state? hs) ht hend
      exact ⟨⟨_, rfl⟩, hlaid.closing_exit⟩
  · obtain ⟨exit, rfl⟩ := hruns.ending_of_lands hstart hbody.ends hs hrule hid ht hland
    exact ⟨⟨exit, rfl⟩, hland⟩

/-- Behind a body there is only the step to the end of the rule. -/
theorem transition_of_closing (hruns : n.Runs v rules) {id : Nat} {s : State} {t : Transition}
    {rule : RuleIndex} (hs : n.state? id = some s) (hrule : s.rule = rule)
    (hid : n.toGraph.Closing rule id) (ht : t ∈ s.transitions) :
    ∃ span, n.rule? rule = some span ∧ t = .epsilon span.stop := by
  obtain ⟨span, hspan, rfl | hleads⟩ := hid
  · obtain ⟨r, span', x, _, hlaid, _, _⟩ := hruns.laid.form_of_mem hs ht
    rw [hrule] at hlaid
    obtain rfl := Option.some.inj (hlaid.span_eq.symm.trans hspan)
    rw [hlaid.stops.transitions hs] at ht
    cases ht
  · obtain ⟨s', hs', _, hts⟩ := hleads.state
    obtain rfl := Option.some.inj (hs.symm.trans hs')
    exact ⟨span, hspan, by simpa [hts] using ht⟩

/-- Only rules that no rule calls read the end of the input. -/
theorem rule_of_accepts_eof (hruns : n.Runs v rules) (hends : EndsOutermost rules) {id : Nat}
    {s : State} {t : Transition} (hs : n.state? id = some s) (ht : t ∈ s.transitions)
    (ha : t.accepts n.maxType .eof = true) :
    ∃ r, rules[s.rule]? = some r ∧ r.body.EndsLast ∧ Uncalled rules r := by
  obtain ⟨r, span, x, hr, hlaid, _, hform⟩ := hruns.laid.form_of_mem hs ht
  refine ⟨r, hr, (hends r (List.mem_of_getElem? hr)).resolve_left fun hfree => ?_⟩
  rw [hform.accepts_eof hruns.spelled hfree ht] at ha
  cases ha

end Network.Runs

/-- Whatever a rule calls, the end of the input is read at most at the end of the
rule itself, and then the rule does not call itself. -/
structure Heads (n : Network) (start : RuleIndex) (r : Rule) : Prop where
  rule_of_accepts : ∀ {id s t stack}, n.state? id = some s → t ∈ s.transitions →
    Called n.toGraph start s.rule stack → t.accepts n.maxType .eof = true →
      s.rule = start ∧ r.body.EndsLast
  stack_eq_nil : r.body.EndsLast → ∀ {stack}, Called n.toGraph start start stack → stack = []

namespace Network.Runs

variable {n : Network} {v : Vocabulary} {rules : List Rule} {start : RuleIndex} {r₀ : Rule}
  {p q : Spot}

/-- If the end of the input stands only at the end of rules that no rule calls,
every rule can head a chain of calls. -/
theorem heads_of_ends (hruns : n.Runs v rules) (hends : EndsOutermost rules) {out : RuleIndex}
    {r : Rule} (hr : rules[out]? = some r) : Heads n out r := by
  refine ⟨fun hs ht hcalled ha => ?_, fun hlast stack hcalled => ?_⟩
  · obtain ⟨r', hr', hlast, huncalled⟩ := hruns.rule_of_accepts_eof hends hs ht ha
    obtain ⟨rfl, _⟩ := hruns.eq_start_of_called hr' huncalled hcalled
    obtain rfl := Option.some.inj (hr'.symm.trans hr)
    exact ⟨rfl, hlast⟩
  · obtain ⟨_, huncalled⟩ := (hends r (List.mem_of_getElem? hr)).resolve_left hlast.not_endFree
    exact (hruns.eq_start_of_called hr huncalled hcalled).2

/-- If some rule is fit to begin a parse, every rule can head a chain of calls. -/
theorem heads (hruns : n.Runs v rules) (hout : Outermost rules r₀) {out : RuleIndex} {r : Rule}
    (hr : rules[out]? = some r) : Heads n out r :=
  hruns.heads_of_ends (hout.endsOutermost hruns.nodup) hr

/-- The end of the outermost rule is past the rest of it. -/
theorem past_of_stop (hruns : n.Runs v rules) (hp : Placed n.toGraph start p)
    (hstop : n.isStop p.state = true) (hstack : p.stack = []) : Past n.toGraph start p := by
  obtain ⟨s, hs, hcalled⟩ := hp
  have hrule := hcalled.eq_of_nil hstack
  rw [Graph.isStop, hs] at hstop
  obtain ⟨r, span, x, hr, hlaid, ⟨hid, _⟩ | ⟨hrun, _⟩⟩ := hruns.laid.state_cases hs
  · exact ⟨hstack, span, hrule ▸ hlaid.span_eq, .inl hid⟩
  · exact absurd hstop (by simp [hrun])

/-- If the outermost rule ends with the end of the input, the parse does not get past it
without reading that end. -/
theorem not_past_pass (hruns : n.Runs v rules) (hstart : rules[start]? = some r₀)
    (hbody : r₀.body.EndsLast) {s : State} {t : Transition}
    {precedence : Int} (hp : Placed n.toGraph start p) (hpast : ¬Past n.toGraph start p)
    (hs : n.state? p.state = some s) (ht : t ∈ s.transitions) (hcall : t.call? = none)
    (ha : t.accepts n.maxType .eof = false) :
    ¬Past n.toGraph start ⟨t.target, precedence, p.stack⟩ := by
  rintro ⟨hstack, hclosing⟩
  obtain ⟨s', hs', hcalled⟩ := hp
  obtain rfl := Option.some.inj (hs.symm.trans hs')
  have hrule := hcalled.eq_of_nil hstack
  obtain ⟨⟨exit, rfl⟩, _⟩ := hruns.ending hstart hbody hs hrule (fun hid => hpast ⟨hstack, hid⟩) ht
    (.inr (by rwa [Transition.lands_of_not_call hcall]))
  simp [Transition.accepts] at ha

theorem not_past_drift (hruns : n.Runs v rules) (hstart : rules[start]? = some r₀)
    (hbody : r₀.body.EndsLast) (hp : Placed n.toGraph start p)
    (hpast : ¬Past n.toGraph start p) (h : Drift n.toGraph p q) : ¬Past n.toGraph start q := by
  cases h with
  | @pass _ s t hs hrun ht hq =>
    cases t with
    | epsilon | predicate | precedence | action =>
      obtain rfl := Option.some.inj hq
      exact hruns.not_past_pass hstart hbody hp hpast hs ht rfl rfl
    | call =>
      obtain rfl := Option.some.inj hq
      exact fun h => absurd h.1 (List.cons_ne_nil _ _)
    | atom | set | wildcard => cases hq
  | @back s frame stack hs hstop hstack =>
    rintro ⟨hnil, hclosing⟩
    obtain ⟨s', hs', hcalled⟩ := hp
    obtain rfl : stack = [] := hnil
    rw [hstack] at hcalled
    cases hcalled with
    | @call caller _ id cs target _ follow level _ hcaller hcs hrule ht =>
      have hcaller' := hcaller.eq_of_nil rfl
      -- The state that called is not behind the body, or it could not call.
      have hid : ¬n.toGraph.Closing start id := fun hid => by
        obtain ⟨_, _, heq⟩ := hruns.transition_of_closing hcs (hrule.trans hcaller') hid ht
        cases heq
      obtain ⟨⟨_, heq⟩, _⟩ := hruns.ending hstart hbody hcs (hrule.trans hcaller') hid ht
        (.inr hclosing)
      cases heq

/-- Reading the end of the input gets past the rest of the outermost rule. -/
theorem past_read (hruns : n.Runs v rules) (hstart : rules[start]? = some r₀)
    (hheads : Heads n start r₀) {s : State} {t : Transition}
    (hp : Placed n.toGraph start p) (hs : n.state? p.state = some s) (ht : t ∈ s.transitions)
    (ha : t.accepts n.maxType .eof = true) :
    Past n.toGraph start { p with state := t.target } := by
  obtain ⟨s', hs', hcalled⟩ := hp
  obtain rfl := Option.some.inj (hs.symm.trans hs')
  obtain ⟨hrule, hbody⟩ := hheads.rule_of_accepts hs ht hcalled ha
  refine ⟨hheads.stack_eq_nil hbody (hrule ▸ hcalled), ?_⟩
  by_cases hid : n.toGraph.Closing start p.state
  · obtain ⟨_, _, rfl⟩ := hruns.transition_of_closing hs hrule hid ht
    cases ha
  · exact (hruns.ending hstart hbody hs hrule hid ht (.inl ha)).2

/-- Reading another token does not get past the rest of a rule that ends with the
end of the input. -/
theorem not_past_read (hruns : n.Runs v rules) (hstart : rules[start]? = some r₀)
    (hheads : Heads n start r₀) (hbody : r₀.body.EndsLast) {s : State} {t : Transition}
    {a : TokenType} (hp : Placed n.toGraph start p) (hpast : ¬Past n.toGraph start p)
    (hs : n.state? p.state = some s) (ht : t ∈ s.transitions)
    (haccepts : t.accepts n.maxType a = true)
    (ha : a ≠ .eof) : ¬Past n.toGraph start { p with state := t.target } := by
  have hcall : t.call? = none := by
    cases t with
    | call => cases haccepts
    | _ => rfl
  have hnot : t.accepts n.maxType .eof = false := by
    by_contra hend
    obtain ⟨s', hs', hcalled⟩ := hp
    obtain rfl := Option.some.inj (hs.symm.trans hs')
    obtain ⟨hrule, _⟩ := hheads.rule_of_accepts hs ht hcalled (by simpa using hend)
    have hid : ¬n.toGraph.Closing start p.state := fun hid => by
      obtain ⟨_, _, rfl⟩ := hruns.transition_of_closing hs hrule hid ht
      cases haccepts
    obtain ⟨⟨_, rfl⟩, _⟩ := hruns.ending hstart hbody hs hrule hid ht (.inl (by simpa using hend))
    exact ha (eq_of_beq haccepts).symm
  exact hruns.not_past_pass hstart hbody hp hpast hs ht hcall hnot

/-- Past the rest of the outermost rule there is only the step to its end. -/
theorem past_cases (hruns : n.Runs v rules) (hstart : rules[start]? = some r₀)
    (hp : Past n.toGraph start p) :
    n.toGraph.Stops start p.state ∨ ∃ stop, n.toGraph.Stops start stop ∧
      n.toGraph.Closing start stop ∧ n.toGraph.LeadsOn start p.state [.epsilon stop] := by
  obtain ⟨_, span, hspan, hcases⟩ := hp
  obtain ⟨span', x, hlaid⟩ := hruns.laid.rule start r₀ hstart
  obtain rfl := Option.some.inj (hspan.symm.trans hlaid.span_eq)
  rcases hcases with hstop | hleads
  · exact .inl (hstop ▸ hlaid.stops)
  · exact .inr ⟨_, hlaid.stops, hlaid.closing_stop, hleads⟩

theorem past_drift (hruns : n.Runs v rules) (hstart : rules[start]? = some r₀)
    (hp : Past n.toGraph start p) (h : Drift n.toGraph p q) : Past n.toGraph start q := by
  rcases hruns.past_cases hstart hp with hstops | ⟨stop, _, hclosing, hleads⟩
  · obtain ⟨frame, stack, hstack, _⟩ := Drift.of_stops hstops h
    exact absurd (hp.1.symm.trans hstack) (List.cons_ne_nil _ _).symm
  · obtain ⟨t, ht, hq⟩ := Drift.of_leadsOn hleads h
    obtain rfl := List.mem_singleton.mp ht
    obtain rfl := Option.some.inj hq
    exact ⟨hp.1, hclosing⟩

end Network.Runs

end AdaptiveLL
