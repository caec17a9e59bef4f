/-
The sentences of a grammar.

An expression derives words under the precedence of the invocation that it stands in.
A network can read from the entry of an expression to its exit exactly the words that
the expression derives.
-/
import AdaptiveLL.Proofs.Layout.Inversion
import AdaptiveLL.Proofs.Network
import AdaptiveLL.TypeSet.Membership

namespace AdaptiveLL

/-- Under an invocation of some precedence the expression derives a word. -/
inductive Derives (rules : List Rule) (v : Vocabulary) : Int → Expr → List TokenType → Prop where
  | token {p e t} (ht : TokenFor v e t) : Derives rules v p e [t]
  | wildcard {p t} (hlo : TokenType.first ≤ t) (hhi : t ≤ v.maxType) :
      Derives rules v p .wildcard [t]
  | empty {p} : Derives rules v p .empty []
  | action {p text} : Derives rules v p (.action text) []
  | predicate {p text} : Derives rules v p (.predicate text) []
  | precedence {p level} (hlevel : p ≤ level) : Derives rules v p (.precedence level) []
  /-- A call opens an invocation with the precedence that it states. -/
  | call {p r level w} (hr : r ∈ rules) (hbody : Derives rules v level r.body w) :
      Derives rules v p (.rule r.name level) w
  | nil {p} : Derives rules v p (.seq []) []
  | cons {p e es u w} (hfirst : Derives rules v p e u) (hrest : Derives rules v p (.seq es) w) :
      Derives rules v p (.seq (e :: es)) (u ++ w)
  | choice {p e es w} (he : e ∈ es) (halt : Derives rules v p e w) :
    Derives rules v p (.choice es) w
  | absent {p e} : Derives rules v p (.optional e) []
  | present {p e w} (hbody : Derives rules v p e w) : Derives rules v p (.optional e) w
  | starEnd {p e} : Derives rules v p (.star e) []
  | starMore {p e u w} (hbody : Derives rules v p e u) (hrest : Derives rules v p (.star e) w) :
      Derives rules v p (.star e) (u ++ w)
  | operatorEnd {p e} : Derives rules v p (.operatorLoop e) []
  | operatorMore {p e u w} (hbody : Derives rules v p e u)
      (hrest : Derives rules v p (.operatorLoop e) w) :
      Derives rules v p (.operatorLoop e) (u ++ w)
  | plusEnd {p e w} (hbody : Derives rules v p e w) : Derives rules v p (.plus e) w
  | plusMore {p e u w} (hbody : Derives rules v p e u) (hrest : Derives rules v p (.plus e) w) :
      Derives rules v p (.plus e) (u ++ w)
  | label {p name e w} (hbody : Derives rules v p e w) : Derives rules v p (.label name e) w
  | rightAssoc {p e w} (hbody : Derives rules v p e w) : Derives rules v p (.rightAssoc e) w

/-- An alternative that is lent derives what the whole does. -/
theorem Derives.of_lent {rules : List Rule} {v : Vocabulary} {p : Int} {body e : Expr}
    {w : List TokenType} (he : e ∈ body.lent) (h : Derives rules v p e w) :
    Derives rules v p body w := by
  rcases body.lent_cases with hself | ⟨es, rfl, hes⟩
  · obtain rfl : e = body := by simpa [hself] using he
    exact h
  · exact .choice (hes ▸ he) h

/-- A call derives what the body of the called rule derives. -/
theorem Derives.of_call {rules : List Rule} {v : Vocabulary} {p level : Int} {r : Rule}
    {w : List TokenType} (hnodup : (rules.map Rule.name).Nodup) (hr : r ∈ rules)
    (h : Derives rules v p (.rule r.name level) w) : Derives rules v level r.body w := by
  generalize hcall : Expr.rule r.name level = x at h
  cases h with
  | call hmem hbody =>
    obtain ⟨hname, rfl⟩ := Expr.rule.inj hcall
    obtain rfl := List.inj_on_of_nodup_map hnodup hr hmem hname
    exact hbody
  | token ht =>
    subst hcall
    cases ht
  | _ => cases hcall

namespace TokenFor

variable {v : Vocabulary} {es : List Expr} {ts : List TokenType}

theorem exists_expr (h : List.Forall₂ (TokenFor v) es ts) {t : TokenType} (ht : t ∈ ts) :
    ∃ e ∈ es, TokenFor v e t := by
  induction h with
  | nil => cases ht
  | cons hfirst _ ih =>
    rcases List.mem_cons.mp ht with rfl | ht
    · exact ⟨_, List.mem_cons_self, hfirst⟩
    · obtain ⟨e, he, hfor⟩ := ih ht
      exact ⟨e, List.mem_cons_of_mem _ he, hfor⟩

theorem exists_type (h : List.Forall₂ (TokenFor v) es ts) {e : Expr} (he : e ∈ es) :
    ∃ t ∈ ts, TokenFor v e t := by
  induction h with
  | nil => cases he
  | cons hfirst _ ih =>
    rcases List.mem_cons.mp he with rfl | he
    · exact ⟨_, List.mem_cons_self, hfirst⟩
    · obtain ⟨t, ht, hfor⟩ := ih he
      exact ⟨t, List.mem_cons_of_mem _ ht, hfor⟩

theorem unique {e : Expr} {t t' : TokenType} (h : TokenFor v e t) (h' : TokenFor v e t') :
    t = t' := by
  cases h with
  | literal ht =>
    cases h' with
    | literal ht' => exact Option.some.inj (ht.symm.trans ht')
  | token ht =>
    cases h' with
    | token ht' => exact Option.some.inj (ht.symm.trans ht')
  | eof =>
    cases h'
    rfl

end TokenFor

section Steps

variable {g : Graph} {rule : RuleIndex} {m : Nat} {p : Spot} {w : List TokenType}

/-- How a word is completed from a state that leads on. -/
theorem CompletesIn.of_leadsOn {ts : List Transition} (h : CompletesIn g m p w)
    (hp : g.LeadsOn rule p.state ts) : ∃ m', m = m' + 1 ∧
      ((∃ t ∈ ts, ∃ q, p.admits t = true ∧ p.along t = some q ∧ CompletesIn g m' q w) ∨
        ∃ t ∈ ts, ∃ a w', w = a :: w' ∧ t.accepts g.maxType a = true ∧
          CompletesIn g m' { p with state := t.target } w') := by
  obtain ⟨s, hs, hrun, rfl⟩ := hp.state
  cases h with
  | done hstop _ =>
    rw [Graph.isStop, hs] at hstop
    exact absurd hstop (by simp [hrun])
  | silent hstep hrest =>
    refine ⟨_, rfl, .inl ?_⟩
    cases hstep with
    | pass hs' _ ht hpass hq =>
      obtain rfl : s = _ := Option.some.inj (hs.symm.trans hs')
      exact ⟨_, ht, _, hpass, hq, hrest⟩
    | back hs' hstop _ =>
      obtain rfl : s = _ := Option.some.inj (hs.symm.trans hs')
      exact absurd hstop (by simp [hrun])
  | read hs' _ ht ha hrest =>
    obtain rfl : s = _ := Option.some.inj (hs.symm.trans hs')
    exact ⟨_, rfl, .inr ⟨_, ht, _, _, rfl, ha, hrest⟩⟩

/-- Only one way leads on over empty transitions to known states. -/
theorem CompletesIn.of_hops (targets : List Nat) (h : CompletesIn g m p w)
    (hp : g.LeadsOn rule p.state (targets.map .epsilon)) :
    ∃ m', m = m' + 1 ∧ ∃ target ∈ targets, CompletesIn g m' { p with state := target } w := by
  obtain ⟨m', rfl, ⟨t, ht, q, _, hq, hrest⟩ | ⟨t, ht, a, w', _, ha, _⟩⟩ := h.of_leadsOn hp
  · obtain ⟨target, htarget, rfl⟩ := List.mem_map.mp ht
    obtain rfl := Option.some.inj hq
    exact ⟨m', rfl, target, htarget, hrest⟩
  · obtain ⟨target, _, rfl⟩ := List.mem_map.mp ht
    cases ha

theorem CompletesIn.of_hop {target : Nat} (h : CompletesIn g m p w)
    (hp : g.LeadsOn rule p.state [.epsilon target]) :
    ∃ m', m = m' + 1 ∧ CompletesIn g m' { p with state := target } w := by
  obtain ⟨m', hm, target', htarget, hrest⟩ := h.of_hops [target] hp
  obtain rfl := List.mem_singleton.mp htarget
  exact ⟨m', hm, hrest⟩

/-- How a word is completed from the end of a rule. -/
theorem CompletesIn.of_stops (h : CompletesIn g m p w) (hp : g.Stops rule p.state) :
    p.stack = [] ∧ w = [] ∨ ∃ m' frame stack, m = m' + 1 ∧ p.stack = frame :: stack ∧
      CompletesIn g m' (.behind frame stack) w := by
  obtain ⟨s, hs, hstop⟩ := hp.state
  cases h with
  | done _ hstack => exact .inl ⟨hstack, rfl⟩
  | silent hstep hrest =>
    obtain ⟨frame, stack, hstack, rfl⟩ := Drift.of_stops hp hstep.drift
    exact .inr ⟨_, frame, stack, rfl, hstack, hrest⟩
  | read hs' hrun _ _ _ =>
    obtain rfl : s = _ := Option.some.inj (hs.symm.trans hs')
    exact absurd hstop (by simp [hrun])

theorem Completes.hop {ts : List Transition} {target : Nat} (hp : g.LeadsOn rule p.state ts)
    (ht : .epsilon target ∈ ts) (h : Completes g { p with state := target } w) :
    Completes g p w :=
  h.silent (Silent.of_leadsOn hp ht rfl rfl)

/-- A transition that reads nothing is passed if the precedence lets it. -/
theorem Completes.pass {ts : List Transition} {t : Transition} {q : Spot}
    (hp : g.LeadsOn rule p.state ts) (ht : t ∈ ts) (hpass : p.admits t = true)
    (hq : p.along t = some q) (h : Completes g q w) : Completes g p w :=
  h.silent (Silent.of_leadsOn hp ht hpass hq)

/-- A transition that accepts a token reads it. -/
theorem Completes.of_leadsOn {ts : List Transition} {t : Transition} {a : TokenType}
    (hp : g.LeadsOn rule p.state ts) (ht : t ∈ ts) (ha : t.accepts g.maxType a = true)
    (h : Completes g { p with state := t.target } w) : Completes g p (a :: w) := by
  obtain ⟨s, hs, hrun, rfl⟩ := hp.state
  exact .read hs hrun ht ha h

theorem Completes.back {frame : Frame} {stack : CallStack} (hp : g.Stops rule p.state)
    (hstack : p.stack = frame :: stack) (h : Completes g (.behind frame stack) w) :
    Completes g p w :=
  h.silent (Silent.of_stops hp hstack)

end Steps

/-- The word splits where the network comes from one state to another: an expression
derives what is read until then. -/
def SplitsAt (g : Graph) (rules : List Rule) (v : Vocabulary) (m : Nat) (p : Int) (e : Expr)
    (exit : Nat) (stack : CallStack) (w : List TokenType) : Prop :=
  ∃ u w' m', m' < m ∧ w = u ++ w' ∧ Derives rules v p e u ∧ CompletesIn g m' ⟨exit, p, stack⟩ w'

namespace Network.Runs

variable {n : Network} {v : Vocabulary} {rules : List Rule}

/-- A single transition is passed as its expression derives it, if calls are. -/
theorem splitsAt_edge (hruns : n.Runs v rules) {rule : RuleIndex} {e : Expr} {t : Transition}
    {entry exit m : Nat} {p : Int} {stack : CallStack} {w : List TokenType}
    (hedge : EdgeFor n.toGraph v rule exit e t) (hentry : n.LeadsOn rule entry [t])
    (hcalls : ∀ m' < m, ∀ {i r span x}, rules[i]? = some r → RuleLaid n.toGraph v i r span x →
      ∀ level stack w, CompletesIn n.toGraph m' ⟨x.entry, level, stack⟩ w →
        SplitsAt n.toGraph rules v m' level r.body x.exit stack w)
    (h : CompletesIn n.toGraph m ⟨entry, p, stack⟩ w) :
    SplitsAt n.toGraph rules v m p e exit stack w := by
  obtain ⟨m', rfl, ⟨t', ht, q, hpass, hq, hrest⟩ | ⟨t', ht, a, w', rfl, ha, hrest⟩⟩ :=
    h.of_leadsOn hentry
  · obtain rfl := List.mem_singleton.mp ht
    cases hedge with
    | token | tokens | wildcard => cases hq
    | empty | nothing | action | predicate =>
      obtain rfl := Option.some.inj hq
      exact ⟨[], w, m', Nat.lt_succ_self _, rfl, by constructor, hrest⟩
    | precedence =>
      obtain rfl := Option.some.inj hq
      exact ⟨[], w, m', Nat.lt_succ_self _, rfl, .precedence (by simpa [Spot.admits] using hpass),
        hrest⟩
    | @call name level callee span hcallee hspan =>
      obtain rfl := Option.some.inj hq
      obtain ⟨r, x, hr, rfl, hlaid⟩ := hruns.laid.rule_of_name hcallee hspan
      obtain ⟨m₁, rfl, hbody⟩ := hrest.of_hop (.of_shape hlaid.start_shape (by decide))
      obtain ⟨u, w', m₂, hlt, rfl, hderives, hexit⟩ :=
        hcalls m₁ (by omega) hr hlaid _ _ _ hbody
      obtain ⟨m₃, rfl, hstop⟩ := hexit.of_hop hlaid.leave.leadsOn
      rcases hstop.of_stops hlaid.stops with ⟨hnil, _⟩ | ⟨m₄, frame, rest, rfl, hstack, hback⟩
      · cases hnil
      · obtain ⟨rfl, rfl⟩ := List.cons.inj hstack
        exact ⟨u, w', m₄, by omega, rfl, .call (List.mem_of_getElem? hr) hderives, hback⟩
  · obtain rfl := List.mem_singleton.mp ht
    cases hedge with
    | token hfor =>
      obtain rfl := eq_of_beq ha
      exact ⟨[_], w', m', Nat.lt_succ_self _, rfl, .token hfor, hrest⟩
    | tokens hform htypes =>
      obtain ⟨e, he, hfor⟩ := TokenFor.exists_expr htypes (TypeSet.contains_ofList.mp ha)
      exact ⟨[a], w', m', Nat.lt_succ_self _, rfl, .choice he (.token hfor), hrest⟩
    | wildcard =>
      have hbounds : TokenType.first ≤ a ∧ a ≤ n.maxType := by
        simpa [Transition.accepts] using ha
      rw [hruns.maxType_eq] at hbounds
      exact ⟨[a], w', m', Nat.lt_succ_self _, rfl, .wildcard hbounds.1 hbounds.2, hrest⟩
    | empty | nothing | action | predicate | precedence | call => cases ha

/-- The network passes a block by one of its branches. -/
theorem splitsAt_block {rule : RuleIndex} {role : StateRole} {entry exit lo hi m : Nat}
    {parts : List Part} {p : Int} {stack : CallStack} {w : List TokenType}
    (hbranches : Branches n.toGraph rule role entry exit lo hi parts) (hrole : role ≠ .ruleStop)
    (hparts : ∀ m' < m, ∀ x ∈ parts, ∀ w, CompletesIn n.toGraph m' ⟨x.entry, p, stack⟩ w →
      SplitsAt n.toGraph rules v m' p x.expr x.exit stack w)
    (h : CompletesIn n.toGraph m ⟨entry, p, stack⟩ w) :
    ∃ x ∈ parts, SplitsAt n.toGraph rules v m p x.expr exit stack w := by
  have hshape := hbranches.entry_shape
  rw [show (parts.map fun x => Transition.epsilon x.entry) =
    (parts.map Part.entry).map .epsilon by simp] at hshape
  obtain ⟨m₁, rfl, target, htarget, hbranch⟩ := h.of_hops _ (.of_shape hshape hrole)
  obtain ⟨x, hx, rfl⟩ := List.mem_map.mp htarget
  obtain ⟨u, w', m₂, hlt, rfl, hderives, hexit⟩ := hparts m₁ (Nat.lt_succ_self _) x hx _ hbranch
  obtain ⟨m₃, rfl, hend⟩ := hexit.of_hop (hbranches.leave x hx).leadsOn
  exact ⟨x, hx, u, w', m₃, by omega, rfl, hderives, hend⟩

/-- What the network reads from the entry of an expression to its exit, the expression
derives. -/
theorem splitsAt (hruns : n.Runs v rules) {m : Nat} {rule : RuleIndex} {e : Expr}
    {entry exit lo hi : Nat} (hlaid : Laid n.toGraph v rule e entry exit lo hi) {p : Int}
    {stack : CallStack} {w : List TokenType}
    (h : CompletesIn n.toGraph m ⟨entry, p, stack⟩ w) :
    SplitsAt n.toGraph rules v m p e exit stack w := by
  -- Steps are counted for the rounds of a loop and for calls; below that the layout
  -- decides.
  induction m using Nat.strong_induction_on generalizing rule e entry exit lo hi p stack w with
  | _ m ihm =>
  induction hlaid generalizing w with
  | @edge e t entry hedge hentry =>
    exact hruns.splitsAt_edge hedge (.of_shape hentry (by decide))
      (fun m' hm' _ _ _ _ _ hlaid' _ _ _ h' => ihm m' hm' hlaid'.body h') h
  | only _ ih =>
    obtain ⟨u, w', m', hlt, rfl, hderives, hrest⟩ := ih h
    refine ⟨u, w', m', hlt, rfl, ?_, hrest⟩
    simpa using Derives.cons hderives .nil
  | chain hfirst hrest hmid ih ih' =>
    obtain ⟨u, w₁, m₁, hlt, rfl, hderives, hexit⟩ := ih h
    obtain ⟨m₂, rfl, hnext⟩ := hexit.of_hop hmid.leadsOn
    obtain ⟨u', w', m', hlt', rfl, hderives', hend⟩ := ihm m₂ (by omega) hrest hnext
    exact ⟨u ++ u', w', m', by omega, by simp, .cons hderives hderives', hend⟩
  | single _ ih =>
    obtain ⟨u, w', m', hlt, rfl, hderives, hrest⟩ := ih h
    exact ⟨u, w', m', hlt, rfl, .choice List.mem_cons_self hderives, hrest⟩
  | choice parts hparts hform hmany hbranches hlaid ih =>
    obtain ⟨x, hx, u, w', m', hlt, rfl, hderives, hrest⟩ := splitsAt_block hbranches (by decide)
      (fun m' hm' x hx _ => ihm m' hm' (hlaid x hx)) h
    exact ⟨u, w', m', hlt, rfl, .choice (Part.expr_mem hparts hx) hderives, hrest⟩
  | @optional body _ _ _ _ parts hparts hbranches hlaid ih =>
    obtain ⟨x, hx, u, w', m', hlt, rfl, hderives, hrest⟩ := splitsAt_block hbranches (by decide)
      (fun m' hm' x hx _ => ihm m' hm' (hlaid x hx)) h
    refine ⟨u, w', m', hlt, rfl, ?_, hrest⟩
    rcases List.mem_append.mp (Part.expr_mem hparts hx) with hlent | hempty
    · exact .present (hderives.of_lent hlent)
    · rw [List.mem_singleton.mp hempty] at hderives
      cases hderives with
      | token ht => cases ht
      | empty => exact .absent
  | @loop e body operators block blockEnd lo hi parts he hparts hbranches hlaid hentry hend hback
      hexit' ih =>
    obtain ⟨m₁, rfl, target, htarget, hnext⟩ :=
      h.of_hops [block, hi + 1] (.of_shape hentry (by simp))
    rcases List.mem_pair.mp htarget with rfl | rfl
    · obtain ⟨x, hx, u, w₁, m₂, hlt, rfl, hderives, hround⟩ := splitsAt_block hbranches (by decide)
        (fun m' hm' x hx _ => ihm m' (by omega) (hlaid x hx)) hnext
      obtain ⟨m₃, rfl, hagain⟩ := hround.of_hop hend.leadsOn
      obtain ⟨m₄, rfl, hhead⟩ := hagain.of_hop (.of_shape hback (by decide))
      obtain ⟨u', w', m', hlt', rfl, hderives', hrest⟩ := ihm m₄ (by omega)
        (.loop parts he hparts hbranches hlaid hentry hend hback hexit') hhead
      refine ⟨u ++ u', w', m', by omega, by simp, ?_, hrest⟩
      have hbody := hderives.of_lent (Part.expr_mem hparts hx)
      cases he with
      | star => exact .starMore hbody hderives'
      | operators => exact .operatorMore hbody hderives'
    · refine ⟨[], w, m₁, Nat.lt_succ_self _, rfl, ?_, hnext⟩
      cases he with
      | star => exact .starEnd
      | operators => exact .operatorEnd
  | @plus body block blockEnd lo hi parts hparts hbranches hlaid hend hback hexit' ih =>
    obtain ⟨x, hx, u, w₁, m₁, hlt, rfl, hderives, hround⟩ := splitsAt_block hbranches (by decide)
      (fun m' hm' x hx _ => ihm m' hm' (hlaid x hx)) h
    have hbody := hderives.of_lent (Part.expr_mem hparts hx)
    obtain ⟨m₂, rfl, hagain⟩ := hround.of_hop hend.leadsOn
    obtain ⟨m₃, rfl, target, htarget, hnext⟩ :=
      hagain.of_hops [block, hi + 1] (.of_shape hback (by decide))
    rcases List.mem_pair.mp htarget with rfl | rfl
    · obtain ⟨u', w', m', hlt', rfl, hderives', hrest⟩ := ihm m₃ (by omega)
        (.plus parts hparts hbranches hlaid hend hback hexit') hnext
      exact ⟨u ++ u', w', m', by omega, by simp, .plusMore hbody hderives', hrest⟩
    · exact ⟨u, w₁, m₃, by omega, rfl, .plusEnd hbody, hnext⟩
  | label _ ih =>
    obtain ⟨u, w', m', hlt, rfl, hderives, hrest⟩ := ih h
    exact ⟨u, w', m', hlt, rfl, .label hderives, hrest⟩
  | rightAssoc _ ih =>
    obtain ⟨u, w', m', hlt, rfl, hderives, hrest⟩ := ih h
    exact ⟨u, w', m', hlt, rfl, .rightAssoc hderives, hrest⟩

end Network.Runs

/-- Wherever the expression lies, the network can read the word from its entry to
its exit. -/
def Reads (g : Graph) (v : Vocabulary) (p : Int) (e : Expr) (u : List TokenType) : Prop :=
  ∀ {rule entry exit lo hi}, Laid g v rule e entry exit lo hi → ∀ {stack w},
    Completes g ⟨exit, p, stack⟩ w → Completes g ⟨entry, p, stack⟩ (u ++ w)

/-- The expression and one of the alternatives that it lends can be read as the word. -/
def ReadsBoth (g : Graph) (v : Vocabulary) (p : Int) (e : Expr) (u : List TokenType) : Prop :=
  Reads g v p e u ∧ ∃ x ∈ e.lent, Reads g v p x u

theorem ReadsBoth.whole {g : Graph} {v : Vocabulary} {p : Int} {e : Expr} {u : List TokenType}
    (hlent : e.lent = [e]) (h : Reads g v p e u) : ReadsBoth g v p e u :=
  ⟨h, e, by rw [hlent]; exact List.mem_cons_self, h⟩

theorem Expr.isTokenName_of_mem {es : List Expr} (hform : formTokenChoice es = true) {e : Expr}
    (he : e ∈ es) : e.isTokenName = true := by
  unfold formTokenChoice at hform
  rw [Bool.and_eq_true, List.all_eq_true] at hform
  exact hform.2 e he

theorem Derives.of_tokenName {rules : List Rule} {v : Vocabulary} {p : Int} {e : Expr}
    {w : List TokenType} (h : Derives rules v p e w) (he : e.isTokenName = true) :
    ∃ t, w = [t] ∧ TokenFor v e t := by
  cases h with
  | token ht => exact ⟨_, rfl, ht⟩
  | _ => cases he

section Forms

variable {g : Graph} {v : Vocabulary} {rule : RuleIndex} {p : Int} {u w : List TokenType}
  {stack : CallStack} {body : Expr} {es : List Expr}

/-- What is laid on an empty transition is read as nothing. -/
theorem Completes.basic {entry exit : Nat}
    (hentry : g.shape? entry = some ⟨.basic, rule, [.epsilon exit]⟩)
    (h : Completes g ⟨exit, p, stack⟩ w) : Completes g ⟨entry, p, stack⟩ w :=
  .hop (.of_shape hentry (by decide)) List.mem_cons_self h

/-- A block can be read as each of its alternatives can. -/
theorem BlockLaid.reads {role : StateRole} {entry exit lo hi : Nat} {parts : List Part} {e : Expr}
    (hblock : BlockLaid g v rule role es entry exit lo hi parts) (hrole : role ≠ .ruleStop)
    (he : e ∈ es) (hreads : Reads g v p e u) (h : Completes g ⟨exit, p, stack⟩ w) :
    Completes g ⟨entry, p, stack⟩ (u ++ w) := by
  rw [← hblock.exprs] at he
  obtain ⟨x, hx, rfl⟩ := List.mem_map.mp he
  refine .hop (.of_shape hblock.branches.entry_shape hrole) (List.mem_map_of_mem hx) ?_
  exact hreads (hblock.laid x hx) (.hop (hblock.branches.leave x hx).leadsOn List.mem_cons_self h)

theorem reads_token {e : Expr} {t : TokenType} (ht : TokenFor v e t) : Reads g v p e [t] := by
  intro rule entry exit lo hi hlaid stack w h
  have he : e.isTokenName = true ∨ e = .eof := by cases ht <;> simp [Expr.isTokenName]
  obtain ⟨t', ht', hentry⟩ := hlaid.token_inv he
  obtain rfl := ht.unique ht'
  exact .of_leadsOn (.of_shape hentry (by decide)) List.mem_cons_self
    (by simp [Transition.accepts]) h

theorem reads_empty : Reads g v p .empty [] :=
  fun hlaid _ _ h => .basic hlaid.empty_inv h

theorem reads_cons {e : Expr} {u' : List TokenType} (hfirst : Reads g v p e u)
    (hrest : Reads g v p (.seq es) u') (hnil : es = [] → u' = []) :
    Reads g v p (.seq (e :: es)) (u ++ u') := by
  intro rule entry exit lo hi hlaid stack w h
  cases es with
  | nil =>
    rw [hnil rfl, List.append_nil]
    exact hfirst hlaid.only_inv h
  | cons next rest =>
    obtain ⟨mid, mid', cut, hlaid, hlaid', hmid⟩ := hlaid.chain_inv
    rw [List.append_assoc]
    exact hfirst hlaid (.hop hmid.leadsOn List.mem_cons_self (hrest hlaid' h))

theorem reads_choice {rules : List Rule} {e : Expr} (he : e ∈ es) (hderives : Derives rules v p e u)
    (hreads : Reads g v p e u) : Reads g v p (.choice es) u := by
  intro rule entry exit lo hi hlaid stack w h
  rcases hlaid.choice_inv with ⟨types, hform, htypes, hentry⟩ | ⟨e', rfl, hone⟩ |
    ⟨_, _, parts, hblock⟩
  · obtain ⟨t, rfl, ht⟩ := hderives.of_tokenName (Expr.isTokenName_of_mem hform he)
    obtain ⟨t', ht', hfor⟩ := TokenFor.exists_type htypes he
    obtain rfl := ht.unique hfor
    exact .of_leadsOn (.of_shape hentry (by decide)) List.mem_cons_self
      (TypeSet.contains_ofList.mpr ht') h
  · obtain rfl := List.mem_singleton.mp he
    exact hreads hone h
  · exact hblock.reads (by decide) he hreads h

theorem reads_optional {e : Expr} (he : e ∈ body.lent ++ [.empty]) (hreads : Reads g v p e u) :
    Reads g v p (.optional body) u := by
  intro rule entry exit lo hi hlaid stack w h
  obtain ⟨parts, hblock⟩ := hlaid.optional_inv
  exact hblock.reads (by decide) he hreads h

theorem reads_headLoop_end {e : Expr} {operators : Bool} (he : HeadLoop e body operators) :
    Reads g v p e [] := by
  intro rule entry exit lo hi hlaid stack w h
  obtain ⟨_, _, _, _, _, hentry, _⟩ := hlaid.headLoop_inv he
  exact .hop (.of_shape hentry (by simp)) (List.mem_cons_of_mem _ List.mem_cons_self) h

theorem reads_headLoop_more {e : Expr} {operators : Bool} {u' : List TokenType}
    (he : HeadLoop e body operators) (hbody : ∃ x ∈ body.lent, Reads g v p x u)
    (hrest : Reads g v p e u') : Reads g v p e (u ++ u') := by
  intro rule entry exit lo hi hlaid stack w h
  obtain ⟨x, hx, hread⟩ := hbody
  obtain ⟨block, blockEnd, back, parts, hblock, hentry, hend, hback, _⟩ := hlaid.headLoop_inv he
  rw [List.append_assoc]
  refine .hop (.of_shape hentry (by simp)) List.mem_cons_self ?_
  refine hblock.reads (by decide) hx hread ?_
  exact .hop hend.leadsOn List.mem_cons_self
    (.hop (.of_shape hback (by decide)) List.mem_cons_self (hrest hlaid h))

/-- A round of a loop that decides behind its block: what can be read at either of
the two states that come next can be read behind the round. -/
theorem reads_plus_round {e : Expr} (he : e ∈ body.lent) (hreads : Reads g v p e u)
    {entry exit lo hi : Nat} (hlaid : Laid g v rule (.plus body) entry exit lo hi)
    (h : Completes g ⟨entry, p, stack⟩ w ∨ Completes g ⟨exit, p, stack⟩ w) :
    Completes g ⟨entry, p, stack⟩ (u ++ w) := by
  obtain ⟨blockEnd, back, parts, hblock, hend, hback⟩ := hlaid.plus_inv
  refine hblock.reads (by decide) he hreads (.hop hend.leadsOn List.mem_cons_self ?_)
  rcases h with hagain | hover
  · exact .hop (.of_shape hback (by decide)) List.mem_cons_self hagain
  · exact .hop (.of_shape hback (by decide)) (List.mem_cons_of_mem _ List.mem_cons_self) hover

end Forms

namespace Network.Runs

variable {n : Network} {v : Vocabulary} {rules : List Rule}

/-- A call is read as the body of the called rule. -/
theorem reads_call (hruns : n.Runs v rules) {p level : Int} {r : Rule} {u : List TokenType}
    (hr : r ∈ rules) (hbody : Reads n.toGraph v level r.body u) :
    Reads n.toGraph v p (.rule r.name level) u := by
  intro rule entry exit lo hi hlaid stack w h
  obtain ⟨callee, span, hcallee, hspan, hentry⟩ := hlaid.call_inv
  obtain ⟨r', x, hr', hname, hlaid'⟩ := hruns.laid.rule_of_name hcallee hspan
  obtain rfl := hruns.rule_inj hr (List.mem_of_getElem? hr') hname.symm
  refine .pass (.of_shape hentry (by decide)) List.mem_cons_self rfl rfl ?_
  refine .hop (.of_shape hlaid'.start_shape (by decide)) List.mem_cons_self ?_
  exact hbody hlaid'.body
    (.hop hlaid'.leave.leadsOn List.mem_cons_self (.back hlaid'.stops rfl h))

/-- What an expression derives, the network can read from its entry to its exit. -/
theorem readsBoth (hruns : n.Runs v rules) {p : Int} {e : Expr} {u : List TokenType}
    (h : Derives rules v p e u) : ReadsBoth n.toGraph v p e u := by
  induction h with
  | token ht => exact .whole (by cases ht <;> rfl) (reads_token ht)
  | wildcard hlo hhi =>
    refine .whole rfl fun hlaid _ _ h => ?_
    refine .of_leadsOn (.of_shape hlaid.wildcard_inv (by decide)) List.mem_cons_self ?_ h
    rw [Transition.accepts, hruns.maxType_eq]
    simp [hlo, hhi]
  | empty => exact .whole rfl reads_empty
  | action | predicate =>
    refine .whole rfl fun hlaid _ _ h => ?_
    obtain ⟨_, t, hedge, hentry⟩ := hlaid.leaf_inv rfl
    cases hedge with
    | token ht => cases ht
    | _ => exact .pass (.of_shape hentry (by decide)) List.mem_cons_self rfl rfl h
  | precedence hlevel =>
    exact .whole rfl fun hlaid _ _ h =>
      .pass (.of_shape hlaid.precedence_inv (by decide)) List.mem_cons_self
        (by simpa [Spot.admits] using hlevel) rfl h
  | call hr _ ih => exact .whole rfl (hruns.reads_call hr ih.1)
  | nil => exact .whole rfl fun hlaid _ _ h => .basic hlaid.nil_inv h
  | cons _ hrest ih ih' =>
    refine .whole rfl (reads_cons ih.1 ih'.1 ?_)
    rintro rfl
    cases hrest with
    | token ht => cases ht
    | nil => rfl
  | @choice p e es w he halt ih =>
    have hwhole : Reads n.toGraph v p (.choice es) w := reads_choice he halt ih.1
    refine ⟨hwhole, ?_⟩
    rcases (Expr.choice es).lent_cases with hself | ⟨es', hsame, hes⟩
    · exact ⟨_, hself ▸ List.mem_cons_self, hwhole⟩
    · obtain rfl : es = es' := by simpa using hsame
      exact ⟨e, by rw [hes]; exact he, ih.1⟩
  | absent =>
    exact .whole rfl (reads_optional (List.mem_append_right _ List.mem_cons_self) reads_empty)
  | present _ ih =>
    obtain ⟨x, hx, hread⟩ := ih.2
    exact .whole rfl (reads_optional (List.mem_append_left _ hx) hread)
  | starEnd => exact .whole rfl (reads_headLoop_end .star)
  | starMore _ _ ih ih' => exact .whole rfl (reads_headLoop_more .star ih.2 ih'.1)
  | operatorEnd => exact .whole rfl (reads_headLoop_end .operators)
  | operatorMore _ _ ih ih' => exact .whole rfl (reads_headLoop_more .operators ih.2 ih'.1)
  | plusEnd _ ih =>
    obtain ⟨x, hx, hread⟩ := ih.2
    exact .whole rfl fun hlaid _ _ h => reads_plus_round hx hread hlaid (.inr h)
  | plusMore _ _ ih ih' =>
    obtain ⟨x, hx, hread⟩ := ih.2
    refine .whole rfl fun hlaid _ _ h => ?_
    rw [List.append_assoc]
    exact reads_plus_round hx hread hlaid (.inl (ih'.1 hlaid h))
  | label _ ih => exact .whole rfl fun hlaid _ _ h => ih.1 hlaid.label_inv h
  | rightAssoc _ ih => exact .whole rfl fun hlaid _ _ h => ih.1 hlaid.rightAssoc_inv h

/-- The network completes from the start of a rule exactly the words that the body
of the rule derives. -/
theorem completes_iff_derives (hruns : n.Runs v rules) {i : Nat} {r : Rule} {span : RuleSpan}
    {x : Part} (hlaid : RuleLaid n.toGraph v i r span x) (p : Int) (w : List TokenType) :
    Completes n.toGraph ⟨span.start, p, []⟩ w ↔ Derives rules v p r.body w := by
  constructor
  · rintro ⟨m, h⟩
    obtain ⟨m₁, rfl, hbody⟩ := h.of_hop (.of_shape hlaid.start_shape (by decide))
    obtain ⟨u, w', m₂, _, rfl, hderives, hexit⟩ := hruns.splitsAt hlaid.body hbody
    obtain ⟨m₃, rfl, hstop⟩ := hexit.of_hop hlaid.leave.leadsOn
    rcases hstop.of_stops hlaid.stops with ⟨_, rfl⟩ | ⟨_, _, _, _, hstack, _⟩
    · simpa using hderives
    · cases hstack
  · intro h
    obtain ⟨s, hs, hstop⟩ := hlaid.stops.state
    have hend : Completes n.toGraph ⟨span.stop, p, []⟩ [] :=
      .done (by rw [Graph.isStop, hs]; exact hstop) rfl
    have hread :=
      (hruns.readsBoth h).1 hlaid.body (.hop hlaid.leave.leadsOn List.mem_cons_self hend)
    rw [List.append_nil] at hread
    exact .hop (.of_shape hlaid.start_shape (by decide)) List.mem_cons_self hread

end Network.Runs

end AdaptiveLL
