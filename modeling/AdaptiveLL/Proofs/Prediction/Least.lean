/-
Predictions in the network of a grammar.

If the end of the input stands at most at the end of a rule that nobody calls, and
every predicate holds, a prediction takes the least alternative that can be
completed.  This holds under every stack that a chain of calls leaves, whichever
rule the chain begins with.
-/
import AdaptiveLL.Proofs.OperatorForm
import AdaptiveLL.Proofs.Prediction.Choice

namespace AdaptiveLL

/-- The types of the visible tokens from a place on, without the end of the input. -/
def remaining (ts : List Token) (i : Nat) : List TokenType :=
  ((upcoming ts i).map Token.type).dropLast

/-- What remains of a stream is before the end of the input. -/
theorem TokenStream.At.upcoming_types {s : TokenStream} {ts : List Token} {i : Nat}
    (h : s.At ts i) : (upcoming ts i).map Token.type = remaining ts i ++ [.eof] := by
  obtain ⟨before, last, heq, hlast, _⟩ := h.upcoming_eq
  have hend : last.type = .eof := eq_of_beq hlast
  rw [remaining, heq, List.map_append, List.map_singleton, hend, List.dropLast_concat]

theorem TokenStream.At.eof_not_mem_remaining {s : TokenStream} {ts : List Token} {i : Nat}
    (h : s.At ts i) : .eof ∉ remaining ts i := by
  obtain ⟨before, last, heq, _, hbefore⟩ := h.upcoming_eq
  rw [remaining, heq, List.map_append, List.map_singleton, List.dropLast_concat, List.mem_map]
  rintro ⟨t, ht, htype⟩
  exact absurd (hbefore t ht) (by simp [Token.isEof, htype])

/-- A stack under which the network can be in a state belongs to a chain of calls
that some rule begins. -/
theorem Network.Runs.exists_head {n : Network} {v : Vocabulary} {rules : List Rule}
    (hruns : n.Runs v rules) {out rule : RuleIndex} {stack : CallStack}
    (hcalled : Called n.toGraph out rule stack) {id : Nat} {s : State}
    (hs : n.state? id = some s) (hrule : s.rule = rule) : ∃ r, rules[out]? = some r := by
  induction hcalled generalizing id s with
  | outermost =>
    obtain ⟨r, _, _, hr, _⟩ := hruns.laid.state_cases hs
    exact ⟨r, hrule ▸ hr⟩
  | call _ hs' hrule' _ ih => exact ih hs' hrule'

/-- Take the transitions with these numbers, one after the other, and the way back
at the end of a rule; whether the word is completed in this way. -/
def Graph.completesBy (g : Graph) : List Nat → Spot → List TokenType → Bool
  | [], p, w => g.isStop p.state && p.stack.isEmpty && w.isEmpty
  | k :: ks, p, w =>
    match g.state? p.state with
    | none => false
    | some s =>
      if s.isStop then
        match p.stack with
        | [] => false
        | frame :: stack => g.completesBy ks (.behind frame stack) w
      else
        match s.transitions[k]? with
        | none => false
        | some t =>
          match p.along t, w with
          | some q, w => p.admits t && g.completesBy ks q w
          | none, [] => false
          | none, a :: w => t.accepts g.maxType a && g.completesBy ks { p with state := t.target } w

theorem Completes.of_completesBy {g : Graph} {ks : List Nat} {p : Spot} {w : List TokenType}
    (h : g.completesBy ks p w = true) : Completes g p w := by
  fun_induction Graph.completesBy g ks p w with
  | case1 p w =>
    simp only [Bool.and_eq_true, List.isEmpty_iff] at h
    obtain ⟨⟨hstop, hstack⟩, rfl⟩ := h
    exact .done hstop hstack
  | case2 | case3 | case5 | case7 => cases h
  | case4 p w k ks s hs hstop frame stack hstack ih =>
    exact .silent (.back hs hstop hstack) (ih h)
  | case6 k ks p s hs hrun t ht q w hq ih =>
    rw [Bool.and_eq_true] at h
    exact .silent (.pass hs (by simpa using hrun) (List.mem_of_getElem? ht) h.1 hq) (ih h.2)
  | case8 k ks p s hs hrun t ht a w hq ih =>
    rw [Bool.and_eq_true] at h
    exact .read hs (by simpa using hrun) (List.mem_of_getElem? ht) h.1 (ih h.2)

/-- If every predicate holds, a prediction takes the least of the alternatives that
have a path which reads what remains of the input and ends the outermost rule. -/
theorem Definition.decide_least_completable {d : Definition} {g : Grammar} {r₀ : Rule}
    (hbuild : d.build = .ok g) (hout : Outermost d.merge.rules r₀) {hooks : Hooks}
    (hpermits : Permits (some hooks)) {out : RuleIndex} {decision : Decision} {s : State}
    (hs : g.network.state? decision.state = some s) (hdecision : s.isDecision = true)
    (hcalled : Called g.network.toGraph out s.rule decision.stack) {stream : TokenStream}
    {ts : List Token} {i : Nat} (hat : stream.At ts i) (calls : Array HookCall)
    (hsome : ∃ alt, decision.Completable g.network.toGraph (remaining ts i) alt) :
    ∃ p, (decision.decide g.network hooks stream calls).1.1 = .ok p ∧
      decision.Completable g.network.toGraph (remaining ts i) p.alt ∧
        ∀ alt, decision.Completable g.network.toGraph (remaining ts i) alt → p.alt ≤ alt := by
  obtain ⟨rules, hrules, _, hruns⟩ := Definition.runs_of_build hbuild
  obtain ⟨r, hr⟩ := hruns.exists_head hcalled hs rfl
  exact hruns.decide_least hr (hruns.heads (hout.withOperators hrules) hr)
    (hpermits.network _) calls ⟨s, hs, hcalled⟩ hs hdecision hat hat.upcoming_types hsome

/-- An optional token in a rule that is called before another such token. -/
def optionalTwice : Definition where
  name := "Optional"
  rules := [
    { name := "s", body := .seq [.rule "a" 0, .optional (.literal "x"), .eof] },
    { name := "a", body := .optional (.literal "x") }]

theorem outermost_optionalTwice :
    Outermost optionalTwice.merge.rules
      { name := "s", body := .seq [.rule "a" 0, .optional (.literal "x"), .eof] } where
  mem := List.mem_cons_self
  uncalled := by
    change ∀ r ∈ optionalTwice.rules, _
    simp [optionalTwice, Expr.subterms, Expr.subtermsOfAll]
  inner := by
    change ∀ r ∈ optionalTwice.rules, _
    simp [optionalTwice, Expr.EndFree, Expr.subterms, Expr.isEnd]
  body := .inr (.chain (by simp [Expr.EndFree, Expr.subterms, Expr.isEnd])
    (.chain (by simp [Expr.EndFree, Expr.subterms, Expr.isEnd]) (.only (.token rfl))))

/-- One such token can be read in the called rule or behind it; the call reads it. -/
theorem decide_least_completable_optionalTwice :
    let g := optionalTwice.grammar (by decide +kernel)
    let stream := TokenStream.ofSource (.ofList [.make 1 "x" 0 0 1 0])
    ∃ p, ((⟨14, [⟨5, 0⟩], 0⟩ : Decision).decide g.network .permissive stream #[]).1.1 = .ok p ∧
      (⟨14, [⟨5, 0⟩], 0⟩ : Decision).Completable g.network.toGraph [1] p.alt ∧
        ∀ alt, (⟨14, [⟨5, 0⟩], 0⟩ : Decision).Completable g.network.toGraph [1] alt →
          p.alt ≤ alt := by
  intro g stream
  obtain ⟨ts, hts, hat⟩ := TokenStream.exists_at_ofSource (.ofList [.make 1 "x" 0 0 1 0])
  obtain rfl := hts.unique (.more rfl (.last rfl))
  have hstate (id : Nat) (h : (g.network.state? id).isSome = true) :
      g.network.state? id = some ((g.network.state? id).get h) := (Option.some_get h).symm
  have hdecision : ((g.network.state? 14).get (by decide +kernel)).isDecision = true := by
    decide +kernel
  have hcall : (.call 2 1 5 0 : Transition) ∈
      ((g.network.state? 4).get (by decide +kernel)).transitions := by decide +kernel
  have hrule : ((g.network.state? 14).get (by decide +kernel)).rule = 1 := by decide +kernel
  have hcalled : Called g.network.toGraph 0 1 [⟨5, 0⟩] :=
    .call .outermost (hstate 4 (by decide +kernel)) (by decide +kernel) hcall
  have hpath : g.network.completesBy [0, 0, 0, 0, 0, 1, 0, 0, 0, 0, 0] ⟨16, 0, [⟨5, 0⟩]⟩
      [1, .eof] = true := by decide +kernel
  exact Definition.decide_least_completable (optionalTwice.build_eq _) outermost_optionalTwice
    (fun h hh _ _ _ => by cases hh; rfl) (hstate 14 (by decide +kernel)) hdecision (hrule ▸ hcalled)
    hat #[]
    ⟨1, ⟨16, 0, [⟨5, 0⟩]⟩, ⟨Nat.one_pos, _, .epsilon 16, hstate 14 (by decide +kernel),
      by decide +kernel, by decide +kernel, rfl, rfl⟩, .inr (.of_completesBy hpath)⟩

end AdaptiveLL
