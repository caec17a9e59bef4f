/-
Which inputs a parser accepts.

If the start rule ends with the end of the input and every predicate holds, a parse
reports no error exactly on the sentences of the start rule, over the rules in
operator form.
-/
import AdaptiveLL.Proofs.Parser.Begin
import AdaptiveLL.Proofs.Parser.Track

namespace AdaptiveLL

def visibleTypes (tokens : List Token) : List TokenType :=
  (tokens.filter Token.isVisible).map Token.type

/-- A list without the end of the input shows its visible tokens and this end. -/
theorem Supplies.upcoming_types {tokens : List Token} {last : Option Token} {place : Nat}
    {ts : List Token} (h : Supplies (.listed tokens last) place ts)
    (hlast : last.filter Token.isEof = none) (htypes : ∀ t ∈ tokens, TokenType.first ≤ t.type) :
    (upcoming ts 0).map Token.type = visibleTypes tokens ++ [.eof] := by
  induction tokens generalizing last place ts with
  | nil =>
    have hnext : (TokenSource.listed [] last).next.1 = TokenSource.endBehind last := by
      simp only [TokenSource.next, hlast]
    have hend : (TokenSource.listed [] last).next.1.isEof = true :=
      hnext ▸ TokenSource.isEof_endBehind last
    obtain rfl := h.unique (.last hend)
    have hvisible : ((TokenSource.listed [] last).next.1.atIndex place).isVisible = true :=
      Token.isVisible_of_isEof hend
    simp only [upcoming, List.drop_zero, List.filter_cons_of_pos hvisible]
    exact congrArg (· :: []) (eq_of_beq hend)
  | cons t rest ih =>
    have hnext : (TokenSource.listed (t :: rest) last).next = (t, .listed rest (some t)) := by
      simp only [TokenSource.next, hlast]
    obtain ⟨htype, hrest⟩ := List.forall_mem_cons.mp htypes
    have hrun : t.isEof = false := by
      rw [Token.isEof, beq_eq_false_iff_ne]
      rintro heq
      rw [heq] at htype
      exact absurd htype (by decide)
    cases h with
    | last hend =>
      rw [hnext] at hend
      exact absurd (hrun.symm.trans hend) Bool.false_ne_true
    | @more _ _ ts _ hsupplies =>
      rw [hnext] at hsupplies ⊢
      have htail := ih hsupplies (by simp [hrun]) hrest
      simp only [upcoming, List.drop_zero] at htail
      simp only [upcoming, List.drop_zero, visibleTypes]
      cases hvisible : t.isVisible with
      | true =>
        have hshown : (t.atIndex place).isVisible = true := hvisible
        rw [List.filter_cons_of_pos hshown, List.filter_cons_of_pos hvisible, List.map_cons,
          List.map_cons, htail]
        rfl
      | false =>
        have hhidden : ¬(t.atIndex place).isVisible = true := by
          change ¬t.isVisible = true
          simp [hvisible]
        rw [List.filter_cons_of_neg hhidden, List.filter_cons_of_neg (by simp [hvisible])]
        exact htail

section

variable {n : Network} {v : Vocabulary} {rules : List Rule} {start : RuleIndex} {r : Rule}
  {span : RuleSpan} {part : Part} {ts : List Token} {place : Nat} {stream : TokenStream}
  {name : String}

/-- Where a parse begins, all of the input is ahead. -/
theorem RuleLaid.ahead_begin (hlaid : RuleLaid n.toGraph v start r span part) :
    (View.begin place start span name).Ahead n.toGraph start ts
      ((upcoming ts place).map Token.type) :=
  .input fun hpast => hlaid.not_closing_start hpast.2

/-- A parse of a word that the start rule derives begins on a track to its end. -/
theorem Rooted.onTrack_begin (h : Rooted n v rules start r)
    (hlaid : RuleLaid n.toGraph v start r span part)
    (hderives : Derives rules v 0 r.body ((upcoming ts place).map Token.type)) :
    (View.begin place start span name).OnTrack n start ts ((upcoming ts place).map Token.type) where
  coherent := View.coherent_begin hlaid name
  clear := rfl
  errors := rfl
  ahead := hlaid.ahead_begin
  completes := (h.runs.completes_iff_derives hlaid 0 _).mpr hderives
  ended hpast := absurd hpast.2 hlaid.not_closing_start
  nested _ := by
    have hbegun : (View.begin place start span name).begun = [(start, place)] := rfl
    refine ⟨?_, [], _, hbegun, .none, ?_⟩
    · rw [hbegun, List.forall_mem_singleton]
      exact Nat.le_refl _
    · rw [List.forall_mem_singleton]
      exact .inr rfl

end

/-- If every predicate holds, a parse ends and reports no error if and only if its
tokens are a sentence of the start rule. -/
theorem Definition.parse_clean_iff_derives {d : Definition} {g : Grammar} {rules : List Rule}
    {r₀ : Rule} (hbuild : d.build = .ok g) (hrules : d.operatorRules = .ok rules)
    (hout : Outermost d.merge.rules r₀) (hends : r₀.body.EndsLast) {hooks : Hooks}
    (hpermits : Permits (some hooks)) {tokens : List Token}
    (htypes : ∀ t ∈ tokens, TokenType.first ≤ t.type) (options : ParserOptions)
    (listeners : List String) :
    (∃ steps result, (Parser.parse ⟨g, .ofSource (.ofList tokens), options, listeners⟩ hooks steps
        r₀.name).result? = some (.ok result) ∧ result.metrics.errors = 0) ↔
      Derives rules g.vocabulary 0 (.rule r₀.name 0) (visibleTypes tokens ++ [.eof]) := by
  obtain ⟨rules', hrules', _, hruns⟩ := Definition.runs_of_build hbuild
  obtain rfl := Except.ok.inj (hrules.symm.trans hrules')
  have hout' := hout.withOperators hrules
  obtain ⟨start, span, part, hindex, hstart, hlaid⟩ := hruns.exists_ruleIndex hout'.mem
  have hrooted : Rooted g.network g.vocabulary rules start { r₀ with leftRecursive := false } :=
    ⟨hruns, hstart, hruns.heads hout' hstart, hends⟩
  obtain ⟨ts, hts, hat⟩ := TokenStream.exists_at_ofSource (.ofList tokens)
  have hinput : (upcoming ts (visiblePlace ts 0)).map Token.type =
      visibleTypes tokens ++ [.eof] := by
    obtain ⟨_, _, _, hplace⟩ := hat.ends.visiblePlace_spec 0
    rw [(hplace hat.ends.pos).2]
    exact Supplies.upcoming_types hts rfl htypes
  let parser : Parser := ⟨g, .ofSource (.ofList tokens), options, listeners⟩
  have hparse (steps : Nat) : parser.parse hooks steps r₀.name = _ :=
    Parser.parse_eq hindex hlaid.span_eq
  have hbegin := Run.is_begin hlaid.span_eq hat
  constructor
  · rintro ⟨steps, result, hresult, hclean⟩
    rw [hparse] at hresult
    obtain ⟨hhalt, rfl⟩ := ParseReport.result?_eq_ok.mp hresult
    obtain ⟨_, w, hw, hcompletes⟩ := Interpreter.completes_of_clean hrooted hts.numbered steps
      hbegin (View.coherent_begin hlaid _) nofun hhalt hclean
    rw [hw.unique hlaid.ahead_begin, hinput] at hcompletes
    exact .call (r := { r₀ with leftRecursive := false }) hout'.mem
      ((hruns.completes_iff_derives hlaid 0 _).mp hcompletes)
  · intro hderives
    have hbody := Derives.of_call hruns.nodup hout'.mem hderives
    rw [← hinput] at hbody
    let interp : Interpreter := ⟨g.network, g.vocabulary, hooks⟩
    have hpermitted : interp.network.Permits (some interp.hooks) := hpermits.network _
    obtain ⟨steps, _, hhalt, hclean, _⟩ := View.OnTrack.finishes hrooted hpermitted hts.numbered
      (hrooted.onTrack_begin hlaid hbody) hbegin
    refine ⟨steps, (parser.parse hooks steps r₀.name).result,
      ParseReport.result?_eq_ok.mpr ⟨?_, rfl⟩, ?_⟩ <;> rw [hparse]
    · exact hhalt
    · exact hclean

def sums : Definition where
  name := "Sums"
  rules := [
    { name := "s", body := .seq [.rule "e" 0, .eof] },
    { name := "e", body := .choice [
      .seq [.rule "e" 0, .literal "+", .rule "e" 0], .literal "x"] }]

def sumsOperators : List Rule := [
  { name := "s", body := .seq [.rule "e" 0, .eof] },
  { name := "e"
    body := .seq [.seq [.literal "x"],
      .operatorLoop (.seq [.precedence 2, .literal "+", .rule "e" 3])]
    leftRecursive := true }]

def sumTokens : List Token :=
  [.make 2 "x" 0 0 1 0, { Token.make 3 " " 1 1 1 1 with channel := .hidden }, .make 1 "+" 2 2 1 2,
    .make 2 "x" 3 3 1 3]

theorem parse_clean_iff_derives_sums :
    let g := sums.grammar (by decide +kernel)
    (∃ steps result, (Parser.parse ⟨g, .ofSource (.ofList sumTokens), {}, []⟩ .permissive steps
        "s").result? = some (.ok result) ∧ result.metrics.errors = 0) ↔
      Derives sumsOperators g.vocabulary 0 (.rule "s" 0) [2, 1, 2, .eof] := by
  intro g
  have hout : Outermost sums.merge.rules { name := "s", body := .seq [.rule "e" 0, .eof] } := {
    mem := List.mem_cons_self
    uncalled := by
      change ∀ r ∈ sums.rules, _
      simp [sums, Expr.subterms, Expr.subtermsOfAll]
    inner := by
      change ∀ r ∈ sums.rules, _
      simp [sums, Expr.EndFree, Expr.subterms, Expr.subtermsOfAll, Expr.isEnd]
    body := .inr (.chain (by simp [Expr.EndFree, Expr.subterms, Expr.isEnd]) (.only (.token rfl))) }
  have htypes : ∀ t ∈ sumTokens, TokenType.first ≤ t.type := by decide
  have hrules : sums.operatorRules = .ok sumsOperators := rfl
  exact Definition.parse_clean_iff_derives (sums.build_eq _) hrules hout
    (.chain (by simp [Expr.EndFree, Expr.subterms, Expr.isEnd]) (.only (.token rfl)))
    permits_permissive htypes {} []

end AdaptiveLL
