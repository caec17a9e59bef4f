/-
Alternatives that a prediction reports as conflicting.

Conflicting alternatives cannot be told apart by the tokens that were looked at:
some place under some stack, with some precedence, is come to over these tokens by
each of them and by the alternative that is taken.  Before the end of the input the
taken one has a path at the place of every path.  At the end of the input all paths
have ended the outermost rule, and they have done so at one place, since the
outermost invocation keeps its precedence throughout.
-/
import AdaptiveLL.Proofs.Prediction.Least
import AdaptiveLL.Proofs.Prediction.Rounds

namespace AdaptiveLL

namespace Spot

/-- The precedence of the outermost invocation. -/
def base (p : Spot) : Int :=
  (p.stack.getLast?.map Frame.precedence).getD p.precedence

theorem base_of_nil {p : Spot} (h : p.stack = []) : p.base = p.precedence := by
  rw [base, h, List.getLast?_nil, Option.map_none, Option.getD_none]

theorem base_along {p q : Spot} {t : Transition} (h : p.along t = some q) : q.base = p.base := by
  cases t with
  | call target rule follow level =>
    obtain rfl := Option.some.inj h
    simp only [base, List.getLast?_cons, Option.map_some, Option.getD_some]
    cases p.stack.getLast? <;> rfl
  | atom | set | wildcard => cases h
  | _ =>
    obtain rfl := Option.some.inj h
    rfl

theorem base_behind {p : Spot} {frame : Frame} {stack : CallStack} (h : p.stack = frame :: stack) :
    (behind frame stack).base = p.base := by
  simp only [base, behind, h, List.getLast?_cons]
  cases stack.getLast? <;> rfl

end Spot

namespace Walker

variable {n : Network} {holds : String → String → Prop} {outer : Nat} {p q : Walker}
  {w : List TokenType}

theorem Step.silent (h : Step n holds outer p q) : Silent n.toGraph p.spot q.spot := by
  cases h with
  | pass hs hrun ht htakes => exact .pass hs hrun ht htakes.admits htakes.along
  | back hs hstop hstack => exact .back hs hstop hstack

theorem Step.base_eq (h : Step n holds outer p q) : q.spot.base = p.spot.base := by
  cases h with
  | pass _ _ _ htakes => exact Spot.base_along htakes.along
  | back _ _ hstack => exact Spot.base_behind hstack

/-- Whatever a walker does, the outermost invocation keeps its precedence. -/
theorem Walks.base_eq (h : Walks n holds outer p w q) : q.spot.base = p.spot.base := by
  induction h with
  | start => rfl
  | step _ hstep ih => exact hstep.base_eq.trans ih
  | read _ _ _ _ _ ih => exact ih
  | stay _ _ _ ih => exact ih

variable {v : Vocabulary} {rules : List Rule} {start : RuleIndex} {r₀ : Rule}

theorem Walks.placed (hruns : n.Runs v rules) (hp : Placed n.toGraph start p.spot)
    (h : Walks n holds outer p w q) : Placed n.toGraph start q.spot := by
  induction h with
  | start => exact hp
  | step _ hstep ih => exact hruns.placed_drift ih hstep.silent.drift
  | read _ hs _ ht ha ih => exact hruns.placed_read ih hs ht ha
  | stay _ _ _ ih => exact ih

/-- Behind the end of the input only the end of the outermost rule is left. -/
theorem Walks.past (hruns : n.Runs v rules) (hstart : rules[start]? = some r₀)
    (hheads : Heads n start r₀) (hp : Placed n.toGraph start p.spot)
    (h : Walks n holds outer p w q) (hend : w.getLast? = some .eof) :
    Past n.toGraph start q.spot := by
  induction h with
  | start => cases hend
  | step _ hstep ih => exact hruns.past_drift hstart (ih hend) hstep.silent.drift
  | read hway hs _ ht ha =>
    rw [List.getLast?_append, List.getLast?_singleton, Option.some_or] at hend
    obtain rfl := Option.some.inj hend
    exact hruns.past_read hstart hheads (hway.placed hruns hp) hs ht ha
  | stay hway hstop hstack => exact hruns.past_of_stop (hway.placed hruns hp) hstop hstack

end Walker

/-- Who is past the rest of the outermost rule and at an end is at the end of that
rule. -/
theorem Past.state_eq {g : Graph} {start : RuleIndex} {p : Spot} (h : Past g start p)
    (hstop : g.isStop p.state = true) :
    ∃ span, g.rule? start = some span ∧ p.state = span.stop := by
  obtain ⟨_, span, hspan, hstate | hleads⟩ := h
  · exact ⟨span, hspan, hstate⟩
  · obtain ⟨s, hs, hrun, _⟩ := hleads.state
    rw [Graph.isStop, hs] at hstop
    exact absurd hstop (by simp [hrun])

namespace Network.Runs

variable {n : Network} {v : Vocabulary} {rules : List Rule} {start : RuleIndex} {r₀ : Rule}
  {p q : Spot}

/-- What can only end the outermost rule and is about to read or at an end has ended
it. -/
theorem isStop_of_past (hruns : n.Runs v rules) (hstart : rules[start]? = some r₀)
    (hpast : Past n.toGraph start p) (hlive : Path.Live n p) : n.isStop p.state = true := by
  have hend := hruns.completes_of_past hstart hpast .refl hlive
  rcases hruns.completes_of_live hlive hend with ⟨hstop, _⟩ | ⟨_, _, _, _, _, _, _, _, hw, _⟩
  · exact hstop
  · cases hw

/-- All paths that have ended the outermost rule with one precedence are at one spot. -/
theorem spot_eq_of_past (hruns : n.Runs v rules) (hstart : rules[start]? = some r₀)
    (hp : Past n.toGraph start p) (hp' : Path.Live n p) (hq : Past n.toGraph start q)
    (hq' : Path.Live n q) (hbase : p.base = q.base) : p = q := by
  obtain ⟨span, hspan, hstate⟩ := hp.state_eq (hruns.isStop_of_past hstart hp hp')
  obtain ⟨span', hspan', hstate'⟩ := hq.state_eq (hruns.isStop_of_past hstart hq hq')
  obtain rfl := Option.some.inj (hspan.symm.trans hspan')
  have hsame : p.state = q.state := hstate.trans hstate'.symm
  have hprecedence : p.precedence = q.precedence := by
    rwa [Spot.base_of_nil hp.1, Spot.base_of_nil hq.1] at hbase
  have hstack : p.stack = q.stack := hp.1.trans hq.1.symm
  obtain ⟨_, _, _⟩ := p
  obtain ⟨_, _, _⟩ := q
  dsimp only at hsame hprecedence hstack
  rw [hsame, hprecedence, hstack]

end Network.Runs

namespace Decision

variable {n : Network} {d : Decision} {holds : String → String → Prop} {alt : Nat}
  {w : List TokenType} {q q' : Walker} {v : Vocabulary} {rules : List Rule} {start : RuleIndex}
  {r₀ : Rule}

theorem Begins.placed (hruns : n.Runs v rules) (hplaced : Placed n.toGraph start d.spot)
    (h : d.Begins n holds alt q) : Placed n.toGraph start q.spot := by
  obtain ⟨_, s, t, hs, ht, htakes⟩ := h
  have ht := List.mem_of_getElem? ht
  obtain ⟨_, _, _, _, _, hrun, _⟩ := hruns.laid.form_of_mem hs ht
  exact hruns.placed_drift hplaced (.pass hs hrun ht htakes.along)

theorem Reaches.base_eq (h : d.Reaches n holds alt w q) : q.spot.base = d.spot.base := by
  obtain ⟨p, ⟨_, _, _, _, _, htakes⟩, hway⟩ := h
  exact hway.base_eq.trans (Spot.base_along htakes.along)

theorem Reaches.past (hruns : n.Runs v rules) (hstart : rules[start]? = some r₀)
    (hheads : Heads n start r₀) (hplaced : Placed n.toGraph start d.spot)
    (h : d.Reaches n holds alt w q) (hend : w.getLast? = some .eof) :
    Past n.toGraph start q.spot := by
  obtain ⟨p, hp, hway⟩ := h
  exact hway.past hruns hstart hheads (hp.placed hruns hplaced) hend

/-- Two alternatives can come over some tokens to the same spot. -/
def Share (d : Decision) (n : Network) (holds : String → String → Prop) (w : List TokenType)
    (alt alt' : Nat) : Prop :=
  ∃ q q', q.spot = q'.spot ∧ d.Reaches n holds alt w q ∧ d.Reaches n holds alt' w q'

/-- Paths that have read the end of the input are at one spot. -/
theorem Walked.spot_eq (hruns : n.Runs v rules) (hstart : rules[start]? = some r₀)
    (hheads : Heads n start r₀) (hplaced : Placed n.toGraph start d.spot) {paths : List Path}
    (h : d.Walked n holds w paths) (hend : w.getLast? = some .eof) {c c' : Path} (hc : c ∈ paths)
    (hc' : c' ∈ paths) : c.spot = c'.spot := by
  obtain ⟨hway, hlive⟩ := h c hc
  obtain ⟨hway', hlive'⟩ := h c' hc'
  have hpast := hway.past hruns hstart hheads hplaced hend
  have hpast' := hway'.past hruns hstart hheads hplaced hend
  have hbase := hway.base_eq.trans hway'.base_eq.symm
  exact hruns.spot_eq_of_past hstart hpast hlive hpast' hlive' hbase

/-- What is reported as conflicting is ascending, begins with the alternative that
is taken, and is more than that alternative; and the taken one shares a spot with
each of the others. -/
theorem Concludes.share (hruns : n.Runs v rules) (hstart : rules[start]? = some r₀)
    (hheads : Heads n start r₀) (hplaced : Placed n.toGraph start d.spot) {first a : Token}
    {found : List Path} {depth : Nat} (hwalked : d.Walked n holds w found) {p : Prediction}
    (h : d.Concludes n first found depth a (.ok p)) (hconflict : p.conflicting ≠ []) :
    p.conflicting.Pairwise (· < ·) ∧ 1 < p.conflicting.length ∧
      p.conflicting.head? = some p.alt ∧
        ∀ alt ∈ p.conflicting.tail, d.Share n holds (w ++ [a.type]) p.alt alt := by
  obtain ⟨reached, others, hreach, halts, hcons, hothers, hlast, _⟩ := h.of_conflicting hconflict
  obtain ⟨hsorted, hmem⟩ := Path.alts_spec reached
  have hreached := hwalked.reach hreach
  rw [halts] at hsorted hmem
  refine ⟨hsorted, ?_, ?_, fun alt halt => ?_⟩
  · have hpos := List.length_pos_of_ne_nil hothers
    rw [hcons, List.length_cons]
    omega
  · rw [hcons, List.head?_cons]
  · obtain ⟨c, hc, rfl⟩ := (hmem alt).mp (List.mem_of_mem_tail halt)
    -- The taken alternative has a path at the same spot.
    obtain ⟨c', hc', halt', hspot⟩ : ∃ c' ∈ reached, c'.alt = p.alt ∧ c'.spot = c.spot := by
      rcases hlast with heof | hcovers
      · obtain ⟨c', hc', halt'⟩ := Path.exists_of_alts_eq (halts.trans hcons)
        have hend : (w ++ [a.type]).getLast? = some .eof := by
          rw [List.getLast?_append, List.getLast?_singleton, Option.some_or, eq_of_beq heof]
        exact ⟨c', hc', halt', hreached.spot_eq hruns hstart hheads hplaced hend hc' hc⟩
      · exact Path.exists_of_coversAll hcovers hc
    exact ⟨c'.walker, c.walker, hspot, halt' ▸ (hreached c' hc').1, (hreached c hc).1⟩

end Decision

/-- The types of the tokens that a decision reports as looked at. -/
def Prediction.looked (p : Prediction) (ts : List Token) (i : Nat) : List TokenType :=
  ((upcoming ts i).map Token.type).take p.lookahead

/-- If the end of the input stands at most at the end of rules that no rule calls,
alternatives are reported as conflicting for a reason.  They are ascending and
several, the first is the one that is taken, and over the tokens that were looked at
it can come to the same state, under the same stack and with the same precedence, as
each of the others. -/
theorem Definition.conflicts_shared {d : Definition} {g : Grammar} (hbuild : d.build = .ok g)
    (hends : EndsOutermost d.merge.rules) {out : RuleIndex} {decision : Decision} {s : State}
    (hs : g.network.state? decision.state = some s)
    (hcalled : Called g.network.toGraph out s.rule decision.stack) (hooks : Hooks)
    {stream : TokenStream} {ts : List Token} {i : Nat} (hat : stream.At ts i)
    (calls : Array HookCall) {p : Prediction}
    (hp : (decision.decide g.network hooks stream calls).1.1 = .ok p)
    (hconflict : p.conflicting ≠ []) :
    p.conflicting.Pairwise (· < ·) ∧ 1 < p.conflicting.length ∧
      p.conflicting.head? = some p.alt ∧ ∃ asked,
        (decision.decide g.network hooks stream calls).2.toList = calls.toList ++ asked ∧
          ∀ alt ∈ p.conflicting.tail,
            decision.Share g.network (Answered asked) (p.looked ts i) p.alt alt := by
  obtain ⟨rules, hrules, _, hruns⟩ := Definition.runs_of_build hbuild
  obtain ⟨r, hr⟩ := hruns.exists_head hcalled hs rfl
  have hheads := hruns.heads_of_ends (hends.withOperators hrules) hr
  obtain ⟨asked, first, before, a, rest, found, hasked, hupcoming, hwalked, hconcludes⟩ :=
    Decision.exists_walked hat hp
  obtain ⟨hsorted, hseveral, hhead, hshare⟩ :=
    hconcludes.share hruns hr hheads ⟨s, hs, hcalled⟩ hwalked hconflict
  have hlooked : p.looked ts i = before.map Token.type ++ [a.type] := by
    obtain ⟨_, _, _, _, _, _, _, hlookahead⟩ := hconcludes.of_conflicting hconflict
    rw [Prediction.looked, hlookahead, hupcoming]
    simp [List.take_append]
  rw [hlooked]
  exact ⟨hsorted, hseveral, hhead, asked, hasked, hshare⟩

/-- Two alternatives, of which the second can read one token more than the first. -/
def overlap : Definition where
  name := "Overlap"
  rules := [
    { name := "s", body := .seq [.choice [.rule "a" 0, .rule "b" 0], .eof] },
    { name := "a", body := .literal "x" },
    { name := "b", body := .seq [.literal "x", .optional (.literal "y")] }]

theorem endsOutermost_overlap : EndsOutermost overlap.merge.rules := by
  change ∀ r ∈ overlap.rules, r.body.EndFree ∨ r.body.EndsLast ∧ Uncalled overlap.rules r
  simp only [overlap, List.forall_mem_cons, List.not_mem_nil, false_implies, implies_true, and_true]
  refine ⟨.inr ⟨.chain ?_ (.only (.token rfl)), ?_⟩, .inl ?_, .inl ?_⟩
  · simp [Expr.EndFree, Expr.subterms, Expr.subtermsOfAll, Expr.isEnd]
  · simp [Uncalled, Expr.subterms, Expr.subtermsOfAll]
  · simp [Expr.EndFree, Expr.subterms, Expr.isEnd]
  · simp [Expr.EndFree, Expr.subterms, Expr.subtermsOfAll, Expr.isEnd]

/-- After the one token of the first alternative the second may go on, but the input
ends there. -/
theorem conflicts_shared_overlap :
    let g := overlap.grammar (by decide +kernel)
    let stream := TokenStream.ofSource (.ofList [.make 1 "x" 0 0 1 0])
    let decided := (⟨6, [], 0⟩ : Decision).decide g.network .permissive stream #[]
    decided.1.1 = .ok ⟨1, 2, [1, 2]⟩ ∧ ∃ asked, decided.2.toList = asked ∧
      (⟨6, [], 0⟩ : Decision).Share g.network (Answered asked) [1, .eof] 1 2 := by
  intro g stream decided
  obtain ⟨ts, hts, hat⟩ := TokenStream.exists_at_ofSource (.ofList [.make 1 "x" 0 0 1 0])
  obtain rfl := hts.unique (.more rfl (.last rfl))
  have hp : decided.1.1 = .ok ⟨1, 2, [1, 2]⟩ := by decide +kernel
  have hrule : ((g.network.state? 6).get (by decide +kernel)).rule = 0 := by decide +kernel
  have hcalled : Called g.network.toGraph 0 0 [] := .outermost
  obtain ⟨_, _, _, asked, hasked, hshare⟩ := Definition.conflicts_shared (overlap.build_eq _)
    endsOutermost_overlap (Option.some_get _).symm (hrule ▸ hcalled) .permissive
    hat #[] hp (by decide)
  exact ⟨hp, asked, hasked, hshare 2 (by decide)⟩

end AdaptiveLL
