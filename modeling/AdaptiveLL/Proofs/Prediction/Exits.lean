/-
Which ways a prediction has paths for, and what it takes when no path can go on.

A prediction has a path for every way of an alternative on which no predicate is
denied, whether or not an action comes before the predicate; and on the way of every
path the predicates that count were answered with yes.  When no path can read the
next token, the least alternative is taken that has a path which has left the rule
of the decision or has ended the outermost rule.  Two paths of one alternative at
one spot are taken for one, so a way that has left the rule may be given up for one
that has not; but below the stack of the decision there are only ways that have left
it.
-/
import AdaptiveLL.Proofs.Prediction.Least
import AdaptiveLL.Proofs.Prediction.Rounds

namespace AdaptiveLL

/-- The network can read a word on the way from one spot to another. -/
inductive Across (n : Network) : Spot → List TokenType → Spot → Prop where
  | here {p} : Across n p [] p
  | token {p q r s t a w} (hs : n.state? p.state = some s) (hrun : s.isStop = false)
      (ht : t ∈ s.transitions) (ha : t.accepts n.maxType a = true)
      (hsilents : Silents n.toGraph { p with state := t.target } q) (hrest : Across n q w r) :
      Across n p (a :: w) r

/-- Where a word is read on the way to a live spot, a path is live. -/
theorem Across.live {n : Network} {p q : Spot} {w : List TokenType} (h : Across n p w q)
    (hlive : Path.Live n q) : Path.Live n p := by
  cases h with
  | here => exact hlive
  | token hs hrun ht ha =>
    refine ⟨_, hs, .inr ⟨hrun, ?_⟩⟩
    rw [State.readsNothing, List.all_eq_false]
    exact ⟨_, ht, by simp [Transition.isEpsilon_of_accepts ha]⟩

namespace Decision

/-- An alternative has a way over some tokens to this spot, and the host program
denies no predicate in front of the first token. -/
def Clears (d : Decision) (n : Network) (hooks : Hooks) (alt : Nat) (w : List TokenType)
    (q : Spot) : Prop :=
  ∃ first p, d.Offers n.toGraph alt first ∧
    Relation.ReflTransGen (Allowed n (some hooks)) first p ∧ Across n p w q

/-- Some paths have one for every such way to a live spot. -/
def Covers (d : Decision) (n : Network) (hooks : Hooks) (w : List TokenType) (paths : List Path) :
    Prop :=
  ∀ alt q, d.Clears n hooks alt w q → Path.Live n q → ∃ c ∈ paths, c.alt = alt ∧ c.spot = q

end Decision

namespace Network.Runs

variable {n : Network} {v : Vocabulary} {rules : List Rule} {start : RuleIndex} {d : Decision}
  {w : List TokenType} {paths found : List Path} {hooks : Hooks} {q : Spot}

/-- Paths that move over some tokens come to every live spot behind them. -/
theorem exists_across (hruns : n.Runs v rules) (hmoves : d.Moves n paths w found)
    (hpaths : ∀ c ∈ paths, Placed n.toGraph start c.spot) {c : Path} (hc : c ∈ paths)
    (hway : Across n c.spot w q) (hlive : Path.Live n q) :
    ∃ c' ∈ found, c'.alt = c.alt ∧ c'.spot = q := by
  induction hmoves generalizing c with
  | start =>
    cases hway with
    | here => exact ⟨c, hc, rfl, rfl⟩
  | @token paths next found a w hreach _ ih =>
    cases hway with
    | @token _ q' _ s t _ _ hs hrun ht ha hsilents hrest =>
      obtain ⟨next', hreach', hnext⟩ := hruns.exists_reach d.stack.length a
        fun c hc => hruns.states_of_placed (hpaths c hc)
      obtain rfl := Except.ok.inj (hreach'.symm.trans hreach)
      obtain ⟨y, halt, rfl⟩ : ∃ y : Path, y.alt = c.alt ∧ y.spot = q' :=
        ⟨⟨q'.state, c.alt, q'.stack, q'.precedence, false, true, []⟩, rfl, rfl⟩
      obtain ⟨z, hz, halt', hspot⟩ := hnext.complete c hc y
        ⟨halt.symm, s, t, hs, hrun, ht, ha, hsilents, hrest.live hlive⟩
      obtain ⟨c', hc', halt'', hspot'⟩ :=
        ih (hruns.placed_reached hpaths hnext) hz (hspot ▸ hrest)
      exact ⟨c', hc', halt''.trans (halt'.trans halt), hspot'⟩

/-- Before a token is read there is a path for every way on which no predicate is
denied, and on the way of every path the predicates that count were answered with
yes. -/
theorem exists_start_covers (hruns : n.Runs v rules) (hooks : Hooks) (calls : Array HookCall)
    {s : State} (hplaced : Placed n.toGraph start d.spot) (hs : n.state? d.state = some s)
    (hdecision : s.isDecision = true) :
    ∃ paths calls' asked, (d.start n hooks s.transitions).run calls = (.ok paths, calls') ∧
      calls'.toList = calls.toList ++ asked ∧ (∀ c ∈ paths, Placed n.toGraph start c.spot) ∧
        d.Walked n (Answered asked) [] paths ∧ d.Covers n hooks [] paths := by
  obtain ⟨paths, calls', hrun, hsound, hcomplete⟩ :=
    hruns.returns_start hooks hplaced hs hdecision calls
  obtain ⟨asked, hasked, hwalked⟩ := Decision.gives_start hooks hs _ _ _ hrun
  refine ⟨paths, calls', asked, hrun, hasked, fun c hc => (hsound c hc).1, hwalked, ?_⟩
  rintro alt q ⟨first, p, hoffers, hallowed, hway⟩ hlive
  cases hway with
  | here => exact hcomplete alt first _ hoffers hallowed hlive

/-- The same holds of the paths that decide, over the tokens that they have moved
over. -/
theorem exists_decide_covers (hruns : n.Runs v rules) (hooks : Hooks) (calls : Array HookCall)
    {s : State} (hplaced : Placed n.toGraph start d.spot) (hs : n.state? d.state = some s)
    (hdecision : s.isDecision = true) {stream : TokenStream} {ts : List Token} {i : Nat}
    (hat : stream.At ts i) :
    ∃ asked first before a rest found,
      (d.decide n hooks stream calls).2.toList = calls.toList ++ asked ∧
        upcoming ts i = before ++ a :: rest ∧
          d.Walked n (Answered asked) (before.map Token.type) found ∧
            d.Covers n hooks (before.map Token.type) found ∧
              d.Concludes n first found before.length a (d.decide n hooks stream calls).1.1 := by
  obtain ⟨paths, calls', asked, hrun, hasked, hpaths, hwalked, hcovers⟩ :=
    hruns.exists_start_covers hooks calls hplaced hs hdecision
  have hsome : s.transitions.isEmpty = false := by
    cases hts : s.transitions with
    | nil => simp [State.isDecision, hts] at hdecision
    | cons => rfl
  obtain ⟨rfl, first, before, a, rest, found, hupcoming, hmoves, hconcludes⟩ :=
    Decision.decide_concludes hat hs hsome hrun
  refine ⟨asked, first, before, a, rest, found, hasked, hupcoming, hwalked.moves hmoves, ?_,
    hconcludes⟩
  rintro alt q ⟨offered, p, hoffers, hallowed, hway⟩ hlive
  obtain ⟨c, hc, rfl, rfl⟩ := hcovers alt p ⟨offered, p, hoffers, hallowed, .here⟩ (hway.live hlive)
  exact hruns.exists_across hmoves hpaths hc hway hlive

end Network.Runs

/-- A walker has left the rule of the decision or has ended the outermost rule. -/
def Walker.Gone (n : Network) (q : Walker) : Prop :=
  q.leftRule = true ∨ q.spot.stack = [] ∧ n.isStop q.spot.state = true

theorem Spot.length_le_along {p q : Spot} {t : Transition} (h : p.along t = some q) :
    p.stack.length ≤ q.stack.length := by
  cases t with
  | call =>
    obtain rfl := Option.some.inj h
    exact Nat.le_succ _
  | atom | set | wildcard => cases h
  | _ =>
    obtain rfl := Option.some.inj h
    exact Nat.le_refl _

/-- Who has not left the rule of the decision is not below the stack of the decision. -/
theorem Walker.Walks.outer_le {n : Network} {holds : String → String → Prop} {outer : Nat}
    {p q : Walker} {w : List TokenType} (h : Walks n holds outer p w q)
    (hp : outer ≤ p.spot.stack.length) (hstays : q.leftRule = false) :
    outer ≤ q.spot.stack.length := by
  induction h with
  | start => exact hp
  | @step w q r hway hstep ih =>
    cases hstep with
    | pass _ _ _ htakes =>
      exact (ih (htakes.leftRule ▸ hstays)).trans (Spot.length_le_along htakes.along)
    | back =>
      obtain ⟨_, hdeep⟩ := Bool.or_eq_false_iff.mp hstays
      exact Nat.not_lt.mp (of_decide_eq_false hdeep)
  | read _ _ _ _ _ ih => exact ih hstays
  | stay _ _ _ ih => exact ih hstays

namespace Decision

variable {n : Network} {d : Decision} {holds : String → String → Prop} {w : List TokenType}
  {found : List Path} {hooks : Hooks} {first a : Token} {depth : Nat}

theorem Reaches.outer_le {alt : Nat} {q : Walker} (h : d.Reaches n holds alt w q)
    (hstays : q.leftRule = false) : d.stack.length ≤ q.spot.stack.length := by
  obtain ⟨p, ⟨_, _, _, _, _, htakes⟩, hway⟩ := h
  exact hway.outer_le (Spot.length_le_along htakes.along) hstays

/-- If some path has left the rule of the decision or ended the outermost rule, an
alternative is taken that is not above that of the path. -/
theorem exists_stuck {c : Path} (hc : c ∈ found) (hgone : c.walker.Gone n) :
    ∃ p, d.stuck n first a depth found = .ok p ∧ p.alt ≤ c.alt := by
  have hmem : c.alt ∈ (found.filter fun c => c.leftRule || c.stack.isEmpty && c.isAtStop n).map
      Path.alt := by
    refine List.mem_map_of_mem (List.mem_filter.mpr ⟨hc, ?_⟩)
    simpa [Walker.Gone, Path.walker, Path.spot, Path.isAtStop] using hgone
  unfold stuck Path.exitAlt?
  dsimp only
  split
  · rename_i alt hmin
    exact ⟨_, rfl, (List.min?_eq_some_iff.mp hmin).2 _ hmem⟩
  · rename_i hnone
    rw [List.min?_eq_none_iff.mp hnone] at hmem
    cases hmem

/-- What paths that cannot go on take: an alternative that has left the rule of the
decision or ended the outermost rule, and none above one that is below the stack of
the decision or has ended the outermost rule. -/
theorem stuck_exits (hwalked : d.Walked n holds w found) (hcovers : d.Covers n hooks w found) :
    (∀ p, d.stuck n first a depth found = .ok p →
      ∃ q, d.Reaches n holds p.alt w q ∧ q.Gone n) ∧
      ∀ alt q, d.Clears n hooks alt w q → Path.Live n q →
        (q.stack.length < d.stack.length ∨ q.stack = [] ∧ n.isStop q.state = true) →
          ∃ p, d.stuck n first a depth found = .ok p ∧ p.alt ≤ alt := by
  refine ⟨fun p hp => ?_, fun alt q hclears hlive hbelow => ?_⟩
  · obtain ⟨c, hc, halt, hgone⟩ := stuck_spec.1 p hp
    exact ⟨c.walker, halt ▸ (hwalked c hc).1, hgone⟩
  · obtain ⟨c, hc, rfl, rfl⟩ := hcovers alt q hclears hlive
    refine exists_stuck hc (hbelow.imp_left fun hlt => ?_)
    by_contra hstays
    have hle := (hwalked c hc).1.outer_le (by simpa using hstays)
    exact absurd hlt (Nat.not_lt.mpr hle)

theorem Concludes.eq_stuck {r : Except PredictionFailure Prediction}
    (h : d.Concludes n first found depth a r)
    (hstuck : Path.reach n d.stack.length a.type found = .ok []) :
    r = d.stuck n first a depth found := by
  cases h with
  | defect hreach => cases hreach.symm.trans hstuck
  | stuck => rfl
  | single hreach halts | several hreach halts =>
    obtain rfl := Except.ok.inj (hreach.symm.trans hstuck)
    cases halts

end Decision

/-- Before a token is read, a prediction has a path for every way of an alternative
on which no predicate is denied, and on the way of every path the predicates that
count were answered with yes. -/
theorem Definition.start_covers {d : Definition} {g : Grammar} (hbuild : d.build = .ok g)
    {out : RuleIndex} {decision : Decision} {s : State}
    (hs : g.network.state? decision.state = some s) (hdecision : s.isDecision = true)
    (hcalled : Called g.network.toGraph out s.rule decision.stack) (hooks : Hooks)
    (calls : Array HookCall) :
    ∃ paths calls' asked,
      (decision.start g.network hooks s.transitions).run calls = (.ok paths, calls') ∧
        calls'.toList = calls.toList ++ asked ∧
          decision.Walked g.network (Answered asked) [] paths ∧
            decision.Covers g.network hooks [] paths := by
  obtain ⟨rules, _, _, hruns⟩ := Definition.runs_of_build hbuild
  obtain ⟨paths, calls', asked, hrun, hasked, _, hwalked, hcovers⟩ :=
    hruns.exists_start_covers hooks calls ⟨s, hs, hcalled⟩ hs hdecision
  exact ⟨paths, calls', asked, hrun, hasked, hwalked, hcovers⟩

/-- A predicate behind a choice whose alternatives read nothing. -/
def masked (skips : List Expr) : Definition where
  name := "Masked"
  rules := [{ name := "s", body := .seq [
    .choice [.seq [.choice skips, .predicate "p", .literal "x"], .literal "y"], .eof] }]

/-- Where the predicate is denied there is a path of the second alternative still. -/
theorem start_covers_masked :
    let n := ((masked [.empty, .action "a"]).grammar (by decide +kernel)).network
    let decision : Decision := ⟨2, [], 0⟩
    ∃ s paths calls' asked, n.state? 2 = some s ∧
      (decision.start n (.fixed fun _ => false) s.transitions).run #[] = (.ok paths, calls') ∧
        calls'.toList = asked ∧ decision.Walked n (Answered asked) [] paths ∧
          decision.Covers n (.fixed fun _ => false) [] paths ∧
            ∃ c ∈ paths, c.alt = 2 ∧ c.spot = ⟨14, 0, []⟩ := by
  intro n decision
  have hstate (id : Nat) (h : (n.state? id).isSome = true) :
      n.state? id = some ((n.state? id).get h) := (Option.some_get h).symm
  have hs : n.state? decision.state = some ((n.state? 2).get (by decide +kernel)) :=
    hstate 2 (by decide +kernel)
  have hrule : ((n.state? 2).get (by decide +kernel)).rule = 0 := by decide +kernel
  have hcalled : Called n.toGraph 0 0 decision.stack := .outermost
  obtain ⟨paths, calls', asked, hrun, hasked, hwalked, hcovers⟩ :=
    Definition.start_covers ((masked [.empty, .action "a"]).build_eq _)
      hs (by decide +kernel) (hrule ▸ hcalled) (.fixed fun _ => false) #[]
  have hoffers : decision.Offers n.toGraph 2 ⟨14, 0, []⟩ :=
    ⟨Nat.two_pos, _, .epsilon 14, hs, by decide +kernel,
      by decide +kernel, rfl, rfl⟩
  have hlive : Path.Live n ⟨14, 0, []⟩ :=
    ⟨_, hstate 14 (by decide +kernel), .inr ⟨by decide +kernel, by decide +kernel⟩⟩
  refine ⟨_, paths, calls', asked, hs, hrun, ?_, hwalked, hcovers,
    hcovers 2 _ ⟨_, _, hoffers, .refl, .here⟩ hlive⟩
  rw [hasked]
  exact List.nil_append asked

/-- If the way past the action comes last, it is taken for the one on which the
predicate counts. -/
example : ((⟨2, [], 0⟩ : Decision).decide ((masked [.empty, .action "a"]).grammar
    (by decide +kernel)).network (.fixed fun _ => false)
      (.ofSource (.ofList [.make 1 "x" 0 0 1 0])) #[]).1.1.isOk = false := by decide +kernel

example : ((⟨2, [], 0⟩ : Decision).decide ((masked [.action "a", .empty]).grammar
    (by decide +kernel)).network (.fixed fun _ => false)
      (.ofSource (.ofList [.make 1 "x" 0 0 1 0])) #[]).1.1 = .ok ⟨1, 1, []⟩ := by decide +kernel

/-- When no path of a prediction can read the next token, an alternative is taken
that has a way over the tokens before it which has left the rule of the decision or
ended the outermost rule; and none is taken above an alternative that has come below
the stack of the decision or has ended the outermost rule, without a predicate that
is denied. -/
theorem Definition.decide_exits {d : Definition} {g : Grammar} (hbuild : d.build = .ok g)
    {out : RuleIndex} {decision : Decision} {s : State}
    (hs : g.network.state? decision.state = some s) (hdecision : s.isDecision = true)
    (hcalled : Called g.network.toGraph out s.rule decision.stack) (hooks : Hooks)
    (calls : Array HookCall) {stream : TokenStream} {ts : List Token} {i : Nat}
    (hat : stream.At ts i) {outcome : Except PredictionFailure Prediction}
    (houtcome : (decision.decide g.network hooks stream calls).1.1 = outcome) :
    ∃ asked first before a rest found,
      (decision.decide g.network hooks stream calls).2.toList = calls.toList ++ asked ∧
        upcoming ts i = before ++ a :: rest ∧
          decision.Walked g.network (Answered asked) (before.map Token.type) found ∧
            decision.Covers g.network hooks (before.map Token.type) found ∧
              decision.Concludes g.network first found before.length a outcome ∧
              (Path.reach g.network decision.stack.length a.type found = .ok [] →
                (∀ p, outcome = .ok p → p.lookahead = max before.length 1 ∧ ∃ q,
                  decision.Reaches g.network (Answered asked) p.alt (before.map Token.type) q ∧
                    q.Gone g.network) ∧
                  ∀ alt q, decision.Clears g.network hooks alt (before.map Token.type) q →
                    Path.Live g.network q → (q.stack.length < decision.stack.length ∨
                      q.stack = [] ∧ g.network.isStop q.state = true) →
                        ∃ p, outcome = .ok p ∧ p.alt ≤ alt) := by
  obtain ⟨rules, _, _, hruns⟩ := Definition.runs_of_build hbuild
  obtain ⟨asked, first, before, a, rest, found, hasked, hupcoming, hwalked, hcovers, hconcludes⟩ :=
    hruns.exists_decide_covers hooks calls ⟨s, hs, hcalled⟩ hs hdecision hat
  rw [houtcome] at hconcludes
  refine ⟨asked, first, before, a, rest, found, hasked, hupcoming, hwalked, hcovers, hconcludes,
    fun hstuck => ?_⟩
  have hlookahead (p : Prediction) (hp : outcome = .ok p) : p.lookahead = max before.length 1 := by
    rw [hp] at hconcludes
    exact (hconcludes.lookahead_eq.1 hstuck).1
  rw [hconcludes.eq_stuck hstuck] at hlookahead ⊢
  obtain ⟨hsound, hleast⟩ := Decision.stuck_exits hwalked hcovers
  exact ⟨fun p hp => ⟨hlookahead p hp, hsound p hp⟩, hleast⟩

/-- Rows of words in rows, of which one word begins with the other. -/
def rows : Definition where
  name := "Rows"
  rules := [
    { name := "s", body := .seq [.star (.rule "a" 0), .eof] },
    { name := "a", body := .plus (.choice [.seq [.literal "x", .literal "y"],
        .seq [.literal "x", .literal "y", .literal "x", .literal "v"]]) }]

/-- Behind the first word no path can go on.  That token is looked at as well, but
not counted. -/
theorem decide_exits_rows :
    let n := (rows.grammar (by decide +kernel)).network
    let decision : Decision := ⟨13, [⟨8, 0⟩], 0⟩
    let stream := TokenStream.ofSource (.ofList [.make 1 "x" 0 0 1 0, .make 2 "y" 1 1 1 1,
      .make 3 "v" 2 2 1 2])
    (decision.decide n .permissive stream #[]).1.1 = .ok ⟨1, 2, []⟩ ∧
    ∃ (asked : List HookCall) (first : Token) (before : List Token) (a : Token)
        (rest : List TokenType) (found : List Path),
      (decision.decide n .permissive stream #[]).2.toList = asked ∧
        [1, 2, 3, .eof] = before.map Token.type ++ a.type :: rest ∧
          decision.Walked n (Answered asked) (before.map Token.type) found ∧
            decision.Covers n .permissive (before.map Token.type) found ∧
              decision.Concludes n first found before.length a (.ok ⟨1, 2, []⟩) ∧
              (Path.reach n 1 a.type found = .ok [] → 2 = max before.length 1 ∧
                ∃ q, decision.Reaches n (Answered asked) 1 (before.map Token.type) q ∧
                  q.Gone n) := by
  intro n decision stream
  obtain ⟨ts, hts, hat⟩ := TokenStream.exists_at_ofSource (.ofList [.make 1 "x" 0 0 1 0,
    .make 2 "y" 1 1 1 1, .make 3 "v" 2 2 1 2])
  obtain rfl := hts.unique (.more rfl (.more rfl (.more rfl (.last rfl))))
  have hp : (decision.decide n .permissive stream #[]).1.1 = .ok ⟨1, 2, []⟩ := by decide +kernel
  have hstate (id : Nat) (h : (n.state? id).isSome = true) :
      n.state? id = some ((n.state? id).get h) := (Option.some_get h).symm
  have hs : n.state? decision.state = some ((n.state? 13).get (by decide +kernel)) :=
    hstate 13 (by decide +kernel)
  have hrule : ((n.state? 13).get (by decide +kernel)).rule = 1 := by decide +kernel
  have hcall : (.call 2 1 8 0 : Transition) ∈
      ((n.state? 7).get (by decide +kernel)).transitions := by decide +kernel
  have hcalled : Called n.toGraph 0 1 decision.stack :=
    .call .outermost (hstate 7 (by decide +kernel)) (by decide +kernel) hcall
  obtain ⟨asked, first, before, a, rest, found, hasked, hupcoming, hwalked, hcovers, hconcludes,
      hstuck⟩ := Definition.decide_exits (rows.build_eq _) hs (by decide +kernel)
    (hrule ▸ hcalled) .permissive #[] hat hp
  refine ⟨hp, asked, first, before, a, rest.map Token.type, found, ?_, ?_, hwalked, hcovers,
    hconcludes, fun hnone => (hstuck hnone).1 _ rfl⟩
  · rw [hasked]
    exact List.nil_append asked
  · have htypes := congrArg (List.map Token.type) hupcoming
    rw [List.map_append, List.map_cons] at htypes
    exact htypes

/-- One token later nothing has left.  Behind the first word its alternative can
leave the inner rows and come back to them through the outer ones, or stay in them,
and the way that stays is the one that is kept. -/
example : ((⟨13, [⟨8, 0⟩], 0⟩ : Decision).decide (rows.grammar (by decide +kernel)).network
    .permissive (.ofSource (.ofList [.make 1 "x" 0 0 1 0, .make 2 "y" 1 1 1 1, .make 1 "x" 2 2 1 2,
      .make 1 "x" 3 3 1 3])) #[]).1.1.isOk = false := by decide +kernel

end AdaptiveLL
