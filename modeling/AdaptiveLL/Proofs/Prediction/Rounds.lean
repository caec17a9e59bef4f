/-
The rounds of a prediction.

A prediction moves its paths over one token after the other, for as long as several
alternatives are left that can still be told apart, and decides at the token behind
them.  What it comes to is known from the tokens that it moved over, from the paths
that have moved over them, and from the token at which it decides.
-/
import AdaptiveLL.Proofs.Prediction.Streams
import AdaptiveLL.Proofs.Prediction.Walks

namespace AdaptiveLL

namespace Decision

/-- Paths that move over some tokens become other paths. -/
inductive Moves (d : Decision) (n : Network) : List Path → List TokenType → List Path → Prop where
  | start {paths} : Moves d n paths [] paths
  | token {paths next found a w} (hreach : Path.reach n d.stack.length a paths = .ok next)
      (hmore : Moves d n next w found) : Moves d n paths (a :: w) found

/-- What paths decide that have moved over `depth` tokens and come to one more. -/
inductive Concludes (d : Decision) (n : Network) (first : Token) (paths : List Path) (depth : Nat)
    (a : Token) : Except PredictionFailure Prediction → Prop where
  | defect {e} (hreach : Path.reach n d.stack.length a.type paths = .error e) :
      Concludes d n first paths depth a (.error (.defect e))
  | stuck (hreach : Path.reach n d.stack.length a.type paths = .ok []) :
      Concludes d n first paths depth a (d.stuck n first a depth paths)
  | single {found alt} (hreach : Path.reach n d.stack.length a.type paths = .ok found)
      (halts : Path.alts found = [alt]) :
      Concludes d n first paths depth a (.ok ⟨alt, depth + 1, []⟩)
  | several {found alt others} (hreach : Path.reach n d.stack.length a.type paths = .ok found)
      (halts : Path.alts found = alt :: others) (hothers : others ≠ [])
      (hlast : a.isEof = true ∨ Path.coversAll alt found = true) :
      Concludes d n first paths depth a (.ok ⟨alt, depth + 1, alt :: others⟩)

variable {n : Network} {d : Decision} {ts : List Token} {s : TokenStream} {i : Nat}
  {first : Token} {paths found : List Path} {w : List TokenType}

/-- Paths that go the ways of walkers do so over all the tokens that they move over. -/
theorem Walked.moves {holds : String → String → Prop} {w' : List TokenType}
    (h : d.Walked n holds w paths) (hmoves : d.Moves n paths w' found) :
    d.Walked n holds (w ++ w') found := by
  induction hmoves generalizing w with
  | start => rwa [List.append_nil]
  | token hreach _ ih =>
    rw [List.append_cons]
    exact ih (h.reach hreach)

/-- There is a first token at which moving paths decide. -/
theorem simulate_concludes (hat : s.At ts i) (first : Token) {rounds : Nat} (depth : Nat)
    (paths : List Path) (hrounds : (upcoming ts i).length ≤ rounds) :
    ∃ before a rest found, upcoming ts i = before ++ a :: rest ∧
      d.Moves n paths (before.map Token.type) found ∧
        d.Concludes n first found (depth + before.length) a
          (d.simulate n first rounds depth paths s).1 := by
  have hpos := length_upcoming_pos hat
  induction rounds generalizing depth paths s i with
  | zero => omega
  | succ rounds ih =>
    obtain ⟨t, ht, htoken⟩ := hat.token
    obtain ⟨hpeek, hat'⟩ := hat.peek_one
    obtain rfl := Option.some.inj (ht.symm.trans hpeek)
    obtain ⟨rest, hrest⟩ : ∃ rest, upcoming ts i = (s.peek 1).1 :: rest := by
      rcases htoken with ⟨_, heq⟩ | ⟨_, heq, _⟩
      · exact ⟨_, heq⟩
      · exact ⟨_, heq⟩
    have hhere {r : Except PredictionFailure Prediction}
        (hr : d.Concludes n first paths depth (s.peek 1).1 r) :
        ∃ before a rest found, upcoming ts i = before ++ a :: rest ∧
          d.Moves n paths (before.map Token.type) found ∧
            d.Concludes n first found (depth + before.length) a r :=
      ⟨[], _, rest, paths, hrest, .start, hr⟩
    rw [simulate]
    dsimp only
    split
    · rename_i hreach
      exact hhere (.defect hreach)
    · rename_i next hreach
      split
      · rename_i halts
        obtain rfl : next = [] := by
          refine List.eq_nil_iff_forall_not_mem.mpr fun c hc => ?_
          have hmem := ((Path.alts_spec next).2 c.alt).mpr ⟨c, hc, rfl⟩
          rw [halts] at hmem
          cases hmem
        exact hhere (.stuck hreach)
      · rename_i halts
        exact hhere (.single hreach halts)
      · rename_i alt others hothers halts
        split
        · rename_i hlast
          exact hhere (.several hreach halts hothers ((Bool.or_eq_true _ _).mp hlast))
        · rename_i hopen
          simp only [Bool.or_eq_true, not_or, Bool.not_eq_true] at hopen
          have hlength := length_upcoming_next hat hopen.1
          obtain ⟨_, hcons, _⟩ := htoken.resolve_left (by simp [hopen.1])
          obtain ⟨before, a, rest', found, hnext, hmoves, hconcludes⟩ :=
            ih hat'.consume (depth + 1) next (by omega) (length_upcoming_pos hat'.consume)
          refine ⟨(s.peek 1).1 :: before, a, rest', found, ?_, .token hreach hmoves, ?_⟩
          · rw [hcons, hnext, List.cons_append]
          · rwa [List.length_cons, Nat.add_comm before.length, ← Nat.add_assoc]

/-- A decision follows the paths that it starts with to the token at which they
decide. -/
theorem decide_concludes {hooks : Hooks} {calls calls' : Array HookCall} {state : State}
    (hat : s.At ts i) (hs : n.state? d.state = some state)
    (hsome : state.transitions.isEmpty = false)
    (hrun : (d.start n hooks state.transitions).run calls = (.ok paths, calls')) :
    (d.decide n hooks s calls).2 = calls' ∧ ∃ first before a rest found,
      upcoming ts i = before ++ a :: rest ∧ d.Moves n paths (before.map Token.type) found ∧
        d.Concludes n first found before.length a (d.decide n hooks s calls).1.1 := by
  have hahead := hat.index.2.peek_one.2
  obtain ⟨before, a, rest, found, hupcoming, hmoves, hconcludes⟩ :=
    simulate_concludes (n := n) (d := d) hahead (s.index.2.peek 1).1 0 paths
      (length_upcoming_le hahead)
  rw [Nat.zero_add] at hconcludes
  unfold decide
  rw [Graph.getState_of_state? hs]
  dsimp only
  rw [if_neg (by simp [hsome]), hrun]
  exact ⟨rfl, _, before, a, rest, found, hupcoming, hmoves, hconcludes⟩

/-- What a decision with an outcome has started with. -/
theorem exists_start {hooks : Hooks} {calls : Array HookCall} {p : Prediction}
    (hp : (d.decide n hooks s calls).1.1 = .ok p) :
    ∃ state paths calls', n.state? d.state = some state ∧ state.transitions.isEmpty = false ∧
      (d.start n hooks state.transitions).run calls = (.ok paths, calls') := by
  unfold decide at hp
  cases hstate : n.state? d.state with
  | none =>
    rw [Graph.getState, hstate] at hp
    cases hp
  | some state =>
    rw [Graph.getState_of_state? hstate] at hp
    dsimp only at hp
    split at hp
    · cases hp
    · rename_i hsome
      generalize hrun : (d.start n hooks state.transitions).run calls = result at hp
      obtain ⟨_ | paths, calls'⟩ := result
      · cases hp
      · exact ⟨state, paths, calls', rfl, by simpa using hsome, hrun⟩

/-- The paths on which a decision is taken go the ways of walkers over the tokens in
front of the one at which they decide, and the predicates that count on them were
answered with yes. -/
theorem exists_walked {hooks : Hooks} {calls : Array HookCall} (hat : s.At ts i) {p : Prediction}
    (hp : (d.decide n hooks s calls).1.1 = .ok p) :
    ∃ asked first before a rest found,
      (d.decide n hooks s calls).2.toList = calls.toList ++ asked ∧
        upcoming ts i = before ++ a :: rest ∧
          d.Walked n (Answered asked) (before.map Token.type) found ∧
            d.Concludes n first found before.length a (.ok p) := by
  obtain ⟨state, paths, calls', hstate, hsome, hrun⟩ := exists_start hp
  obtain ⟨hcalls, first, before, a, rest, found, hupcoming, hmoves, hconcludes⟩ :=
    decide_concludes hat hstate hsome hrun
  obtain ⟨asked, hasked, hwalked⟩ := gives_start hooks hstate _ _ _ hrun
  rw [hp] at hconcludes
  rw [hcalls]
  exact ⟨asked, first, before, a, rest, found, hasked, hupcoming, hwalked.moves hmoves, hconcludes⟩

/-- The number of tokens that a decision reports counts those that its paths have
moved over and the one at which they decide.  Where no path can go on, it leaves out
the last one, unless that is the first as well. -/
theorem Concludes.lookahead_eq {depth : Nat} {a : Token} {p : Prediction}
    (h : d.Concludes n first found depth a (.ok p)) :
    (Path.reach n d.stack.length a.type found = .ok [] →
      p.lookahead = max depth 1 ∧ p.conflicting = []) ∧
      (Path.reach n d.stack.length a.type found ≠ .ok [] → p.lookahead = depth + 1) := by
  have hgoes {reached : List Path} (hreach : Path.reach n d.stack.length a.type found = .ok reached)
      {alt : Nat} {others : List Nat} (halts : Path.alts reached = alt :: others) :
      Path.reach n d.stack.length a.type found ≠ .ok [] := by
    intro hstuck
    obtain rfl := Except.ok.inj (hreach.symm.trans hstuck)
    cases halts
  generalize hr : (Except.ok p : Except PredictionFailure Prediction) = r at h
  cases h with
  | defect => cases hr
  | stuck hreach =>
    unfold Decision.stuck at hr
    split at hr
    · obtain rfl := Except.ok.inj hr
      exact ⟨fun _ => ⟨rfl, rfl⟩, fun hgo => absurd hreach hgo⟩
    · cases hr
  | single hreach halts =>
    obtain rfl := Except.ok.inj hr
    exact ⟨fun hstuck => absurd hstuck (hgoes hreach halts), fun _ => rfl⟩
  | several hreach halts =>
    obtain rfl := Except.ok.inj hr
    exact ⟨fun hstuck => absurd hstuck (hgoes hreach halts), fun _ => rfl⟩

/-- Several alternatives are reported where they are left at the end of the input,
or where the lowest is at every place; the lowest is taken. -/
theorem Concludes.of_conflicting {depth : Nat} {a : Token} {p : Prediction}
    (h : d.Concludes n first found depth a (.ok p)) (hconflict : p.conflicting ≠ []) :
    ∃ reached others, Path.reach n d.stack.length a.type found = .ok reached ∧
      Path.alts reached = p.conflicting ∧ p.conflicting = p.alt :: others ∧ others ≠ [] ∧
        (a.isEof = true ∨ Path.coversAll p.alt reached = true) ∧ p.lookahead = depth + 1 := by
  have hgoes : Path.reach n d.stack.length a.type found ≠ .ok [] := fun hstuck =>
    hconflict (h.lookahead_eq.1 hstuck).2
  generalize hr : (Except.ok p : Except PredictionFailure Prediction) = r at h
  cases h with
  | defect => cases hr
  | stuck hreach => exact absurd hreach hgoes
  | single =>
    obtain rfl := Except.ok.inj hr
    exact absurd rfl hconflict
  | several hreach halts hothers hlast =>
    obtain rfl := Except.ok.inj hr
    exact ⟨_, _, hreach, halts, rfl, hothers, hlast, rfl⟩

end Decision

end AdaptiveLL
