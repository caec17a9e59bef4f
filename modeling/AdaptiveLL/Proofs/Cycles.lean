/-
No way that reads nothing comes back.

Under the same callers a state is not come back to, since the network settles.  It
is not come back to with more callers either.  The way there would have to go below
the callers it began under, or it could be taken again on top of itself.  The first
caller that it comes back to then calls the rule of the state once more, and at the
end of the way that rule is open twice.
-/
import AdaptiveLL.Proofs.Lookahead.Exact
import Mathlib.Data.List.Chain

namespace AdaptiveLL

/-- If the position has a caller, the rule of its state is what the caller called. -/
def Graph.CalledFrom (g : Graph) (x : Position) : Prop :=
  ∀ ret ∈ x.returns.head?, ∃ s, g.state? x.state = some s ∧
    ∃ call ∈ g.calls, call.2.1 = s.rule ∧ call.2.2.1 = ret

/-- A way that reads nothing leaves some of the callers it begins under and stays
above the others from then on. -/
theorem Moves.lowest {g : Graph} {state : StateId} {returns : List StateId} {y : Position}
    (h : Moves g ⟨state, returns⟩ y) : ∃ gone below bottom top, returns = gone ++ below ∧
      y.returns = top ++ below ∧ Moves g ⟨bottom, []⟩ ⟨y.state, top⟩ ∧
        (gone = [] → bottom = state) := by
  induction returns generalizing state with
  | nil => exact ⟨[], [], state, y.returns, rfl, (List.append_nil _).symm, h, fun _ => rfl⟩
  | cons ret rest ih =>
    rcases h.split with ⟨top, hreturns, hmoves⟩ | ⟨_, _, stop, s, hreturns, _, _, _, hrest⟩
    · exact ⟨[], ret :: rest, state, top, rfl, hreturns, hmoves, fun _ => rfl⟩
    · obtain ⟨rfl, rfl⟩ := List.cons.inj hreturns
      obtain ⟨gone, below, bottom, top, hbelow, htop, hmoves, _⟩ := ih hrest
      refine ⟨ret :: gone, below, bottom, top, ?_, htop, hmoves, by simp⟩
      rw [hbelow, List.cons_append]

/-- Open rules whose callers are all known were called by them. -/
theorem Opened.forall₂_called {g : Graph} {rs : List RuleIndex} {x : Position} (h : Opened g rs x)
    (hlength : rs.length = x.returns.length) :
    List.Forall₂ (fun rule ret => ∃ call ∈ g.calls, call.2.1 = rule ∧ call.2.2.1 = ret) rs
      x.returns := by
  induction h with
  | @none x =>
    rw [List.eq_nil_of_length_eq_zero hlength.symm]
    exact .nil
  | call _ hs _ ht _ _ ih =>
    exact .cons ⟨_, Graph.mem_calls hs ht, rfl, rfl⟩ (ih (Nat.succ.inj hlength))

/-- All the rules entered on a way that begins without callers are open at its end. -/
theorem Network.Orderly.opened_moves {n : Network} (horder : n.Orderly) {bottom : StateId}
    {y : Position} (h : Moves n.toGraph ⟨bottom, []⟩ y) :
    ∃ rs, Opened n.toGraph rs y ∧ rs.length = y.returns.length := by
  induction h with
  | refl => exact ⟨[], .none, rfl⟩
  | @tail y _ _ hstep ih =>
    obtain ⟨rs, hopened, hlength⟩ := ih
    cases hstep with
    | pass hs hrun ht hsilent hcall =>
      exact ⟨rs, hopened.level (horder.level_pass hs hrun ht hsilent hcall), hlength⟩
    | call hs hrun ht hcall =>
      subst hcall
      exact ⟨_, horder.opened_call hopened hs hrun ht, by simp [hlength]⟩
    | back hs hstop hreturns =>
      obtain ⟨state, _⟩ := y
      obtain rfl := hreturns
      obtain ⟨rule, rs, rfl⟩ := List.exists_cons_of_length_eq_add_one hlength
      exact ⟨rs, horder.opened_back hopened hs hstop, Nat.succ.inj hlength⟩

namespace Network.Runs

variable {n : Network} {v : Vocabulary} {rules : List Rule} {x : Position}

/-- A state that calls a rule has no other transition. -/
theorem transitions_of_call (hruns : n.Runs v rules) {id : Nat} {s : State} {t : Transition}
    (hs : n.state? id = some s) (ht : t ∈ s.transitions) (hcall : t.call? ≠ none) :
    s.transitions = [t] := by
  obtain ⟨_, _, _, _, _, _, hform⟩ := hruns.laid.form_of_mem hs ht
  generalize s.transitions = ts at ht hform
  cases hform with
  | edge => rw [List.mem_singleton.mp ht]
  | hop =>
    obtain rfl := List.mem_singleton.mp ht
    exact absurd rfl hcall
  | block =>
    obtain ⟨_, _, rfl⟩ := List.mem_map.mp ht
    exact absurd rfl hcall
  | loop => rcases List.mem_pair.mp ht with rfl | rfl <;> exact absurd rfl hcall

/-- Calls that come back to one state are one call. -/
theorem call_eq (hruns : n.Runs v rules) {call call' : StateId × RuleIndex × StateId × Int}
    (hcall : call ∈ n.calls) (hcall' : call' ∈ n.calls) (hfollow : call.2.2.1 = call'.2.2.1) :
    call = call' := by
  obtain ⟨start, callee, follow, level⟩ := call
  obtain ⟨start', callee', follow', level'⟩ := call'
  obtain ⟨id, s, hs, ht⟩ := Graph.exists_of_mem_calls hcall
  obtain ⟨id', s', hs', ht'⟩ := Graph.exists_of_mem_calls hcall'
  obtain rfl : follow = follow' := hfollow
  have hid : follow = id + 1 := hruns.laid.callsNext hs _ _ _ _ ht
  obtain rfl : id = id' := Nat.succ.inj (hid.symm.trans (hruns.laid.callsNext hs' _ _ _ _ ht'))
  obtain rfl := Option.some.inj (hs.symm.trans hs')
  rw [hruns.transitions_of_call hs ht (by simp [Transition.call?]), List.mem_singleton] at ht'
  obtain ⟨rfl, rfl, rfl, rfl⟩ := by simpa using ht'
  rfl

/-- The network does not come back to a position. -/
theorem not_returns (hruns : n.Runs v rules) : ¬Relation.TransGen (Move n.toGraph) x x := by
  have hacc := ((hruns.settles ⟨x.state, 0, x.returns.map (⟨·, 0⟩)⟩).acc_move).transGen
  have hx : (⟨x.state, 0, x.returns.map (⟨·, 0⟩)⟩ : Spot).position = x := by
    simp [Spot.position, CallStack.returnStates, Function.comp_def]
  rw [hx] at hacc
  clear hx
  induction hacc with
  | intro x _ ih => exact fun h => ih x (Relation.transGen_swap.mpr h) h

/-- The network does not come back to a state with more callers on top of those that
called its rule. -/
theorem not_ascends (hruns : n.Runs v rules) (hcalled : n.CalledFrom x) {follow : StateId}
    {top : List StateId} : ¬Moves n.toGraph x ⟨x.state, follow :: top ++ x.returns⟩ := by
  intro h
  obtain ⟨state, returns⟩ := x
  obtain ⟨gone, below, bottom, up, rfl, hup, hmoves, hbottom⟩ := h.lowest
  dsimp only at hup hmoves hcalled
  obtain rfl : follow :: top ++ gone = up := by
    rw [← List.append_assoc] at hup
    exact List.append_cancel_right hup
  cases gone with
  | nil =>
    -- The way never goes below the callers it began under.
    obtain rfl := hbottom rfl
    rw [List.append_nil] at hmoves
    have hclimbs (returns : List StateId) : Relation.TransGen (Move n.toGraph) ⟨bottom, returns⟩
        ⟨bottom, follow :: top ++ returns⟩ := by
      rcases Relation.reflTransGen_iff_eq_or_transGen.mp (hmoves.lift returns) with heq | hway
      · have hreturns : follow :: top ++ returns = returns := congrArg Position.returns heq
        have hlength := congrArg List.length hreturns
        simp only [List.length_append, List.length_cons] at hlength
        omega
      · exact hway
    exact hruns.not_climbs hclimbs
  | cons ret gone =>
    -- The caller that was left last is come back to by a call of the same rule.
    obtain ⟨rs, hopened, hlength⟩ := hruns.orderly.opened_moves hmoves
    obtain ⟨s, hs, call, hcall, hrule, hret⟩ := hcalled ret rfl
    have hcalls := hopened.forall₂_called hlength
    obtain ⟨rule, rs, rfl⟩ := List.exists_cons_of_length_eq_add_one hlength
    obtain rfl : s.rule = rule := hopened.rule_eq hs
    have hbelow := List.forall₂_drop_append _ (follow :: top) (ret :: gone) hcalls
    obtain ⟨rule, rest, ⟨call', hcall', hrule', hret'⟩, _, hdrop⟩ :=
      List.forall₂_cons_right_iff.mp hbelow
    obtain rfl := hruns.call_eq hcall hcall' (hret.trans hret'.symm)
    obtain rfl : s.rule = rule := hrule.symm.trans hrule'
    have hagain : s.rule ∈ rs := List.mem_of_mem_drop (hdrop ▸ List.mem_cons_self)
    exact (List.nodup_cons.mp (hruns.orderly.nodup_opened hopened)).1 hagain

end Network.Runs

/-- A network of a grammar has no way that reads nothing and comes back to its
state, be it under the same callers or, if these called the rule of the state, under
more callers on top of them. -/
theorem Definition.no_silent_cycle {d : Definition} {g : Grammar} (hbuild : d.build = .ok g)
    (x : Position) : ¬Relation.TransGen (Move g.network.toGraph) x x ∧
      (g.network.CalledFrom x → ∀ top,
        ¬Relation.TransGen (Move g.network.toGraph) x ⟨x.state, top ++ x.returns⟩) := by
  obtain ⟨rules, _, _, hruns⟩ := Definition.runs_of_build hbuild
  refine ⟨hruns.not_returns, fun hcalled top hway => ?_⟩
  cases top with
  | nil => exact hruns.not_returns hway
  | cons follow top => exact hruns.not_ascends hcalled hway.to_reflTransGen

/-- Words in a row, of which each begins with a mark that can be missing. -/
def marked : Definition where
  name := "Marked"
  rules := [
    { name := "s", body := .seq [.rule "row" 0, .eof] },
    { name := "row", body := .star (.rule "word" 0) },
    { name := "word", body := .seq [.rule "mark" 0, .literal "z"] },
    { name := "mark", body := .optional (.literal "y") }]

theorem no_silent_cycle_marked :
    let n := (marked.grammar (by decide +kernel)).network
    ∀ top, ¬Relation.TransGen (Move n.toGraph) ⟨6, [20, 16, 9]⟩ ⟨6, top ++ [20, 16, 9]⟩ := by
  intro n
  obtain ⟨_, hascends⟩ := Definition.no_silent_cycle (marked.build_eq (by decide +kernel))
    ⟨6, [20, 16, 9]⟩
  refine hascends fun ret hret => ?_
  obtain rfl : 20 = ret := Option.some.inj hret
  obtain ⟨s, hs, hshape⟩ : ∃ s, n.state? 6 = some s ∧ s.shape = ⟨.ruleStart, 3, [.epsilon 23]⟩ :=
    Graph.state?_of_shape? (by decide +kernel)
  have hrule : s.rule = 3 := congrArg Shape.rule hshape
  exact ⟨s, hs, (6, 3, 20, 0), by decide +kernel, hrule.symm, rfl⟩

/-- Where the network can go from a position in one step that reads nothing. -/
def Graph.movesFrom (g : Graph) (x : Position) : List Position :=
  (g.lookNext ⟨x.state, x.returns.map (⟨·, 0⟩), []⟩).map LookVisit.position

theorem Graph.move_of_movesFrom {g : Graph} {x y : Position} (h : y ∈ g.movesFrom x) :
    Move g x y := by
  obtain ⟨z, hz, rfl⟩ := List.mem_map.mp h
  have hmove := Graph.move_of_lookNext hz
  simpa [LookVisit.position, CallStack.returnStates, Function.comp_def] using hmove

/-- Under a caller that called another rule a way can come back with more callers:
the mark is missing, and the row goes on with a word that begins with a mark
again. -/
theorem silent_cycle_marked :
    let n := (marked.grammar (by decide +kernel)).network
    ∃ top, top ≠ [] ∧ Relation.TransGen (Move n.toGraph) ⟨6, [16]⟩ ⟨6, top ++ [16]⟩ := by
  intro n
  have hway : List.IsChain (fun x y => y ∈ n.movesFrom x) [(⟨6, [16]⟩ : Position), ⟨23, [16]⟩,
      ⟨27, [16]⟩, ⟨28, [16]⟩, ⟨24, [16]⟩, ⟨7, [16]⟩, ⟨16, []⟩, ⟨14, []⟩, ⟨17, []⟩,
      ⟨12, []⟩, ⟨13, []⟩, ⟨15, []⟩, ⟨4, [16]⟩, ⟨19, [16]⟩, ⟨6, [20, 16]⟩] := by
    decide +kernel
  have hmoves := List.relationReflTransGen_of_exists_isChain _
    (hway.imp fun _ _ => Graph.move_of_movesFrom) (List.cons_ne_nil _ _)
  refine ⟨[20], by simp, ?_⟩
  exact (Relation.reflTransGen_iff_eq_or_transGen.mp hmoves).resolve_left (by decide)

end AdaptiveLL
