/-
Rules that were entered on the way, without reading a token, and not left since.

A rule that is open in this sense is not called once more: the way from its start to
the second call could be taken again and again, and the network would be walked
forever.  So no more rules are open than there are calls in the network.
-/
import AdaptiveLL.Proofs.Network

namespace AdaptiveLL

/-- A state with the states at which its callers go on. -/
structure Position where
  state : StateId
  returns : List StateId
deriving DecidableEq

def Spot.position (p : Spot) : Position :=
  ⟨p.state, p.stack.returnStates⟩

/-- A step between positions that reads nothing. -/
inductive Move (g : Graph) : Position → Position → Prop where
  | pass {x s t} (hs : g.state? x.state = some s) (hrun : s.isStop = false)
      (ht : t ∈ s.transitions) (hsilent : t.isEpsilon = true) (hcall : t.call? = none) :
      Move g x { x with state := t.target }
  | call {x s t target rule follow level} (hs : g.state? x.state = some s)
      (hrun : s.isStop = false) (ht : t ∈ s.transitions)
      (hcall : t = .call target rule follow level) : Move g x ⟨target, follow :: x.returns⟩
  | back {x s ret rest} (hs : g.state? x.state = some s) (hstop : s.isStop = true)
      (hreturns : x.returns = ret :: rest) : Move g x ⟨ret, rest⟩

abbrev Moves (g : Graph) : Position → Position → Prop :=
  Relation.ReflTransGen (Move g)

/-- The two states are on one level: they belong to one rule, and the network can go
from the first to the second whoever the callers are. -/
structure Level (g : Graph) (s s' : StateId) : Prop where
  moves : ∀ returns, Moves g ⟨s, returns⟩ ⟨s', returns⟩
  rule_eq : ∀ st, g.state? s = some st → ∃ st', g.state? s' = some st' ∧ st'.rule = st.rule

/-- Rules that were entered on the way to a position and not left since, the innermost
first. -/
inductive Opened (g : Graph) : List RuleIndex → Position → Prop where
  | none {x} : Opened g [] x
  | call {rs caller returns cs rule start follow level s}
      (houter : Opened g rs ⟨caller, returns⟩) (hs : g.state? caller = some cs)
      (hrun : cs.isStop = false) (ht : .call start rule follow level ∈ cs.transitions)
      (hlevel : Level g start s) (hrule : ∃ st, g.state? s = some st ∧ st.rule = rule) :
      Opened g (rule :: rs) ⟨s, follow :: returns⟩

section

variable {g : Graph}

theorem Move.drift {p : Spot} {y : Position} (h : Move g p.position y) :
    ∃ q : Spot, q.position = y ∧ Drift g p q := by
  cases h with
  | @pass s t hs hrun ht hsilent hcall =>
    refine ⟨{ p with state := t.target }, rfl, .pass hs hrun ht ?_⟩
    cases t with
    | epsilon | predicate | precedence | action => rfl
    | atom | set | wildcard => cases hsilent
    | call => cases hcall
  | call hs hrun ht hcall =>
    subst hcall
    exact ⟨_, rfl, .pass hs hrun ht rfl⟩
  | back hs hstop hreturns =>
    obtain ⟨frame, stack, hstack, rfl, rfl⟩ := List.map_eq_cons_iff.mp hreturns
    exact ⟨_, rfl, .back hs hstop hstack⟩

theorem Drift.move {p q : Spot} (h : Drift g p q) : Move g p.position q.position := by
  cases h with
  | @pass _ s t hs hrun ht hq =>
    cases t with
    | epsilon | predicate | precedence | action =>
      obtain rfl := Option.some.inj hq
      exact .pass hs hrun ht rfl rfl
    | call =>
      obtain rfl := Option.some.inj hq
      exact .call hs hrun ht rfl
    | atom | set | wildcard => cases hq
  | back hs hstop hstack =>
    refine .back hs hstop ?_
    rw [Spot.position, hstack]
    rfl

theorem Drifts.moves {p q : Spot} (h : Drifts g p q) : Moves g p.position q.position := by
  induction h with
  | refl => exact .refl
  | tail _ hstep ih => exact ih.tail hstep.move

theorem Moves.drifts {p : Spot} {y : Position} (h : Moves g p.position y) :
    ∃ q : Spot, q.position = y ∧ Drifts g p q := by
  induction h with
  | refl => exact ⟨p, rfl, .refl⟩
  | tail _ hstep ih =>
    obtain ⟨q, rfl, hdrifts⟩ := ih
    obtain ⟨q', hq', hdrift⟩ := hstep.drift
    exact ⟨q', hq', hdrifts.tail hdrift⟩

theorem Settles.acc_move {p : Spot} (h : Settles g p) :
    Acc (fun y x => Move g x y) p.position := by
  induction h with
  | intro p _ ih =>
    refine ⟨_, fun y hy => ?_⟩
    obtain ⟨q, rfl, hq⟩ := Move.drift hy
    exact ih q hq

theorem Level.refl (s : StateId) : Level g s s :=
  ⟨fun _ => .refl, fun st hst => ⟨st, hst, rfl⟩⟩

theorem Level.trans {s s' s'' : StateId} (h : Level g s s') (h' : Level g s' s'') :
    Level g s s'' where
  moves returns := (h.moves returns).trans (h'.moves returns)
  rule_eq st hst := by
    obtain ⟨st', hst', heq⟩ := h.rule_eq st hst
    obtain ⟨st'', hst'', heq'⟩ := h'.rule_eq st' hst'
    exact ⟨st'', hst'', heq'.trans heq⟩

namespace Opened

variable {rs : List RuleIndex} {s s' : StateId} {returns : List StateId}

theorem level (h : Opened g rs ⟨s, returns⟩) (hlevel : Level g s s') :
    Opened g rs ⟨s', returns⟩ := by
  cases h with
  | none => exact .none
  | call houter hs hrun ht hinner hrule =>
    obtain ⟨st, hst, rfl⟩ := hrule
    exact .call houter hs hrun ht (hinner.trans hlevel) (hlevel.rule_eq st hst)

/-- The innermost open rule is the rule of the state. -/
theorem rule_eq {rule : RuleIndex} {x : Position} {st : State} (h : Opened g (rule :: rs) x)
    (hst : g.state? x.state = some st) : st.rule = rule := by
  cases h with
  | call _ _ _ _ _ hrule =>
    obtain ⟨st', hst', heq⟩ := hrule
    obtain rfl : st = st' := Option.some.inj (hst.symm.trans hst')
    exact heq

/-- The way from the start of an open rule can be taken under any callers. -/
theorem climbs {x : Position} {rule : RuleIndex} (h : Opened g rs x) (hrule : rule ∈ rs) :
    ∃ caller cs start follow level, g.state? caller = some cs ∧ cs.isStop = false ∧
      .call start rule follow level ∈ cs.transitions ∧
      ∃ top, ∀ below, Moves g ⟨start, below⟩ ⟨x.state, top ++ below⟩ := by
  induction h with
  | none => cases hrule
  | @call rs caller returns cs rule' start follow level s houter hs hrun ht hlevel _ ih =>
    rcases List.mem_cons.mp hrule with rfl | hrule
    · exact ⟨caller, cs, start, follow, level, hs, hrun, ht, [], hlevel.moves⟩
    · obtain ⟨caller', cs', start', follow', level', hs', hrun', ht', top, hclimb⟩ := ih hrule
      refine ⟨caller', cs', start', follow', level', hs', hrun', ht', follow :: top,
        fun below => ?_⟩
      refine ((hclimb below).tail (.call (x := ⟨caller, top ++ below⟩) hs hrun ht rfl)).trans ?_
      exact hlevel.moves (follow :: top ++ below)

end Opened

end

/-- A move can be made above any callers. -/
theorem Move.lift {g : Graph} {x y : Position} (h : Move g x y) (below : List StateId) :
    Move g ⟨x.state, x.returns ++ below⟩ ⟨y.state, y.returns ++ below⟩ := by
  cases h with
  | pass hs hrun ht hsilent hcall => exact .pass (x := ⟨x.state, _⟩) hs hrun ht hsilent hcall
  | call hs hrun ht hcall => exact .call (x := ⟨x.state, _⟩) hs hrun ht hcall
  | back hs hstop hreturns =>
    refine .back (x := ⟨x.state, _⟩) hs hstop ?_
    rw [hreturns]
    rfl

theorem Moves.lift {g : Graph} {x y : Position} (h : Moves g x y) (below : List StateId) :
    Moves g ⟨x.state, x.returns ++ below⟩ ⟨y.state, y.returns ++ below⟩ := by
  induction h with
  | refl => exact .refl
  | tail _ hstep ih => exact ih.tail (hstep.lift below)

theorem Graph.mem_calls {g : Graph} {id : StateId} {s : State} {start follow : StateId}
    {rule : RuleIndex} {level : Int} (hs : g.state? id = some s)
    (ht : .call start rule follow level ∈ s.transitions) :
    (start, rule, follow, level) ∈ g.calls := by
  refine List.mem_flatMap.mpr ⟨s, ?_, List.mem_filterMap.mpr ⟨_, ht, rfl⟩⟩
  exact Array.mem_toList_iff.mpr (Array.mem_of_getElem? hs)

theorem Graph.exists_of_mem_calls {g : Graph} {start follow : StateId} {rule : RuleIndex}
    {level : Int} (h : (start, rule, follow, level) ∈ g.calls) :
    ∃ (id : Nat) (s : State), g.state? id = some s ∧
      .call start rule follow level ∈ s.transitions := by
  obtain ⟨s, hs, hcall⟩ := List.mem_flatMap.mp h
  obtain ⟨id, hid, rfl⟩ := List.mem_iff_getElem.mp hs
  obtain ⟨t, ht, heq⟩ := List.mem_filterMap.mp hcall
  refine ⟨id, g.states.toList[id], ?_, ?_⟩
  · rw [state?, ← Array.getElem?_toList]
    exact List.getElem?_eq_getElem hid
  · cases t with
    | call =>
      obtain ⟨rfl, rfl, rfl, rfl⟩ := by simpa [Transition.call?] using heq
      exact ht
    | _ => cases heq

/-- What reads nothing stays in its rule or calls another, no rule calls itself
before it reads a token, and the look-ahead sets are those of the walk. -/
structure Network.Orderly (n : Network) : Prop where
  target_state : ∀ {id : Nat} {s : State} {t : Transition}, n.state? id = some s →
    t ∈ s.transitions → t.isEpsilon = true → t.call? = none →
      ∃ s', n.state? t.target = some s' ∧ s'.rule = s.rule
  follow_state :
    ∀ {id : Nat} {s : State} {start follow : StateId} {callee : RuleIndex} {level : Int},
    n.state? id = some s → .call start callee follow level ∈ s.transitions →
      ∃ s', n.state? follow = some s' ∧ s'.rule = s.rule
  start_state :
    ∀ {id : Nat} {s : State} {start follow : StateId} {callee : RuleIndex} {level : Int},
    n.state? id = some s → .call start callee follow level ∈ s.transitions →
      ∃ s', n.state? start = some s' ∧ s'.rule = callee
  calls_once : ∀ {id id' : Nat} {s s' : State} {start start' follow follow' : StateId}
    {callee : RuleIndex} {level level' : Int} {top : List StateId}, n.state? id = some s →
      .call start callee follow level ∈ s.transitions → Moves n.toGraph ⟨start, []⟩ ⟨id', top⟩ →
        n.state? id' = some s' → s'.isStop = false →
          .call start' callee follow' level' ∉ s'.transitions
  next_eq : ∀ id : Nat, id < n.states.size → n.next id = n.toGraph.lookInRule id

namespace Network.Runs

variable {n : Network} {v : Vocabulary} {rules : List Rule}

/-- The way from a position to a higher one on the same state cannot be taken
forever. -/
theorem not_climbs (hruns : n.Runs v rules) {start follow : StateId} {top : List StateId} :
    ¬ ∀ below, Relation.TransGen (Move n.toGraph) ⟨start, below⟩
      ⟨start, follow :: top ++ below⟩ := by
  intro hclimb
  have hacc := ((hruns.settles ⟨start, 0, []⟩).acc_move).transGen
  obtain ⟨x, hx, hstart⟩ : ∃ x, x = (⟨start, 0, []⟩ : Spot).position ∧
      ∃ below, x = ⟨start, below⟩ := ⟨_, rfl, [], rfl⟩
  rw [← hx] at hacc
  clear hx
  induction hacc with
  | intro x _ ih =>
    obtain ⟨below, rfl⟩ := hstart
    refine ih ⟨start, follow :: top ++ below⟩ ?_ ⟨_, rfl⟩
    exact Relation.transGen_swap.mpr (hclimb below)

/-- The network of a grammar is in order. -/
theorem orderly (hruns : n.Runs v rules) : n.Orderly where
  target_state hs ht _ := hruns.laid.target_state hs ht
  follow_state := hruns.laid.follow_state
  start_state := hruns.laid.start_state
  calls_once := by
    intro id id' s s' start start' follow follow' callee level level' top hs ht hmoves hs' hrun ht'
    obtain ⟨_, span, _, _, hlaid, rfl⟩ := hruns.laid.call_target hs ht
    obtain ⟨_, span', _, _, hlaid', rfl⟩ := hruns.laid.call_target hs' ht'
    obtain rfl := Option.some.inj (hlaid.span_eq.symm.trans hlaid'.span_eq)
    exact hruns.not_climbs fun below =>
      .tail' (hmoves.lift below) (.call (x := ⟨id', top ++ below⟩) hs' hrun ht' rfl)
  next_eq := hruns.next_eq

end Network.Runs

namespace Network.Orderly

variable {n : Network}

theorem level_pass (horder : n.Orderly) {s : StateId} {st : State} {t : Transition}
    (hs : n.state? s = some st) (hrun : st.isStop = false) (ht : t ∈ st.transitions)
    (hsilent : t.isEpsilon = true) (hcall : t.call? = none) : Level n.toGraph s t.target where
  moves returns := .single (.pass (x := ⟨s, returns⟩) hs hrun ht hsilent hcall)
  rule_eq st' hst' := by
    obtain rfl := Option.some.inj (hs.symm.trans hst')
    exact horder.target_state hs ht hsilent hcall

/-- A call that has come to the end of its rule is a step on the level of the caller. -/
theorem level_over (horder : n.Orderly) {caller s start follow : StateId} {cs st : State}
    {rule : RuleIndex} {level : Int} (hs : n.state? caller = some cs) (hrun : cs.isStop = false)
    (ht : .call start rule follow level ∈ cs.transitions) (hlevel : Level n.toGraph start s)
    (hst : n.state? s = some st) (hstop : st.isStop = true) : Level n.toGraph caller follow where
  moves returns := by
    refine .head (.call (x := ⟨caller, returns⟩) hs hrun ht rfl) ?_
    exact (hlevel.moves (follow :: returns)).tail
      (.back (x := ⟨s, follow :: returns⟩) hst hstop rfl)
  rule_eq st' hst' := by
    obtain rfl := Option.some.inj (hs.symm.trans hst')
    exact horder.follow_state hs ht

/-- At the end of the innermost open rule the others stay open. -/
theorem opened_back (horder : n.Orderly) {rs : List RuleIndex} {rule : RuleIndex}
    {s ret : StateId} {returns : List StateId} {st : State}
    (h : Opened n.toGraph (rule :: rs) ⟨s, ret :: returns⟩) (hst : n.state? s = some st)
    (hstop : st.isStop = true) : Opened n.toGraph rs ⟨ret, returns⟩ := by
  cases h with
  | call houter hs hrun ht hinner =>
    exact houter.level (horder.level_over hs hrun ht hinner hst hstop)

theorem opened_call (horder : n.Orderly) {rs : List RuleIndex} {x : Position} {st : State}
    {start follow : StateId} {rule : RuleIndex} {level : Int} (hopened : Opened n.toGraph rs x)
    (hs : n.state? x.state = some st) (hrun : st.isStop = false)
    (ht : .call start rule follow level ∈ st.transitions) :
    Opened n.toGraph (rule :: rs) ⟨start, follow :: x.returns⟩ :=
  .call hopened hs hrun ht (.refl start) (horder.start_state hs ht)

/-- A rule that is open is not called. -/
theorem not_mem_opened (horder : n.Orderly) {rs : List RuleIndex} {x : Position} {st : State}
    {start follow : StateId} {rule : RuleIndex} {level : Int} (hopened : Opened n.toGraph rs x)
    (hs : n.state? x.state = some st) (hrun : st.isStop = false)
    (ht : .call start rule follow level ∈ st.transitions) : rule ∉ rs := by
  intro hrule
  obtain ⟨caller, cs, start', follow', level', hs', _, ht', top, hclimb⟩ := hopened.climbs hrule
  exact horder.calls_once hs' ht' (hclimb []) hs hrun ht

theorem nodup_opened (horder : n.Orderly) {rs : List RuleIndex} {x : Position}
    (hopened : Opened n.toGraph rs x) : rs.Nodup := by
  induction hopened with
  | none => exact List.nodup_nil
  | call houter hs hrun ht _ _ ih =>
    exact List.nodup_cons.mpr ⟨horder.not_mem_opened houter hs hrun ht, ih⟩

/-- No more rules are open than the network has calls. -/
theorem length_opened_le (horder : n.Orderly) {rs : List RuleIndex} {x : Position}
    (hopened : Opened n.toGraph rs x) : rs.length ≤ n.calls.length := by
  have hsub : rs ⊆ n.calls.map fun call => call.2.1 := by
    intro rule hrule
    obtain ⟨_, _, start, follow, level, hs, _, ht, _⟩ := hopened.climbs hrule
    exact List.mem_map.mpr ⟨_, Graph.mem_calls hs ht, rfl⟩
  have hle := (List.subperm_of_subset (horder.nodup_opened hopened) hsub).length_le
  rwa [List.length_map] at hle

end Network.Orderly

end AdaptiveLL
