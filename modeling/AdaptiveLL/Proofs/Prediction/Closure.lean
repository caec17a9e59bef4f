/-
What the closure of some paths is.

The closure has a path for every place that one of the given paths can come to
without reading a token and that can read one next or ends the outermost rule.  A
path is never blocked by a rule that it is inside of, since open rules are not
called, and the bound on the steps is never met, since the paths are bounded.
-/
import AdaptiveLL.Proofs.Prediction.Bounded

namespace AdaptiveLL

namespace Path

/-- What holds of every path in the closure of some paths. -/
structure Sound (n : Network) (outer : Nat) (starts : List Path) (c : Path) : Prop where
  origin : ∃ o ∈ starts, o.alt = c.alt ∧ Silents n.toGraph o.spot c.spot ∧
    (c.leftRule = true → o.leftRule = true ∨
      ∃ q : Spot, Silents n.toGraph o.spot q ∧ q.stack.length < outer)
  bounded : c.Bounded n starts
  opened : Opened n.toGraph (c.entered.map EnteredRule.rule) c.spot.position

theorem Fresh.sound {n : Network} {outer : Nat} {starts : List Path} {c : Path} (h : c.Fresh n)
    (hc : c ∈ starts) : c.Sound n outer starts where
  origin := ⟨c, hc, rfl, .refl, .inl⟩
  bounded := h.bounded hc
  opened := by
    rw [h.entered]
    exact .none

/-- A path that a closure comes to is one from which a closure can start. -/
theorem Sound.restart {n : Network} {outer : Nat} {origins starts : List Path} {c : Path}
    (h : c.Sound n outer origins) (hc : c ∈ starts) : c.Sound n outer starts where
  origin := ⟨c, hc, rfl, .refl, .inl⟩
  bounded := h.bounded.restart hc
  opened := h.opened

/-- A path can read a token next or has ended the outermost rule. -/
def Live (n : Network) (p : Spot) : Prop :=
  ∃ s, n.state? p.state = some s ∧
    (s.isStop = true ∧ p.stack = [] ∨ s.isStop = false ∧ s.readsNothing = false)

theorem isLive_iff {n : Network} {c : Path} : c.isLive n = true ↔ Live n c.spot := by
  unfold isLive Live spot
  cases n.state? c.state with
  | none => simp
  | some s => cases hstop : s.isStop <;> simp [hstop]

end Path

/-- A silent step on which the host program denies no predicate, whatever it was
asked before. -/
inductive Allowed (n : Network) (host : Option Hooks) : Spot → Spot → Prop where
  | pass {p q s t} (hs : n.state? p.state = some s) (hrun : s.isStop = false)
      (ht : t ∈ s.transitions) (hpermitted : t.Permitted n host) (hpass : p.admits t = true)
      (hq : p.along t = some q) : Allowed n host p q
  | back {p s frame stack} (hs : n.state? p.state = some s) (hstop : s.isStop = true)
      (hstack : p.stack = frame :: stack) : Allowed n host p (Spot.behind frame stack)

theorem Silent.allowed {n : Network} {host : Option Hooks} {p q : Spot} (h : Silent n.toGraph p q)
    (hpermits : n.Permits host) : Allowed n host p q := by
  cases h with
  | pass hs hrun ht hpass hq => exact .pass hs hrun ht (hpermits _ _ hs _ ht) hpass hq
  | back hs hstop hstack => exact .back hs hstop hstack

theorem Silents.allowed {n : Network} {host : Option Hooks} {p q : Spot}
    (h : Silents n.toGraph p q) (hpermits : n.Permits host) :
    Relation.ReflTransGen (Allowed n host) p q :=
  Relation.ReflTransGen.mono (fun _ _ hstep => hstep.allowed hpermits) _ _ h

namespace Network.Orderly

variable {n : Network} {outer : Nat} {starts : List Path}
  {c y : Path}

/-- A path is never blocked by a rule that it is inside of. -/
theorem passes (horder : n.Orderly) (hc : c.Sound n outer starts) {s : State}
    {t : Transition} (hs : n.state? c.state = some s) (hrun : s.isStop = false)
    (ht : t ∈ s.transitions) (hadmits : c.spot.admits t = true) : c.Passes t := by
  refine ⟨hadmits, ?_⟩
  rintro target rule follow level rfl
  have hnot : rule ∉ c.entered.map EnteredRule.rule :=
    horder.not_mem_opened (x := c.spot.position) hc.opened hs hrun ht
  rw [Path.isInside, List.any_eq_false]
  intro e he
  simp only [Bool.and_eq_true, beq_iff_eq, not_and]
  exact fun hrule => absurd (hrule ▸ List.mem_map_of_mem he) hnot

theorem origin_along {o : Path} {s : State} {t : Transition}
    (hsilents : Silents n.toGraph o.spot c.spot) (hs : n.state? c.state = some s)
    (hrun : s.isStop = false) (ht : t ∈ s.transitions) (hy : c.along t = some y)
    (hadmits : c.spot.admits t = true) : Silents n.toGraph o.spot y.spot := by
  refine hsilents.tail (.pass (p := c.spot) hs hrun ht hadmits ?_)
  rw [Path.spot_along, hy]
  rfl

theorem sound_path_along (horder : n.Orderly) (hc : c.Sound n outer starts) {s : State}
    {t : Transition} (hs : n.state? c.state = some s) (hrun : s.isStop = false)
    (ht : t ∈ s.transitions) (hy : c.along t = some y) (hadmits : c.spot.admits t = true) :
    y.Sound n outer starts := by
  obtain ⟨o, ho, halt, hsilents, hleft⟩ := hc.origin
  obtain ⟨halt', hleft'⟩ := Path.alt_along hy
  refine ⟨⟨o, ho, halt.trans halt'.symm, origin_along hsilents hs hrun ht hy hadmits,
    hleft' ▸ hleft⟩,
    hc.bounded.along horder.sealed hs ht hy (horder.passes hc hs hrun ht hadmits), ?_⟩
  have hpass (guarded : Bool) (hsilent : t.isEpsilon = true) (hcall : t.call? = none)
      (hy : y = { c with state := t.target, guarded }) :
      Opened n.toGraph (y.entered.map EnteredRule.rule) y.spot.position := by
    subst hy
    exact Opened.level (s := c.state) hc.opened (horder.level_pass hs hrun ht hsilent hcall)
  cases t with
  | epsilon | predicate | precedence =>
    obtain rfl := Option.some.inj hy
    exact hpass c.guarded rfl rfl rfl
  | action =>
    obtain rfl := Option.some.inj hy
    exact hpass false rfl rfl rfl
  | call start rule follow level =>
    obtain rfl := Option.some.inj hy
    exact horder.opened_call (x := c.spot.position) hc.opened hs hrun ht
  | atom | set | wildcard => cases hy

theorem sound_leave (horder : n.Orderly) (hc : c.Sound n outer starts) {s : State}
    {frame : Frame} {stack : CallStack} (hs : n.state? c.state = some s) (hstop : s.isStop = true)
    (hstack : c.stack = frame :: stack) : (c.leave outer frame stack).Sound n outer starts := by
  obtain ⟨o, ho, halt, hsilents, hleft⟩ := hc.origin
  have hback : Silents n.toGraph o.spot (.behind frame stack) :=
    hsilents.tail (.back (p := c.spot) hs hstop hstack)
  refine ⟨⟨o, ho, halt, hback, fun hgone => ?_⟩, hc.bounded.leave hstack, ?_⟩
  · rcases (Bool.or_eq_true _ _).mp hgone with hgone | hbelow
    · exact hleft hgone
    · exact .inr ⟨_, hback, of_decide_eq_true hbelow⟩
  · rw [hc.bounded.entered_leave hstack]
    have hopened := hc.opened
    rw [Path.spot, Spot.position, hstack] at hopened
    cases hin : c.entered with
    | nil => exact .none
    | cons e rest =>
      rw [hin] at hopened
      exact horder.opened_back hopened hs hstop

/-- The successors of a path stand where it can go without reading a token. -/
theorem returns_successors (horder : n.Orderly) (host : Option Hooks)
    (hc : c.Sound n outer starts) :
    Asking.Returns (c.successors n host outer) fun found => found.length ≤ n.transitionCount + 1 ∧
      (∀ y ∈ found, y.Sound n outer starts) ∧
        ∀ y : Path, (y.alt = c.alt ∧ Allowed n host c.spot y.spot) →
          ∃ z ∈ found, z.key = y.key := by
  obtain ⟨s, hs⟩ := Graph.exists_state (hc.bounded.states _ List.mem_cons_self)
  rw [Path.successors_eq hs]
  rcases Bool.eq_false_or_eq_true s.isStop with hstop | hrun
  · rw [if_pos hstop, Path.leaveRule]
    cases hstack : c.stack with
    | nil =>
      refine Outcome.ofAsking.returns_pure ⟨Nat.zero_le _, by simp, ?_⟩
      rintro y ⟨_, hstep⟩
      generalize y.spot = q at hstep
      cases hstep with
      | pass hs' hrun =>
        obtain rfl := Option.some.inj (hs.symm.trans hs')
        simp [hstop] at hrun
      | back _ _ hstack' => simp [Path.spot, hstack] at hstack'
    | cons frame stack =>
      refine Outcome.ofAsking.returns_pure ⟨Nat.succ_le_succ (Nat.zero_le _), ?_, ?_⟩
      · intro y hy
        obtain rfl := List.mem_singleton.mp hy
        exact horder.sound_leave hc hs hstop hstack
      · rintro y ⟨halt, hstep⟩
        refine ⟨_, List.mem_cons_self, Path.key_eq_of_spot halt.symm ?_⟩
        generalize hq : y.spot = q at hstep
        cases hstep with
        | pass hs' hrun =>
          obtain rfl := Option.some.inj (hs.symm.trans hs')
          simp [hstop] at hrun
        | back _ _ hstack' =>
          obtain ⟨rfl, rfl⟩ := List.cons.inj (hstack.symm.trans hstack')
          rfl
  · rw [if_neg (by simp [hrun])]
    refine Outcome.ofAsking.returns_mono (fun found hfound => ?_)
      (Path.returns_followAll n host c s.transitions)
    obtain ⟨hlength, hsound, hcomplete⟩ := hfound
    refine ⟨?_, fun y hy => ?_, ?_⟩
    · have hle := Graph.length_transitions_le hs
      omega
    · obtain ⟨t, ht, hy, hpasses⟩ := hsound y hy
      exact horder.sound_path_along hc hs hrun ht hy hpasses.1
    · rintro y ⟨halt, hstep⟩
      generalize hq : y.spot = q at hstep
      cases hstep with
      | @pass _ s' t hs' _ ht hpermitted hadmits hq' =>
        obtain rfl := Option.some.inj (hs.symm.trans hs')
        rw [Path.spot_along, Option.map_eq_some_iff] at hq'
        obtain ⟨z, hz, hspot⟩ := hq'
        refine ⟨z, hcomplete t ht hpermitted (horder.passes hc hs hrun ht hadmits) z hz, ?_⟩
        exact Path.key_eq_of_spot ((Path.alt_along hz).1.trans halt.symm) (hspot.trans hq.symm)
      | back hs' hstop =>
        obtain rfl := Option.some.inj (hs.symm.trans hs')
        simp [hrun] at hstop

/-- The closure of some paths has only paths that can read a token next or have
ended the outermost rule, among those that the given ones can come to without
reading a token, and it has each of them on the way to which no predicate is
denied. -/
theorem returns_closure_allowed (horder : n.Orderly) (host : Option Hooks)
    (hstarts : ∀ o ∈ starts, o.Sound n outer starts) :
    Asking.Returns (Path.closure n host outer starts) fun found =>
      (∀ c ∈ found, c.Sound n outer starts ∧ Path.Live n c.spot) ∧
        ∀ o ∈ starts, ∀ q, Relation.ReflTransGen (Allowed n host) o.spot q → Path.Live n q →
          ∃ c ∈ found, c.alt = o.alt ∧ c.spot = q := by
  refine Outcome.ofAsking.returns_bind (explore_closed
    .ofAsking (fun x hx => hx.bounded.key_mem)
    (fun x hx => horder.returns_successors host hx) hstarts
    (Path.length_pathKeys_le n starts)) fun visited hvisited => ?_
  refine Outcome.ofAsking.returns_pure ⟨fun c hc => ?_, fun o ho q hq hlive => ?_⟩
  · obtain ⟨hc, hlive⟩ := List.mem_filter.mp hc
    exact ⟨hvisited.inv c hc, Path.isLive_iff.mp hlive⟩
  · have hreach : ∃ c ∈ visited, c.alt = o.alt ∧ c.spot = q := by
      clear hlive
      induction hq with
      | refl =>
        obtain ⟨c, hc, hkey⟩ := hvisited.covers o ho
        exact ⟨c, hc, Path.alt_eq_of_key hkey⟩
      | @tail q q' _ hstep ih =>
        obtain ⟨c, hc, halt, rfl⟩ := ih
        -- What tells paths apart is the alternative and the spot, so any path will do.
        obtain ⟨y, hy, hspot⟩ : ∃ y : Path, y.alt = c.alt ∧ y.spot = q' :=
          ⟨⟨q'.state, c.alt, q'.stack, q'.precedence, false, true, []⟩, rfl, rfl⟩
        obtain ⟨z, hz, hkey⟩ := hvisited.closed c hc y ⟨hy, hspot ▸ hstep⟩
        obtain ⟨halt', hspot'⟩ := Path.alt_eq_of_key hkey
        exact ⟨z, hz, halt'.trans (hy.trans halt), hspot'.trans hspot⟩
    obtain ⟨c, hc, halt, rfl⟩ := hreach
    exact ⟨c, List.mem_filter.mpr ⟨hc, Path.isLive_iff.mpr hlive⟩, halt, rfl⟩

/-- The closure of some paths has exactly the paths that can read a token next or
have ended the outermost rule, among those that the given ones can come to without
reading a token.  Predicates may block some of them. -/
theorem returns_closure (horder : n.Orderly) (host : Option Hooks)
    (hstarts : ∀ o ∈ starts, o.Sound n outer starts) :
    Asking.Returns (Path.closure n host outer starts) fun found =>
      (∀ c ∈ found, c.Sound n outer starts ∧ Path.Live n c.spot) ∧
        (n.Permits host → ∀ o ∈ starts, ∀ q, Silents n.toGraph o.spot q → Path.Live n q →
          ∃ c ∈ found, c.alt = o.alt ∧ c.spot = q) := by
  refine Outcome.ofAsking.returns_mono (fun found hfound => ?_)
    (horder.returns_closure_allowed host hstarts)
  exact ⟨hfound.1, fun hpermits o ho q hq => hfound.2 o ho q (hq.allowed hpermits)⟩

end Network.Orderly

end AdaptiveLL
