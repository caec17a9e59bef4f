/-
What reading a token makes of some paths.

Reading a token takes every path by every transition that accepts it to every place
where a path can read the next token or has ended the outermost rule.  Paths that
had ended the outermost rule before may stay, but not beside one that ends it only
now.
-/
import AdaptiveLL.Proofs.Outermost
import AdaptiveLL.Proofs.Prediction.Closure

namespace AdaptiveLL

/-- What completes a word goes on, without reading a token, to where it can read the
first one or where it has ended the outermost rule. -/
theorem Completes.ready {g : Graph} {p : Spot} {w : List TokenType} (h : Completes g p w) :
    ∃ q, Silents g p q ∧ (g.isStop q.state = true ∧ q.stack = [] ∧ w = [] ∨
      ∃ s t a w', g.state? q.state = some s ∧ s.isStop = false ∧ t ∈ s.transitions ∧
        t.accepts g.maxType a = true ∧ w = a :: w' ∧
          Completes g { q with state := t.target } w') := by
  obtain ⟨m, hm⟩ := h
  induction hm with
  | done hstop hstack => exact ⟨_, .refl, .inl ⟨hstop, hstack, rfl⟩⟩
  | silent hstep _ ih =>
    obtain ⟨q, hsilents, hq⟩ := ih
    exact ⟨q, .head hstep hsilents, hq⟩
  | read hs hrun ht ha hrest =>
    exact ⟨_, .refl, .inr ⟨_, _, _, _, hs, hrun, ht, ha, rfl, _, hrest⟩⟩

theorem Transition.isEpsilon_of_accepts {t : Transition} {maxType a : TokenType}
    (h : t.accepts maxType a = true) : t.isEpsilon = false := by
  cases t with
  | atom | set | wildcard => rfl
  | _ => cases h

section Alts

theorem Path.mem_insertAlt {alt a : Nat} {as : List Nat} :
    a ∈ insertAlt alt as ↔ a = alt ∨ a ∈ as := by
  induction as with
  | nil => simp [insertAlt]
  | cons b rest ih =>
    rw [insertAlt]
    split
    · simp
    · split
      · rename_i heq
        simp [heq]
      · simp only [List.mem_cons, ih, or_left_comm]

theorem Path.pairwise_insertAlt {alt : Nat} {as : List Nat} (h : as.Pairwise (· < ·)) :
    (insertAlt alt as).Pairwise (· < ·) := by
  induction as with
  | nil => exact List.pairwise_singleton _ _
  | cons b rest ih =>
    obtain ⟨hb, hrest⟩ := List.pairwise_cons.mp h
    rw [insertAlt]
    split
    · rename_i hlt
      refine List.pairwise_cons.mpr ⟨fun a ha => ?_, h⟩
      rcases List.mem_cons.mp ha with rfl | ha
      · exact hlt
      · exact Nat.lt_trans hlt (hb a ha)
    · split
      · exact h
      · refine List.pairwise_cons.mpr ⟨fun a ha => ?_, ih hrest⟩
        rcases mem_insertAlt.mp ha with rfl | ha
        · omega
        · exact hb a ha

/-- The alternatives of some paths, ascending. -/
theorem Path.alts_spec (paths : List Path) : (alts paths).Pairwise (· < ·) ∧
    ∀ a, a ∈ alts paths ↔ ∃ c ∈ paths, c.alt = a := by
  have hfold : ∀ (paths : List Path) (acc : List Nat), acc.Pairwise (· < ·) →
      (paths.foldl (fun acc c => insertAlt c.alt acc) acc).Pairwise (· < ·) ∧
        ∀ a, a ∈ paths.foldl (fun acc c => insertAlt c.alt acc) acc ↔
          a ∈ acc ∨ ∃ c ∈ paths, c.alt = a := by
    intro paths
    induction paths with
    | nil => exact fun acc hacc => ⟨hacc, by simp⟩
    | cons c paths ih =>
      intro acc hacc
      obtain ⟨hsorted, hmem⟩ := ih _ (pairwise_insertAlt hacc)
      refine ⟨hsorted, fun a => (hmem a).trans ?_⟩
      simp only [mem_insertAlt, List.mem_cons, exists_eq_or_imp, or_assoc, or_left_comm,
        eq_comm (a := a)]
  obtain ⟨hsorted, hmem⟩ := hfold paths [] List.Pairwise.nil
  exact ⟨hsorted, fun a => by simp [alts, hmem]⟩

theorem Path.same_iff {c d : Path} : c.same d = true ↔ c.alt = d.alt ∧ c.spot = d.spot := by
  rw [← key_inj]
  exact ⟨alt_eq_of_key, fun h => key_eq_of_spot h.1 h.2⟩

/-- What covers all paths has a path at the spot of each. -/
theorem Path.exists_of_coversAll {alt : Nat} {paths : List Path}
    (h : coversAll alt paths = true) {c : Path} (hc : c ∈ paths) :
    ∃ d ∈ paths, d.alt = alt ∧ d.spot = c.spot := by
  have hcover := List.all_eq_true.mp h c hc
  rcases (Bool.or_eq_true _ _).mp hcover with halt | hkey
  · exact ⟨c, hc, eq_of_beq halt, rfl⟩
  · let _ : BEq PathKey := beqOfOrd
    rw [Std.TreeSet.contains_ofList, List.contains_iff_mem] at hkey
    obtain ⟨d, hd, heq⟩ := List.mem_map.mp hkey
    obtain ⟨hd, halt⟩ := List.mem_filter.mp hd
    refine ⟨d, hd, eq_of_beq halt, (alt_eq_of_key (y := { c with alt }) heq).2⟩

theorem Path.mem_foldl_addTo (finished reached : List Path) (c : Path) :
    (c ∈ finished.foldl addTo reached → c ∈ reached ∨ c ∈ finished) ∧
      (c ∈ reached → c ∈ finished.foldl addTo reached) ∧
        (c ∈ finished → ∃ d ∈ finished.foldl addTo reached, d.alt = c.alt ∧ d.spot = c.spot) := by
  induction finished generalizing reached c with
  | nil => simp
  | cons f finished ih =>
    rw [List.foldl_cons]
    obtain ⟨hsound, hkeep, hadd⟩ := ih (addTo reached f) c
    have hmono (d : Path) (hd : d ∈ reached) : d ∈ addTo reached f := by
      unfold addTo
      split
      · exact hd
      · exact List.mem_append_left _ hd
    refine ⟨fun hc => ?_, fun hc => hkeep (hmono c hc), fun hc => ?_⟩
    · rcases hsound hc with hc | hc
      · unfold addTo at hc
        split at hc
        · exact .inl hc
        · rcases List.mem_append.mp hc with hc | hc
          · exact .inl hc
          · exact .inr (List.mem_cons.mpr (.inl (List.mem_singleton.mp hc)))
      · exact .inr (List.mem_cons_of_mem _ hc)
    · rcases List.mem_cons.mp hc with rfl | hc
      · obtain ⟨d, hd, hsame⟩ : ∃ d ∈ addTo reached c, c.same d = true := by
          unfold addTo
          split
          · rename_i hany
            exact List.any_eq_true.mp hany
          · exact ⟨c, List.mem_append_right _ List.mem_cons_self, same_iff.mpr ⟨rfl, rfl⟩⟩
        obtain ⟨halt, hspot⟩ := same_iff.mp hsame
        exact ⟨d, (ih _ d).2.1 hd, halt.symm, hspot.symm⟩
      · exact hadd hc

end Alts

namespace Path

/-- The second path comes from the first by reading a token, and stands where it can
read the next one or has ended the outermost rule. -/
def Advanced (n : Network) (t : TokenType) (o c : Path) : Prop :=
  o.alt = c.alt ∧ ∃ s tr, n.state? o.state = some s ∧ s.isStop = false ∧ tr ∈ s.transitions ∧
    tr.accepts n.maxType t = true ∧
      Silents n.toGraph { o.spot with state := tr.target } c.spot ∧ Live n c.spot

theorem Advanced.live {n : Network} {t : TokenType} {o c : Path} (h : Advanced n t o c) :
    Live n c.spot := by
  obtain ⟨_, _, _, _, _, _, _, _, hlive⟩ := h
  exact hlive

theorem Live.stack_eq_nil {n : Network} {p : Spot} (h : Live n p)
    (hstop : n.isStop p.state = true) : p.stack = [] := by
  obtain ⟨s, hs, ⟨_, hstack⟩ | ⟨hrun, _⟩⟩ := h
  · exact hstack
  · rw [Graph.isStop, hs] at hstop
    exact absurd hstop (by simp [hrun])

/-- What reading a token makes of some paths. -/
structure Reached (n : Network) (t : TokenType) (paths found : List Path) : Prop where
  sound : ∀ c ∈ found, c ∈ paths ∧ n.isStop c.state = true ∨ ∃ o ∈ paths, Advanced n t o c
  complete : ∀ o ∈ paths, ∀ c, Advanced n t o c → ∃ d ∈ found, d.alt = c.alt ∧ d.spot = c.spot
  /-- At the end of the input the paths that ended before stay. -/
  ended : t = .eof → ∀ o ∈ paths, n.isStop o.state = true →
    ∃ d ∈ found, d.alt = o.alt ∧ d.spot = o.spot
  /-- Before the end of the input they do not stay beside a path that ends only now. -/
  fresh : t ≠ .eof → (∃ o ∈ paths, ∃ c, Advanced n t o c ∧ n.isStop c.state = true) →
    ∀ c ∈ found, ∃ o ∈ paths, Advanced n t o c

theorem mem_advance {n : Network} {t : TokenType} {c d : Path} (h : d ∈ advance n t c) :
    ∃ s tr, n.state? c.state = some s ∧ tr ∈ s.transitions ∧ tr.accepts n.maxType t = true ∧
      d = { c with state := tr.target, guarded := false, entered := [] } := by
  unfold advance at h
  split at h
  · cases h
  · rename_i s hs
    obtain ⟨tr, htr, rfl⟩ := List.mem_map.mp h
    obtain ⟨htr, ha⟩ := List.mem_filter.mp htr
    exact ⟨s, tr, hs, htr, ha, rfl⟩

theorem advance_mem {n : Network} {t : TokenType} {c : Path} {s : State} {tr : Transition}
    (hs : n.state? c.state = some s) (htr : tr ∈ s.transitions)
    (ha : tr.accepts n.maxType t = true) :
    { c with state := tr.target, guarded := false, entered := [] } ∈ advance n t c := by
  simp only [advance, hs]
  exact List.mem_map.mpr ⟨tr, List.mem_filter.mpr ⟨htr, ha⟩, rfl⟩

def moved (n : Network) (t : TokenType) (paths : List Path) : List Path :=
  (paths.filter fun c => !isAtStop n c).flatMap (advance n t)

/-- The paths that have ended the outermost rule stay beside those that go on,
unless one of these ends a rule only now; at the end of the input they always
stay. -/
def keepEnded (n : Network) (t : TokenType) (paths reached : List Path) : List Path :=
  if t = .eof || !reached.any (isAtStop n) then (paths.filter (isAtStop n)).foldl addTo reached
  else reached

theorem reach_eq {n : Network} {outer : Nat} {t : TokenType} {paths reached : List Path}
    {calls : Array HookCall}
    (h : (closure n none outer (moved n t paths)).run #[] = (.ok reached, calls)) :
    reach n outer t paths = .ok (keepEnded n t paths reached) := by
  have hnot : (fun c => !isAtStop n c) = not ∘ isAtStop n := rfl
  unfold reach keepEnded
  rw [moved, hnot] at h
  rw [List.partition_eq_filter_filter]
  dsimp only
  rw [h]
  simp only [bind, Except.bind, pure, Except.pure]
  split <;> rfl

/-- The closure that reading a token has come to. -/
theorem closure_of_reach {n : Network} {outer : Nat} {a : TokenType} {paths found : List Path}
    (h : reach n outer a paths = .ok found) : ∃ reached calls,
      (closure n none outer (moved n a paths)).run #[] = (.ok reached, calls) ∧
        found = keepEnded n a paths reached := by
  obtain ⟨reached, calls, hrun⟩ : ∃ reached calls,
      (closure n none outer (moved n a paths)).run #[] = (.ok reached, calls) := by
    have hnot : (fun c => !isAtStop n c) = not ∘ isAtStop n := rfl
    unfold reach at h
    rw [List.partition_eq_filter_filter] at h
    rw [moved, hnot]
    dsimp only at h
    generalize (closure n none outer _).run #[] = result at h ⊢
    obtain ⟨_ | reached, calls⟩ := result
    · cases h
    · exact ⟨reached, calls, rfl⟩
  exact ⟨reached, calls, hrun, Except.ok.inj (h.symm.trans (reach_eq hrun))⟩

/-- What is kept was reached, or is one of the paths that have ended the outermost
rule. -/
theorem mem_keepEnded {n : Network} {a : TokenType} {paths reached : List Path} {c : Path}
    (h : c ∈ keepEnded n a paths reached) : c ∈ reached ∨ c ∈ paths ∧ n.isStop c.state = true := by
  unfold keepEnded at h
  split at h
  · rcases (mem_foldl_addTo _ _ c).1 h with hc | hc
    · exact .inl hc
    · exact .inr (List.mem_filter.mp hc)
  · exact .inl h

end Path

namespace Network.Runs

variable {n : Network} {v : Vocabulary} {rules : List Rule}

/-- Reading a token never finds the network defective. -/
theorem exists_reach (hruns : n.Runs v rules) (outer : Nat) (t : TokenType) {paths : List Path}
    (hpaths : ∀ c ∈ paths, ∀ id ∈ c.state :: c.stack.returnStates, id < n.states.size) :
    ∃ found, Path.reach n outer t paths = .ok found ∧ Path.Reached n t paths found := by
  have hmoved : ∀ d ∈ Path.moved n t paths, d.Fresh n := by
    intro d hd
    obtain ⟨c, hc, hd⟩ := List.mem_flatMap.mp hd
    obtain ⟨s, tr, hs, htr, ha, rfl⟩ := Path.mem_advance hd
    have hcall : tr.call? = none := by
      cases tr with
      | call => cases ha
      | _ => rfl
    obtain ⟨s', hs', _⟩ := hruns.laid.target_state hs htr hcall
    have hreturns := (List.forall_mem_cons.mp (hpaths c (List.mem_filter.mp hc).1)).2
    exact ⟨List.forall_mem_cons.mpr ⟨Graph.lt_of_state? hs', hreturns⟩, rfl⟩
  obtain ⟨reached, calls, hrun, hsound, hcomplete⟩ :=
    hruns.orderly.returns_closure none (fun d hd => (hmoved d hd).sound hd) #[]
  have hpermits : n.Permits none := fun _ _ _ _ _ _ h => nomatch h
  have hadvanced (c : Path) (hc : c ∈ reached) : ∃ o ∈ paths, Path.Advanced n t o c := by
    obtain ⟨⟨⟨d, hd, halt, hsilents, _⟩, _⟩, hlive⟩ := hsound c hc
    obtain ⟨o, ho, hd⟩ := List.mem_flatMap.mp hd
    obtain ⟨ho, hrunning⟩ := List.mem_filter.mp ho
    obtain ⟨s, tr, hs, htr, ha, rfl⟩ := Path.mem_advance hd
    refine ⟨o, ho, halt, s, tr, hs, ?_, htr, ha, hsilents, hlive⟩
    simpa [Path.isAtStop, Graph.isStop, hs] using hrunning
  have hreached (o : Path) (ho : o ∈ paths) (c : Path) (hc : Path.Advanced n t o c) :
      ∃ d ∈ reached, d.alt = c.alt ∧ d.spot = c.spot := by
    obtain ⟨halt, s, tr, hs, hrunning, htr, ha, hsilents, hlive⟩ := hc
    have hmem : { o with state := tr.target, guarded := false, entered := [] } ∈
        Path.moved n t paths := by
      refine List.mem_flatMap.mpr ⟨o, List.mem_filter.mpr ⟨ho, ?_⟩, Path.advance_mem hs htr ha⟩
      simp [Path.isAtStop, Graph.isStop, hs, hrunning]
    obtain ⟨d, hd, halt', hspot⟩ := hcomplete hpermits _ hmem c.spot hsilents hlive
    exact ⟨d, hd, halt'.trans halt, hspot⟩
  rw [Path.reach_eq hrun, Path.keepEnded]
  split
  · rename_i hkeep
    refine ⟨_, rfl, fun c hc => ?_, fun o ho c hc => ?_, fun _ o ho hstop => ?_, ?_⟩
    · rcases (Path.mem_foldl_addTo _ _ c).1 hc with hc | hc
      · exact .inr (hadvanced c hc)
      · obtain ⟨hc, hstop⟩ := List.mem_filter.mp hc
        exact .inl ⟨hc, hstop⟩
    · obtain ⟨d, hd, hsame⟩ := hreached o ho c hc
      exact ⟨d, (Path.mem_foldl_addTo _ _ d).2.1 hd, hsame⟩
    · exact (Path.mem_foldl_addTo _ _ o).2.2 (List.mem_filter.mpr ⟨ho, hstop⟩)
    · rintro hne ⟨o, ho, c, hc, hstop⟩
      -- A path that ends only now is reached, so the others would have been dropped.
      obtain ⟨d, hd, _, hspot⟩ := hreached o ho c hc
      have hstate : d.state = c.state := congrArg Spot.state hspot
      have hany : reached.any (Path.isAtStop n) = true :=
        List.any_eq_true.mpr ⟨d, hd, by rwa [Path.isAtStop, hstate]⟩
      simp [hne, hany] at hkeep
  · rename_i hdrop
    refine ⟨_, rfl, fun c hc => .inr (hadvanced c hc), hreached, fun heof => ?_,
      fun _ _ c hc => hadvanced c hc⟩
    simp [heof] at hdrop

end Network.Runs

end AdaptiveLL
