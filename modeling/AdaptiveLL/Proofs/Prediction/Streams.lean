/-
Predictions from streams that cannot be told apart.

A prediction reads the tokens of a stream from its cursor on, and nothing else of
it.  So from one place it comes to one outcome and asks the host program the same,
however the tokens are supplied and however many have been fetched.
-/
import AdaptiveLL.Proofs.Parser.Step
import AdaptiveLL.Proofs.Stream.Listed

namespace AdaptiveLL

/-- A decision that failed did so at its first token or behind it. -/
def Mismatch.InOrder : Mismatch → Prop
  | .noViable start offending _ _ => start.index.toNat ≤ offending.index.toNat
  | _ => True

namespace Decision

variable {n : Network} {d : Decision} {ts : List Token} {s s' : TokenStream} {i : Nat}

theorem stuck_mismatch {first offending : Token} {depth : Nat} {paths : List Path} {m : Mismatch}
    (h : d.stuck n first offending depth paths = .error (.mismatch m)) :
    m = .noViable first offending d.state d.stack := by
  unfold stuck at h
  split at h
  · cases h
  · cases h
    rfl

theorem length_upcoming_pos (hat : s.At ts i) : 0 < (upcoming ts i).length := by
  obtain ⟨t, _, ⟨_, heq⟩ | ⟨_, heq, _⟩⟩ := hat.token <;> simp [heq]

/-- Behind a token that does not end the input one token less is to come. -/
theorem length_upcoming_next (hat : s.At ts i) (hrun : (s.peek 1).1.isEof = false) :
    (upcoming ts i).length = (upcoming ts (nextPlace ts i)).length + 1 := by
  obtain ⟨t, ht, hcases⟩ := hat.token
  obtain rfl := Option.some.inj (ht.symm.trans hat.peek_one.1)
  obtain ⟨_, heq, _⟩ := hcases.resolve_left (by simp [hrun])
  rw [heq, List.length_cons]

/-- With rounds for all tokens to come, the outcome of moving paths depends on these
tokens only. -/
theorem simulate_eq_of_at (hat : s.At ts i) (hat' : s'.At ts i) (first : Token)
    {rounds rounds' : Nat} (depth : Nat) (paths : List Path)
    (hrounds : (upcoming ts i).length ≤ rounds) (hrounds' : (upcoming ts i).length ≤ rounds') :
    (d.simulate n first rounds depth paths s).1 =
      (d.simulate n first rounds' depth paths s').1 := by
  have hpos := length_upcoming_pos hat
  induction rounds generalizing rounds' depth paths s s' i with
  | zero => omega
  | succ rounds ih =>
    obtain ⟨rounds', rfl⟩ : ∃ k, rounds' = k + 1 := Nat.exists_eq_succ_of_ne_zero (by omega)
    have hpeek : (s.peek 1).1 = (s'.peek 1).1 :=
      Option.some.inj (hat.peek_one.1.symm.trans hat'.peek_one.1)
    rw [simulate, simulate]
    dsimp only
    rw [hpeek]
    cases Path.reach n d.stack.length (s'.peek 1).1.type paths with
    | error => rfl
    | ok reached =>
      dsimp only
      cases Path.alts reached with
      | nil => rfl
      | cons alt others =>
        cases others with
        | nil => rfl
        | cons other others =>
          dsimp only
          split
          · rfl
          · rename_i hopen
            have hrun : (s.peek 1).1.isEof = false := by
              rw [hpeek]
              simp only [Bool.or_eq_true, not_or, Bool.not_eq_true] at hopen
              exact hopen.1
            have hlength := length_upcoming_next hat hrun
            exact ih hat.peek_one.2.consume hat'.peek_one.2.consume (depth + 1) reached (by omega)
              (by omega) (length_upcoming_pos hat.peek_one.2.consume)

/-- Paths that cannot go on are met at a token to come. -/
theorem simulate_mismatch (hat : s.At ts i) (first : Token) {rounds : Nat} (depth : Nat)
    (paths : List Path) (hrounds : (upcoming ts i).length ≤ rounds) {m : Mismatch}
    (h : (d.simulate n first rounds depth paths s).1 = .error (.mismatch m)) :
    ∃ (j : Nat) (t : Token), i ≤ j ∧ ts[j]? = some t ∧
      m = .noViable first t d.state d.stack := by
  have hpos := length_upcoming_pos hat
  induction rounds generalizing depth paths s i with
  | zero => omega
  | succ rounds ih =>
    obtain ⟨hpeek, hat'⟩ := hat.peek_one
    rw [simulate] at h
    dsimp only at h
    split at h
    · cases h
    · split at h
      · exact ⟨i, _, Nat.le_refl i, hpeek, stuck_mismatch h⟩
      · cases h
      · split at h
        · cases h
        · rename_i hopen
          have hrun : (s.peek 1).1.isEof = false := by
            simp only [Bool.or_eq_true, not_or, Bool.not_eq_true] at hopen
            exact hopen.1
          have hlength := length_upcoming_next hat hrun
          obtain ⟨j, t, hle, ht, hm⟩ :=
            ih hat'.consume _ _ (by omega) h (length_upcoming_pos hat'.consume)
          exact ⟨j, t, hat.le_nextPlace.trans hle, ht, hm⟩

/-- The rounds that a decision grants are enough. -/
theorem length_upcoming_le (hat : s.At ts i) : (upcoming ts i).length ≤ s.horizon + 1 := by
  have hle := hat.shows.length_le
  have hfilter : (upcoming ts i).length ≤ ts.length := (List.length_filter_le _ _).trans (by simp)
  omega

/-- A decision comes to one outcome from one place, and asks the host program the
same. -/
theorem decide_eq_of_at (d : Decision) (n : Network) (hooks : Hooks) (calls : Array HookCall)
    (hat : s.At ts i) (hat' : s'.At ts i) :
    (d.decide n hooks s calls).1.1 = (d.decide n hooks s' calls).1.1 ∧
      (d.decide n hooks s calls).2 = (d.decide n hooks s' calls).2 := by
  have hpeek := (hat.index.2.peek_one.1.symm.trans hat'.index.2.peek_one.1)
  have hfirst : (s.index.2.peek 1).1 = (s'.index.2.peek 1).1 := Option.some.inj hpeek
  have hahead := hat.index.2.peek_one.2
  have hahead' := hat'.index.2.peek_one.2
  unfold decide
  cases n.getState d.state with
  | error => exact ⟨rfl, rfl⟩
  | ok state =>
    dsimp only
    split
    · exact ⟨rfl, rfl⟩
    · rcases (d.start n hooks state.transitions).run calls with ⟨_ | paths, calls'⟩
      · exact ⟨rfl, rfl⟩
      · refine ⟨?_, rfl⟩
        dsimp only
        rw [hfirst]
        exact simulate_eq_of_at hahead hahead' _ 0 paths (length_upcoming_le hahead)
          (length_upcoming_le hahead')

theorem decide_inOrder (d : Decision) (n : Network) (hooks : Hooks) (calls : Array HookCall)
    (hat : s.At ts i) (hnumbered : Numbered ts) {m : Mismatch}
    (h : (d.decide n hooks s calls).1.1 = .error (.mismatch m)) : m.InOrder := by
  obtain ⟨hfirst, hahead⟩ := hat.index.2.peek_one
  unfold decide at h
  cases hstate : n.getState d.state with
  | error =>
    rw [hstate] at h
    cases h
  | ok state =>
    rw [hstate] at h
    dsimp only at h
    split at h
    · cases h
    · generalize (d.start n hooks state.transitions).run calls = result at h
      obtain ⟨_ | paths, calls'⟩ := result
      · cases h
      · dsimp only at h
        obtain ⟨j, t, hle, ht, rfl⟩ :=
          simulate_mismatch hahead _ 0 paths (length_upcoming_le hahead) h
        rw [Mismatch.InOrder, hnumbered i _ hfirst, hnumbered j t ht]
        exact hle

theorem fetches_simulate (n : Network) (d : Decision) (first : Token) (rounds depth : Nat)
    (paths : List Path) (s : TokenStream) :
    s.Fetches (d.simulate n first rounds depth paths s).2 := by
  induction rounds generalizing depth paths s with
  | zero => exact .done
  | succ rounds ih =>
    have hpeek := s.fetches_peek 1
    rw [simulate]
    dsimp only
    split
    · exact hpeek
    · split
      · exact hpeek
      · exact hpeek
      · split
        · exact hpeek
        · exact (hpeek.trans (TokenStream.fetches_consume _)).trans (ih _ _ _)

/-- A decision asks the stream for tokens, and puts its cursor back. -/
theorem fetches_decide (d : Decision) (n : Network) (hooks : Hooks) (s : TokenStream)
    (calls : Array HookCall) : s.Fetches (d.decide n hooks s calls).1.2 := by
  have hahead := s.fetches_index.trans (s.index.2.fetches_peek 1)
  unfold decide
  cases n.getState d.state with
  | error => exact .done
  | ok state =>
    dsimp only
    split
    · exact .done
    · generalize (d.start n hooks state.transitions).run calls = result
      obtain ⟨outcome, calls'⟩ := result
      cases outcome with
      | error => exact hahead.trans (TokenStream.fetches_seek _ _)
      | ok paths =>
        have hmoved := fetches_simulate n d (s.index.2.peek 1).1
          ((s.index.2.peek 1).2.horizon + 1) 0 paths (s.index.2.peek 1).2
        dsimp only
        exact (hahead.trans hmoved).trans (TokenStream.fetches_seek _ _)

/-- A decision leaves a stream on a list as one on a list. -/
theorem decide_listed (d : Decision) (n : Network) (hooks : Hooks) (calls : Array HookCall)
    (h : s.Listed) : (d.decide n hooks s calls).1.2.Listed :=
  h.of_fetches (d.fetches_decide n hooks s calls)

/-- The token that paths cannot go on at has been fetched. -/
theorem simulate_seen (hat : s.At ts i) {first : Token} (hfirst : first ∈ s.buffer)
    (rounds depth : Nat) (paths : List Path) {m : Mismatch}
    (h : (d.simulate n first rounds depth paths s).1 = .error (.mismatch m)) :
    m.offending ∈ (d.simulate n first rounds depth paths s).2.buffer := by
  induction rounds generalizing depth paths s i with
  | zero =>
    obtain rfl := stuck_mismatch h
    exact hfirst
  | succ rounds ih =>
    have hpeek := hat.peek_mem 1
    rw [simulate] at h ⊢
    dsimp only at h ⊢
    split at h
    · cases h
    · split at h
      · obtain rfl := stuck_mismatch h
        exact hpeek
      · cases h
      · split at h
        · cases h
        · rename_i hopen
          rw [if_neg hopen]
          have hfetched := (s.fetches_peek 1).trans (TokenStream.fetches_consume _)
          exact ih hat.peek_one.2.consume (hfetched.mem_buffer hfirst) _ _ h

theorem decide_seen (d : Decision) (n : Network) (hooks : Hooks) (calls : Array HookCall)
    (hat : s.At ts i) {m : Mismatch}
    (h : (d.decide n hooks s calls).1.1 = .error (.mismatch m)) :
    m.offending ∈ (d.decide n hooks s calls).1.2.buffer := by
  have hfirst := hat.index.2.peek_mem 1
  unfold decide at h ⊢
  cases hstate : n.getState d.state with
  | error =>
    rw [hstate] at h
    cases h
  | ok state =>
    rw [hstate] at h
    dsimp only at h ⊢
    split at h
    · cases h
    · rename_i hsome
      rw [if_neg hsome]
      generalize (d.start n hooks state.transitions).run calls = result at h
      obtain ⟨_ | paths, calls'⟩ := result
      · cases h
      · dsimp only at h ⊢
        exact (TokenStream.fetches_seek _ _).mem_buffer
          (simulate_seen hat.index.2.peek_one.2 hfirst _ 0 paths h)

end Decision

end AdaptiveLL
