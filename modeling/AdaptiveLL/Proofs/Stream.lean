/-
What a token stream shows.

A source hands out finitely many tokens, the last of which ends the input.  A stream
shows these tokens wherever its cursor is and however many it has fetched, and the
cursor stands at a visible one.
-/
import AdaptiveLL.TokenStream
import Mathlib.Logic.Function.Iterate

namespace AdaptiveLL

section Source

theorem Pattern.longestMatch?_pos {ends : List Nat} {pos n : Nat}
    (h : longestMatch? ends pos = some n) : 0 < n := by
  obtain ⟨m, hm, rfl⟩ := Option.map_eq_some_iff.mp h
  have hlt : pos < m := by simpa using (List.mem_filter.mp (List.max?_mem hm)).2
  omega

theorem longerMatch_cases {pos : Nat} {best : Option (LexRule × Nat)} {next : LexRule × Reach}
    {x : LexRule × Nat} (h : longerMatch pos best next = some x) :
    best = some x ∨ next.1 = x.1 ∧ Pattern.longestMatch? next.2.ends pos = some x.2 := by
  unfold longerMatch at h
  split at h
  · exact .inl h
  · rename_i hn
    obtain rfl := Option.some.inj h
    exact .inr ⟨rfl, hn⟩
  · rename_i hn
    split at h
    · obtain rfl := Option.some.inj h
      exact .inr ⟨rfl, hn⟩
    · exact .inl h

/-- The longest match is that of one of the rules. -/
theorem exists_longestMatch {pos : Nat} {reaches : List (LexRule × Reach)} {x : LexRule × Nat}
    (h : longestRule pos reaches = some x) :
    ∃ r ∈ reaches, r.1 = x.1 ∧ Pattern.longestMatch? r.2.ends pos = some x.2 := by
  refine List.foldlRecOn reaches (longerMatch pos)
    (motive := fun best => ∀ x ∈ best,
      ∃ r ∈ reaches, r.1 = x.1 ∧ Pattern.longestMatch? r.2.ends pos = some x.2)
    (fun _ hx => absurd hx (Option.not_mem_none _)) (fun best hbest r hr x hx => ?_) x h
  rcases longerMatch_cases hx with hold | hnew
  · exact hbest x hold
  · exact ⟨r, hr, hnew⟩

theorem longestRule_pos {pos : Nat} {reaches : List (LexRule × Reach)} {rule : LexRule}
    {length : Nat} (h : longestRule pos reaches = some (rule, length)) : 0 < length := by
  obtain ⟨_, _, _, hmatch⟩ := exists_longestMatch h
  exact Pattern.longestMatch?_pos hmatch

namespace Lexer

theorem remaining_advance {l : Lexer} {length : Nat} (hlength : 0 < length)
    (hplace : l.place.offset < l.input.size) : (l.advance length).remaining < l.remaining := by
  simp only [remaining, advance, Place.offset_afterAll, ahead, Array.length_toList,
    Array.size_extract]
  omega

theorem remaining_munch {l : Lexer} (hplace : l.place.offset < l.input.size) :
    l.munch.2.remaining < l.remaining := by
  unfold munch
  dsimp only
  split
  · exact remaining_advance (Nat.succ_pos _) hplace
  · rename_i rule length h
    exact remaining_advance (longestRule_pos h) hplace

/-- A token is the end of the input, or something was read for it. -/
theorem next_isEof_or_lt (l : Lexer) :
    l.next.1.isEof = true ∨ l.next.2.remaining < l.remaining := by
  have hsteps : ∀ (steps : Nat) (l : Lexer), (l.nextIn steps).1.isEof = true ∨
      (l.nextIn steps).2.remaining < l.remaining := by
    intro steps
    induction steps with
    | zero => exact fun _ => .inl rfl
    | succ steps ih =>
      intro l
      rw [nextIn]
      split
      · exact .inl rfl
      · rename_i hplace
        have hlt := l.remaining_munch (Nat.lt_of_not_le hplace)
        cases hmunch : l.munch with
        | mk t l' =>
          rw [hmunch] at hlt
          cases t with
          | some t => exact .inr hlt
          | none => exact (ih l').imp_right (Nat.lt_trans · hlt)
  exact hsteps _ l

/-- A lexer of which some errors were taken reads what it would have read with them,
and keeps the other errors. -/
theorem munch_errors (l : Lexer) {taken errors : List LexError} (h : l.errors = taken ++ errors) :
    ∃ errors', { l with errors }.munch = (l.munch.1, { l.munch.2 with errors := errors' }) ∧
      l.munch.2.errors = taken ++ errors' := by
  unfold munch
  dsimp only
  have hreaches : ({ l with errors } : Lexer).reaches = l.reaches := rfl
  rw [hreaches]
  split
  · refine ⟨_, rfl, ?_⟩
    rw [fail, h, List.append_assoc]
    rfl
  · exact ⟨errors, rfl, h⟩

theorem next_errors (l : Lexer) {taken errors : List LexError} (h : l.errors = taken ++ errors) :
    ∃ errors', { l with errors }.next = (l.next.1, { l.next.2 with errors := errors' }) ∧
      l.next.2.errors = taken ++ errors' := by
  have hsteps : ∀ (steps : Nat) (l : Lexer) (errors : List LexError), l.errors = taken ++ errors →
      ∃ errors', { l with errors }.nextIn steps =
        ((l.nextIn steps).1, { (l.nextIn steps).2 with errors := errors' }) ∧
          (l.nextIn steps).2.errors = taken ++ errors' := by
    intro steps
    induction steps with
    | zero => exact fun _ errors h => ⟨errors, rfl, h⟩
    | succ steps ih =>
      intro l errors h
      rw [nextIn, nextIn]
      by_cases hplace : l.input.size ≤ l.place.offset
      · rw [if_pos hplace, if_pos hplace]
        exact ⟨errors, rfl, h⟩
      · rw [if_neg hplace, if_neg hplace]
        obtain ⟨errors', hmunch, h'⟩ := l.munch_errors h
        rw [hmunch]
        cases hl : l.munch with
        | mk t l' =>
          rw [hl] at h'
          cases t with
          | some t => exact ⟨errors', rfl, h'⟩
          | none => exact ih l' errors' h'
  exact hsteps _ l errors h

end Lexer

/-- A source hands out these tokens, numbered from a place, up to the end of the
input. -/
inductive Supplies : TokenSource → Nat → List Token → Prop where
  | last {source place} (hend : source.next.1.isEof = true) :
      Supplies source place [source.next.1.atIndex place]
  | more {source place ts} (hrun : source.next.1.isEof = false)
      (hrest : Supplies source.next.2 (place + 1) ts) :
      Supplies source place (source.next.1.atIndex place :: ts)

theorem TokenSource.isEof_endBehind (t : Option Token) : (endBehind t).isEof = true := by
  cases t <;> rfl

theorem TokenSource.exists_listed (rest : List Token) (last : Option Token) (place : Nat) :
    ∃ ts, Supplies (.listed rest last) place ts ∧ ts.length ≤ rest.length + 1 := by
  induction rest generalizing last place with
  | nil =>
    refine ⟨_, .last ?_, Nat.le_refl _⟩
    simp only [next]
    split
    · rename_i h
      exact (Option.filter_eq_some_iff.mp h).2
    · rename_i heq
      cases heq
    · exact isEof_endBehind last
  | cons t rest ih =>
    by_cases hend : (next (.listed (t :: rest) last)).1.isEof = true
    · exact ⟨_, .last hend, Nat.succ_le_succ (Nat.zero_le _)⟩
    · obtain ⟨ts, hts, hlength⟩ := ih (some t) (place + 1)
      refine ⟨_, .more (by simpa using hend) ?_, Nat.succ_le_succ hlength⟩
      simp only [next] at hend ⊢
      split at hend
      · rename_i h
        exact absurd (Option.filter_eq_some_iff.mp h).2 hend
      · rename_i heq
        cases heq
        exact hts
      · rename_i heq
        cases heq

theorem TokenSource.exists_lexed (l : Lexer) (place : Nat) :
    ∃ ts, Supplies (.lexed l) place ts ∧ ts.length ≤ l.remaining + 1 := by
  induction hn : l.remaining using Nat.strongRecOn generalizing l place with
  | ind n ih =>
    subst hn
    rcases Bool.eq_false_or_eq_true l.next.1.isEof with hend | hrun
    · exact ⟨_, .last hend, Nat.succ_le_succ (Nat.zero_le _)⟩
    · have hlt := l.next_isEof_or_lt.resolve_left (by simp [hrun])
      obtain ⟨ts, hts, hlength⟩ := ih _ hlt l.next.2 (place + 1) rfl
      exact ⟨_, .more hrun hts, by rw [List.length_cons]; omega⟩

namespace Supplies

variable {source : TokenSource} {place : Nat} {ts : List Token}

theorem unique {ts' : List Token} (h : Supplies source place ts) (h' : Supplies source place ts') :
    ts = ts' := by
  induction h generalizing ts' with
  | last hend =>
    cases h' with
    | last => rfl
    | more hrun => simp [hend] at hrun
  | more hrun _ ih =>
    cases h' with
    | last hend => simp [hrun] at hend
    | more _ hrest => rw [ih hrest]

theorem length_le (h : Supplies source place ts) : ts.length ≤ source.remaining := by
  have hexists : ∃ ts', Supplies source place ts' ∧ ts'.length ≤ source.remaining := by
    cases source with
    | listed rest last => exact TokenSource.exists_listed rest last place
    | lexed l => exact TokenSource.exists_lexed l place
  obtain ⟨ts', h', hlength⟩ := hexists
  rwa [h.unique h']

/-- Each token knows its place. -/
theorem index_eq (h : Supplies source place ts) (i : Nat) {t : Token} (ht : ts[i]? = some t) :
    t.index = place + i := by
  induction h generalizing i with
  | last =>
    cases i with
    | zero =>
      obtain rfl := Option.some.inj ht
      simp [Token.atIndex]
    | succ i => cases ht
  | @more _ place _ _ _ ih =>
    cases i with
    | zero =>
      obtain rfl := Option.some.inj ht
      simp [Token.atIndex]
    | succ i =>
      rw [ih i ht]
      push_cast
      omega

/-- The last token and no other one ends the input. -/
theorem ends (h : Supplies source place ts) :
    ∃ init last, ts = init ++ [last] ∧ last.isEof = true ∧ ∀ t ∈ init, t.isEof = false := by
  induction h with
  | last hend => exact ⟨[], _, rfl, hend, by simp⟩
  | @more source place ts hrun _ ih =>
    obtain ⟨init, last, rfl, hlast, hinit⟩ := ih
    exact ⟨source.next.1.atIndex place :: init, last, rfl, hlast,
      List.forall_mem_cons.mpr ⟨hrun, hinit⟩⟩

theorem takeErrors (h : Supplies source place ts) : Supplies source.takeErrors.2 place ts := by
  cases source with
  | listed rest last => exact h
  | lexed l =>
    have hlexed : ∀ (source : TokenSource) (place : Nat) (ts : List Token),
        Supplies source place ts → ∀ l taken errors, source = .lexed l →
        l.errors = taken ++ errors →
          Supplies (.lexed { l with errors }) place ts := by
      intro source place ts h
      induction h with
      | @last source place hend =>
        rintro l taken errors rfl herrors
        obtain ⟨errors', hnext, _⟩ := l.next_errors herrors
        have hsame : (TokenSource.next (.lexed { l with errors })).1 = l.next.1 := by
          simp only [TokenSource.next, hnext]
        rw [show (TokenSource.lexed l).next.1 = l.next.1 from rfl, ← hsame]
        exact .last (hsame ▸ hend)
      | @more source place ts hrun _ ih =>
        rintro l taken errors rfl herrors
        obtain ⟨errors', hnext, herrors'⟩ := l.next_errors herrors
        have hsame : (TokenSource.next (.lexed { l with errors })).1 = l.next.1 := by
          simp only [TokenSource.next, hnext]
        rw [show (TokenSource.lexed l).next.1 = l.next.1 from rfl, ← hsame]
        refine .more (hsame ▸ hrun) ?_
        have hrest := ih l.next.2 taken errors' rfl herrors'
        simpa only [TokenSource.next, hnext] using hrest
    exact hlexed _ _ _ h l l.errors [] rfl (List.append_nil _).symm

end Supplies

end Source

/-- The last of some tokens and no other one ends the input. -/
def Ended (ts : List Token) : Prop :=
  ∃ init last, ts = init ++ [last] ∧ last.isEof = true ∧ ∀ t ∈ init, t.isEof = false

/-- The first visible place at or behind `i`; the last place if `i` is beyond it. -/
def visiblePlace (ts : List Token) (i : Nat) : Nat :=
  if i < ts.length then i + (ts.drop i).findIdx Token.isVisible else ts.length - 1

/-- The visible place behind place `i`.  Nothing lies behind the end of the input. -/
def nextPlace (ts : List Token) (i : Nat) : Nat :=
  if (ts[i]?).any Token.isEof then i else visiblePlace ts (i + 1)

/-- The visible tokens from a place on. -/
def upcoming (ts : List Token) (i : Nat) : List Token :=
  (ts.drop i).filter Token.isVisible

section Places

variable {ts : List Token} {i : Nat} {t : Token}

theorem Token.isVisible_of_isEof (h : t.isEof = true) : t.isVisible = true := by
  simp [Token.isVisible, h]

theorem Ended.pos (h : Ended ts) : 0 < ts.length := by
  obtain ⟨init, last, rfl, _⟩ := h
  simp

/-- The token of a place ends the input if and only if the place is the last one. -/
theorem Ended.isEof_iff (h : Ended ts) (ht : ts[i]? = some t) :
    t.isEof = true ↔ i + 1 = ts.length := by
  obtain ⟨init, last, rfl, hlast, hinit⟩ := h
  have hi : i < (init ++ [last]).length := (List.getElem?_eq_some_iff.mp ht).1
  rw [List.length_append, List.length_singleton] at hi ⊢
  by_cases hin : i < init.length
  · rw [List.getElem?_append_left hin] at ht
    have hrun := hinit t (List.mem_of_getElem? ht)
    simp [hrun]
    omega
  · obtain rfl : i = init.length := by omega
    obtain rfl : last = t := by simpa using ht
    simp [hlast]

theorem Ended.exists_last (h : Ended ts) :
    ∃ last, ts[ts.length - 1]? = some last ∧ last.isEof = true := by
  obtain ⟨init, last, rfl, hlast, _⟩ := h
  exact ⟨last, by simp, hlast⟩

theorem visiblePlace_of_isVisible (ht : ts[i]? = some t) (hvisible : t.isVisible = true) :
    visiblePlace ts i = i := by
  obtain ⟨hi, rfl⟩ := List.getElem?_eq_some_iff.mp ht
  rw [visiblePlace, if_pos hi, List.drop_eq_getElem_cons hi, List.findIdx_cons, hvisible]
  rfl

theorem visiblePlace_of_hidden (h : Ended ts) (ht : ts[i]? = some t)
    (hhidden : t.isVisible = false) : visiblePlace ts i = visiblePlace ts (i + 1) := by
  have hrun : ¬t.isEof = true := fun heof => by
    rw [Token.isVisible_of_isEof heof] at hhidden
    cases hhidden
  rw [h.isEof_iff ht] at hrun
  obtain ⟨hi, rfl⟩ := List.getElem?_eq_some_iff.mp ht
  have hnext : i + 1 < ts.length := by omega
  rw [visiblePlace, visiblePlace, if_pos hi, if_pos hnext, List.drop_eq_getElem_cons hi,
    List.findIdx_cons, hhidden]
  simp only [cond_false]
  omega

/-- From every place on there is a visible one, and the tokens between are hidden. -/
theorem Ended.visiblePlace_spec (h : Ended ts) (i : Nat) :
    ∃ t, ts[visiblePlace ts i]? = some t ∧ t.isVisible = true ∧
      (i < ts.length → i ≤ visiblePlace ts i ∧ upcoming ts (visiblePlace ts i) =
        upcoming ts i) := by
  obtain ⟨last, hlast, heof⟩ := h.exists_last
  by_cases hi : i < ts.length
  · -- The induction is on the number of places up to the last one.
    induction hn : ts.length - i generalizing i with
    | zero => omega
    | succ n ih =>
      have ht := List.getElem?_eq_getElem hi
      rcases Bool.eq_false_or_eq_true (ts[i]).isVisible with hvisible | hhidden
      · rw [visiblePlace_of_isVisible ht hvisible]
        exact ⟨_, ht, hvisible, fun _ => ⟨Nat.le_refl _, rfl⟩⟩
      · have hrun : ¬(ts[i]).isEof = true := fun heof => by
          rw [Token.isVisible_of_isEof heof] at hhidden
          cases hhidden
        rw [h.isEof_iff ht] at hrun
        obtain ⟨t, ht', hvisible, hplace⟩ := ih (i + 1) (by omega) (by omega)
        rw [visiblePlace_of_hidden h ht hhidden]
        refine ⟨t, ht', hvisible, fun _ => ?_⟩
        obtain ⟨hle, hsame⟩ := hplace (by omega)
        refine ⟨by omega, hsame.trans ?_⟩
        rw [upcoming, upcoming, List.drop_eq_getElem_cons hi, List.filter_cons_of_neg]
        simp [hhidden]
  · rw [visiblePlace, if_neg hi]
    exact ⟨last, hlast, Token.isVisible_of_isEof heof, fun hlt => absurd hlt hi⟩

theorem upcoming_of_isVisible (ht : ts[i]? = some t) (hvisible : t.isVisible = true) :
    upcoming ts i = t :: upcoming ts (i + 1) := by
  obtain ⟨hi, rfl⟩ := List.getElem?_eq_some_iff.mp ht
  rw [upcoming, List.drop_eq_getElem_cons hi, List.filter_cons_of_pos hvisible, upcoming]

/-- At the end of the input only this end is to come. -/
theorem Ended.upcoming_of_isEof (h : Ended ts) (ht : ts[i]? = some t) (heof : t.isEof = true) :
    upcoming ts i = [t] := by
  rw [upcoming_of_isVisible ht (Token.isVisible_of_isEof heof)]
  have hlength := (h.isEof_iff ht).mp heof
  rw [upcoming, hlength, List.drop_length]
  rfl

/-- Before the end of the input the tokens behind the first one are those to come at the
next place. -/
theorem Ended.upcoming_of_run (h : Ended ts) (ht : ts[i]? = some t) (hvisible : t.isVisible = true)
    (hrun : t.isEof = false) : upcoming ts i = t :: upcoming ts (nextPlace ts i) ∧
      i < nextPlace ts i := by
  have hlt : i < ts.length := (List.getElem?_eq_some_iff.mp ht).1
  have hlast : i + 1 ≠ ts.length := fun heq => by simp [(h.isEof_iff ht).mpr heq] at hrun
  obtain ⟨_, _, _, hplace⟩ := h.visiblePlace_spec (i + 1)
  obtain ⟨hle, hsame⟩ := hplace (by omega)
  have hnext : nextPlace ts i = visiblePlace ts (i + 1) := by simp [nextPlace, ht, hrun]
  rw [hnext, hsame]
  exact ⟨upcoming_of_isVisible ht hvisible, hle⟩

theorem nextPlace_of_isEof (ht : ts[i]? = some t) (heof : t.isEof = true) :
    nextPlace ts i = i := by
  simp [nextPlace, ht, heof]

theorem Ended.le_nextPlace (h : Ended ts) (ht : ts[i]? = some t) (hvisible : t.isVisible = true) :
    i ≤ nextPlace ts i := by
  cases heof : t.isEof with
  | true => exact Nat.le_of_eq (nextPlace_of_isEof ht heof).symm
  | false => exact Nat.le_of_lt (h.upcoming_of_run ht hvisible heof).2

/-- The next place is a visible one. -/
theorem Ended.nextPlace_visible (h : Ended ts)
    (hvisible : ∃ t, ts[i]? = some t ∧ t.isVisible = true) :
    ∃ t, ts[nextPlace ts i]? = some t ∧ t.isVisible = true := by
  unfold nextPlace
  split
  · exact hvisible
  · obtain ⟨t, ht, hv, _⟩ := h.visiblePlace_spec (i + 1)
    exact ⟨t, ht, hv⟩

end Places

namespace TokenStream

/-- A stream shows these tokens: those in its buffer and those that its source
supplies. -/
structure Shows (s : TokenStream) (ts : List Token) : Prop where
  ends : Ended ts
  pending : ∃ rest, ts = s.buffer.toList ++ rest ∧
    (s.ended = true ∧ rest = [] ∨ s.ended = false ∧ Supplies s.source s.buffer.size rest)

/-- A stream shows these tokens and its cursor stands, or will be put, at a place. -/
structure At (s : TokenStream) (ts : List Token) (i : Nat) : Prop where
  shows : s.Shows ts
  place : s.started = true ∧ s.cursor = i ∧ i < s.buffer.size ∨
    s.started = false ∧ visiblePlace ts 0 = i
  visible : ∃ t, ts[i]? = some t ∧ t.isVisible = true

section

variable {s : TokenStream} {ts : List Token}

theorem Shows.size_le (h : s.Shows ts) : s.buffer.size ≤ ts.length := by
  obtain ⟨rest, rfl, _⟩ := h.pending
  simp

theorem Shows.length_le (h : s.Shows ts) : ts.length ≤ s.horizon := by
  obtain ⟨rest, rfl, ⟨_, rfl⟩ | ⟨_, hsupplies⟩⟩ := h.pending
  · simp [horizon]
  · have hle := hsupplies.length_le
    simp only [horizon, List.length_append, Array.length_toList]
    omega

theorem Shows.getElem? (h : s.Shows ts) {i : Nat} (hi : i < s.buffer.size) :
    s.buffer[i]? = ts[i]? := by
  obtain ⟨rest, rfl, _⟩ := h.pending
  rw [List.getElem?_append_left (by simpa using hi), Array.getElem?_toList]

theorem Shows.fetch (h : s.Shows ts) (hrun : s.ended = false) : s.fetch.Shows ts := by
  obtain ⟨rest, rfl, ⟨hended, _⟩ | ⟨_, hsupplies⟩⟩ := h.pending
  · simp [hrun] at hended
  · refine ⟨h.ends, ?_⟩
    cases hsupplies with
    | last hend => exact ⟨[], by simp [TokenStream.fetch], .inl ⟨hend, rfl⟩⟩
    | @more _ _ ts' hrun hrest =>
      refine ⟨ts', by simp [TokenStream.fetch], .inr ⟨hrun, ?_⟩⟩
      simpa [TokenStream.fetch] using hrest

theorem Shows.fetchMany (h : s.Shows ts) (count : Nat) : (s.fetchMany count).Shows ts ∧
    min (s.buffer.size + count) ts.length ≤ (s.fetchMany count).buffer.size ∧
      s.buffer.size ≤ (s.fetchMany count).buffer.size := by
  induction count generalizing s with
  | zero => exact ⟨h, Nat.min_le_left _ _, Nat.le_refl _⟩
  | succ count ih =>
    rw [TokenStream.fetchMany]
    split
    · rename_i hended
      refine ⟨h, ?_, Nat.le_refl _⟩
      obtain ⟨rest, rfl, ⟨_, rfl⟩ | ⟨hrun, _⟩⟩ := h.pending
      · simp
      · simp [hended] at hrun
    · rename_i hrun
      obtain ⟨hshows, hmin, hle⟩ := ih (h.fetch (by simpa using hrun))
      have hsize : s.fetch.buffer.size = s.buffer.size + 1 := by simp [TokenStream.fetch]
      rw [hsize] at hmin hle
      exact ⟨hshows, by omega, by omega⟩

@[simp] theorem fetchMany_cursor (s : TokenStream) (count : Nat) :
    (s.fetchMany count).cursor = s.cursor := by
  induction count generalizing s with
  | zero => rfl
  | succ count ih =>
    rw [fetchMany]
    split
    · rfl
    · exact ih s.fetch

@[simp] theorem fetchMany_started (s : TokenStream) (count : Nat) :
    (s.fetchMany count).started = s.started := by
  induction count generalizing s with
  | zero => rfl
  | succ count ih =>
    rw [fetchMany]
    split
    · rfl
    · exact ih s.fetch

/-- Fetching keeps the tokens and the cursor, and the token of a place is there
afterwards. -/
theorem Shows.fill (h : s.Shows ts) (i : Nat) : (s.fill i).Shows ts ∧
    (s.fill i).buffer[i]? = ts[i]? ∧ s.buffer.size ≤ (s.fill i).buffer.size := by
  obtain ⟨hshows, hmin, hle⟩ := h.fetchMany (i + 1 - s.buffer.size)
  refine ⟨hshows, ?_, hle⟩
  have hsize := hshows.size_le
  by_cases hi : i < (s.fetchMany (i + 1 - s.buffer.size)).buffer.size
  · exact hshows.getElem? hi
  · have hnone : ts[i]? = none := List.getElem?_eq_none (by omega)
    rw [hnone]
    exact Array.getElem?_eq_none (Nat.le_of_not_lt hi)

theorem Shows.visibleIn {places i : Nat} (h : s.Shows ts) (hplaces : ts.length - i < places) :
    (s.visibleIn places i).1 = visiblePlace ts i ∧ (s.visibleIn places i).2.Shows ts ∧
      visiblePlace ts i < (s.visibleIn places i).2.buffer.size ∧
      s.buffer.size ≤ (s.visibleIn places i).2.buffer.size ∧
      (s.visibleIn places i).2.cursor = s.cursor ∧
      (s.visibleIn places i).2.started = s.started := by
  induction places generalizing s i with
  | zero => omega
  | succ places ih =>
    obtain ⟨hshows, hget, hle⟩ := h.fill i
    rw [TokenStream.visibleIn]
    have hcursor : (s.fill i).cursor = s.cursor := fetchMany_cursor s _
    have hstarted : (s.fill i).started = s.started := fetchMany_started s _
    rw [hget]
    cases ht : ts[i]? with
    | none =>
      have hlen : ts.length ≤ i := List.getElem?_eq_none_iff.mp ht
      have hsize : (s.fill i).buffer.size = ts.length := by
        obtain ⟨hshows, hmin, _⟩ := h.fetchMany (i + 1 - s.buffer.size)
        have hsize := hshows.size_le
        rw [TokenStream.fill]
        omega
      have hpos := h.ends.pos
      rw [visiblePlace, if_neg (Nat.not_lt.mpr hlen), hsize]
      exact ⟨rfl, hshows, by omega, by omega, hcursor, hstarted⟩
    | some t =>
      dsimp only
      split
      · rename_i hvisible
        rw [visiblePlace_of_isVisible ht hvisible]
        refine ⟨rfl, hshows, ?_, hle, hcursor, hstarted⟩
        exact (Array.getElem?_eq_some_iff.mp (hget.trans ht)).1
      · rename_i hhidden
        rw [visiblePlace_of_hidden h.ends ht (by simpa using hhidden)]
        have hlt : i < ts.length := (List.getElem?_eq_some_iff.mp ht).1
        obtain ⟨hplace, hshows', hmem, hle', hcursor', hstarted'⟩ :=
          ih hshows (i := i + 1) (by omega)
        exact ⟨hplace, hshows', hmem, Nat.le_trans hle hle', hcursor'.trans hcursor,
          hstarted'.trans hstarted⟩

theorem Shows.visibleFrom (h : s.Shows ts) (i : Nat) :
    (s.visibleFrom i).1 = visiblePlace ts i ∧ (s.visibleFrom i).2.Shows ts ∧
      visiblePlace ts i < (s.visibleFrom i).2.buffer.size ∧
      s.buffer.size ≤ (s.visibleFrom i).2.buffer.size ∧
      (s.visibleFrom i).2.cursor = s.cursor ∧ (s.visibleFrom i).2.started = s.started := by
  have hlength := h.length_le
  exact h.visibleIn (by omega)

namespace At

variable {i : Nat}

theorem ends (h : s.At ts i) : Ended ts :=
  h.shows.ends

/-- The cursor of a started stream stands in the buffer. -/
theorem start (h : s.At ts i) : s.start.At ts i ∧ s.start.started = true ∧ s.start.cursor = i ∧
    i < s.start.buffer.size := by
  unfold TokenStream.start
  rcases h.place with ⟨hstarted, hcursor, hmem⟩ | ⟨hstarted, rfl⟩
  · rw [if_pos hstarted]
    exact ⟨h, hstarted, hcursor, hmem⟩
  · rw [if_neg (by simp [hstarted])]
    obtain ⟨hplace, hshows, hmem, _⟩ := h.shows.visibleFrom 0
    exact ⟨⟨⟨hshows.ends, hshows.pending⟩, .inl ⟨rfl, hplace, hmem⟩, h.visible⟩, rfl, hplace, hmem⟩

theorem index (h : s.At ts i) : s.index.1 = i ∧ s.index.2.At ts i :=
  ⟨h.start.2.2.1, h.start.1⟩

theorem endsAt (h : s.Shows ts) (hi : i < s.buffer.size) :
    s.endsAt i = (ts[i]?).any Token.isEof := by
  rw [TokenStream.endsAt, h.getElem? hi]

/-- The cursor does not move when something behind it is fetched. -/
theorem mono {s' : TokenStream} (h : s.At ts i) (hstarted : s.started = true) (hshows : s'.Shows ts)
    (hle : s.buffer.size ≤ s'.buffer.size) (hcursor : s'.cursor = s.cursor)
    (hstarted' : s'.started = s.started) : s'.At ts i := by
  rcases h.place with ⟨_, hplace, hmem⟩ | ⟨hnot, _⟩
  · exact ⟨hshows, .inl ⟨hstarted'.trans hstarted, hcursor.trans hplace, by omega⟩, h.visible⟩
  · simp [hstarted] at hnot

theorem skipAhead (h : s.Shows ts) {j : Nat} (hj : j < s.buffer.size) (k : Nat) :
    (s.skipAhead k j).1 = (nextPlace ts)^[k] j ∧ (s.skipAhead k j).2.Shows ts ∧
      (nextPlace ts)^[k] j < (s.skipAhead k j).2.buffer.size ∧
      s.buffer.size ≤ (s.skipAhead k j).2.buffer.size ∧
      (s.skipAhead k j).2.cursor = s.cursor ∧ (s.skipAhead k j).2.started = s.started := by
  induction k generalizing s j with
  | zero => exact ⟨rfl, h, hj, Nat.le_refl _, rfl, rfl⟩
  | succ k ih =>
    rw [TokenStream.skipAhead, endsAt h hj, Function.iterate_succ_apply]
    split
    · rename_i hend
      have hfix : nextPlace ts j = j := if_pos hend
      have hfixed : (nextPlace ts)^[k] j = j := Function.iterate_fixed hfix k
      rw [hfix, hfixed]
      exact ⟨rfl, h, hj, Nat.le_refl _, rfl, rfl⟩
    · rename_i hrun
      obtain ⟨hplace, hshows, hmem, hle, hcursor, hstarted⟩ := h.visibleFrom (j + 1)
      have hnext : nextPlace ts j = visiblePlace ts (j + 1) := if_neg hrun
      dsimp only
      rw [hplace, hnext]
      obtain ⟨hplace', hshows', hmem', hle', hcursor', hstarted'⟩ := ih hshows hmem
      exact ⟨hplace', hshows', hmem', Nat.le_trans hle hle', hcursor'.trans hcursor,
        hstarted'.trans hstarted⟩

/-- Looking ahead shows the token of a place and leaves the cursor where it is. -/
theorem peek (h : s.At ts i) (k : Nat) :
    ts[(nextPlace ts)^[k - 1] i]? = some (s.peek k).1 ∧ (s.peek k).2.At ts i := by
  obtain ⟨hat, hstarted, hcursor, hmem⟩ := h.start
  obtain ⟨hplace, hshows, hmem', hle, hcursor', hstarted'⟩ := skipAhead hat.shows hmem (k - 1)
  rw [TokenStream.peek]
  dsimp only
  rw [hcursor, hplace, hshows.getElem? hmem']
  have hlt : (nextPlace ts)^[k - 1] i < ts.length := Nat.lt_of_lt_of_le hmem' hshows.size_le
  rw [List.getElem?_eq_getElem hlt]
  exact ⟨rfl, hat.mono hstarted hshows hle hcursor' hstarted'⟩

theorem peek_one (h : s.At ts i) : ts[i]? = some (s.peek 1).1 ∧ (s.peek 1).2.At ts i :=
  h.peek 1

theorem consume (h : s.At ts i) : s.consume.At ts (nextPlace ts i) := by
  obtain ⟨hat, hstarted, hcursor, hmem⟩ := h.start
  have hvisible := h.ends.nextPlace_visible h.visible
  rw [TokenStream.consume]
  dsimp only
  rw [hcursor, endsAt hat.shows hmem]
  split
  · rename_i hend
    rwa [nextPlace, if_pos hend]
  · rename_i hrun
    obtain ⟨hplace, hshows, hmem', hle, hcursor', hstarted'⟩ := hat.shows.visibleFrom (i + 1)
    have hnext : nextPlace ts i = visiblePlace ts (i + 1) := if_neg hrun
    refine ⟨⟨hshows.ends, hshows.pending⟩, .inl ⟨hstarted'.trans hstarted, ?_, ?_⟩, hvisible⟩
    · rw [hnext, ← hplace]
    · rw [hnext]
      exact hmem'

/-- A stream can return to a visible place. -/
theorem seek {j : Nat} {t : Token} (h : s.At ts j) (ht : ts[i]? = some t)
    (hvisible : t.isVisible = true) : (s.seek i).At ts i := by
  obtain ⟨hplace, hshows, hmem, _⟩ := h.shows.visibleFrom i
  rw [visiblePlace_of_isVisible ht hvisible] at hplace hmem
  exact ⟨⟨hshows.ends, hshows.pending⟩, .inl ⟨rfl, hplace, hmem⟩, t, ht, hvisible⟩

theorem previous (h : s.At ts i) (k : Nat) : (s.previous k).2.At ts i :=
  h.start.1

theorem takeErrors (h : s.At ts i) : s.takeErrors.2.At ts i := by
  refine ⟨⟨h.ends, ?_⟩, h.place, h.visible⟩
  obtain ⟨rest, heq, hpending⟩ := h.shows.pending
  exact ⟨rest, heq, hpending.imp_right fun hrun => ⟨hrun.1, hrun.2.takeErrors⟩⟩

theorem fill (h : s.At ts i) (j : Nat) : (s.fill j).At ts i := by
  obtain ⟨hshows, _, hle⟩ := h.shows.fill j
  refine ⟨hshows, ?_, h.visible⟩
  rw [TokenStream.fill, fetchMany_cursor, fetchMany_started]
  refine h.place.imp_left fun hplace => ⟨hplace.1, hplace.2.1, ?_⟩
  exact Nat.lt_of_lt_of_le hplace.2.2 hle

theorem text (h : s.At ts i) (first last : Nat) : (s.text first last).2.At ts i :=
  h.fill last

/-- The token at the cursor, with what comes behind it. -/
theorem token (h : s.At ts i) : ∃ t, ts[i]? = some t ∧
    (t.isEof = true ∧ upcoming ts i = [t] ∨
      t.isEof = false ∧ upcoming ts i = t :: upcoming ts (nextPlace ts i) ∧
      i < nextPlace ts i) := by
  obtain ⟨t, ht, hvisible⟩ := h.visible
  refine ⟨t, ht, ?_⟩
  rcases Bool.eq_false_or_eq_true t.isEof with heof | hrun
  · exact .inl ⟨heof, h.ends.upcoming_of_isEof ht heof⟩
  · obtain ⟨hupcoming, hlt⟩ := h.ends.upcoming_of_run ht hvisible hrun
    exact .inr ⟨hrun, hupcoming, hlt⟩

/-- The visible tokens from a place on are some before the end of the input, and
this end. -/
theorem upcoming_eq (h : s.At ts i) :
    ∃ before last, upcoming ts i = before ++ [last] ∧ last.isEof = true ∧
      ∀ t ∈ before, t.isEof = false := by
  obtain ⟨init, last, rfl, hlast, hinit⟩ := h.ends
  obtain ⟨t, ht, _⟩ := h.visible
  have hi : i ≤ init.length := by
    have hlt := (List.getElem?_eq_some_iff.mp ht).1
    rw [List.length_append, List.length_singleton] at hlt
    exact Nat.le_of_lt_succ hlt
  refine ⟨(init.drop i).filter Token.isVisible, last, ?_, hlast, fun t ht => ?_⟩
  · rw [upcoming, List.drop_append_of_le_length hi, List.filter_append,
      List.filter_cons_of_pos (Token.isVisible_of_isEof hlast), List.filter_nil]
  · exact hinit t (List.mem_of_mem_drop (List.mem_filter.mp ht).1)

theorem le_nextPlace (h : s.At ts i) : i ≤ nextPlace ts i := by
  obtain ⟨t, ht, hvisible⟩ := h.visible
  exact h.ends.le_nextPlace ht hvisible

end At

end

/-- A stream on a source shows the tokens that the source supplies. -/
theorem at_ofSource {source : TokenSource} {ts : List Token} (hts : Supplies source 0 ts) :
    (ofSource source).At ts (visiblePlace ts 0) := by
  have hends : Ended ts := hts.ends
  obtain ⟨t, ht, hvisible, _⟩ := hends.visiblePlace_spec 0
  exact ⟨⟨hends, ts, rfl, .inr ⟨rfl, hts⟩⟩, .inr ⟨rfl, rfl⟩, t, ht, hvisible⟩

/-- Whatever the source, a stream on it shows some tokens. -/
theorem exists_at_ofSource (source : TokenSource) :
    ∃ ts, Supplies source 0 ts ∧ (ofSource source).At ts (visiblePlace ts 0) := by
  obtain ⟨ts, hts⟩ : ∃ ts, Supplies source 0 ts := by
    cases source with
    | listed rest last => exact (TokenSource.exists_listed rest last 0).imp fun _ h => h.1
    | lexed l => exact (TokenSource.exists_lexed l 0).imp fun _ h => h.1
  exact ⟨ts, hts, at_ofSource hts⟩

end TokenStream

end AdaptiveLL
