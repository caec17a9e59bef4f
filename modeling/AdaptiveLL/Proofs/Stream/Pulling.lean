/-
What a lexer has told when so many tokens were pulled from it.

A stream pulls tokens from its lexer one behind the other, and takes the errors from
it now and then.  Whenever it takes them, the errors taken so far are those that the
lexer met up to the token that was pulled last, in the order of the text.
-/
import AdaptiveLL.Grammar
import AdaptiveLL.Proofs.Stream.Fetching
import AdaptiveLL.Proofs.Tiling

namespace AdaptiveLL

namespace Tiles

variable {rules : List LexRule} {input : Array Char} {start stop : Nat} {pieces : List Piece}

theorem exists_of_error {e : LexError} (he : e ∈ pieces.filterMap Piece.error?) :
    ∃ x ∈ pieces, e.offset = x.place.offset := by
  obtain ⟨x, hx, herror⟩ := List.mem_filterMap.mp he
  exact ⟨x, hx, congrArg LexError.offset (Piece.of_error herror).2⟩

theorem error_within (h : Tiles rules input start stop pieces) {e : LexError}
    (he : e ∈ pieces.filterMap Piece.error?) : start ≤ e.offset ∧ e.offset < stop := by
  obtain ⟨x, hx, hoffset⟩ := exists_of_error he
  have hlength := List.length_pos_iff.mpr (h.reads x hx).nonempty
  obtain ⟨hstart, hstop⟩ := h.within x hx
  rw [Piece.stop] at hstop
  omega

/-- The errors stand in the order of the text, no two of them at one place. -/
theorem errors_pairwise (h : Tiles rules input start stop pieces) :
    (pieces.filterMap Piece.error?).Pairwise fun e e' => e.offset < e'.offset := by
  refine List.pairwise_filterMap.mpr (h.ordered.imp_of_mem fun {x y} hx _ hle e he e' he' => ?_)
  have hsingle {x : Piece} {e : LexError} (he : x.error? = some e) : e.offset = x.place.offset := by
    obtain ⟨y, hy, hoffset⟩ := exists_of_error (List.mem_filterMap.mpr ⟨x, List.mem_cons_self, he⟩)
    rwa [List.mem_singleton.mp hy] at hoffset
  have hlength := List.length_pos_iff.mpr (h.reads x hx).nonempty
  rw [hsingle he, hsingle he']
  rw [Piece.stop] at hle
  omega

end Tiles

namespace Lexer

variable {l : Lexer}

theorem Placed.pulled (h : Placed l) (count : Nat) : Placed (l.pulled count) := by
  obtain ⟨_, hcuts⟩ := l.exists_cuts_pulled (Nat.zero_le count)
  exact hcuts.placed h

theorem offset_pulled_mono (l : Lexer) {n m : Nat} (h : n ≤ m) :
    (l.pulled n).place.offset ≤ (l.pulled m).place.offset := by
  obtain ⟨_, hcuts⟩ := l.exists_cuts_pulled h
  exact hcuts.offset_le

/-- The errors that are met on the way to a later token lie behind those before, in
the text that is read on the way. -/
theorem exists_errors_pulled (hplaced : Placed l) {n m : Nat} (h : n ≤ m) :
    ∃ later, (l.pulled m).errors = (l.pulled n).errors ++ later ∧
      (∀ e ∈ later, (l.pulled n).place.offset ≤ e.offset ∧
        e.offset < (l.pulled m).place.offset) ∧
      later.Pairwise fun e e' => e.offset < e'.offset := by
  obtain ⟨xs, hcuts⟩ := l.exists_cuts_pulled h
  have htiles := hcuts.tiles (hplaced.pulled n)
  exact ⟨_, hcuts.errors_eq, fun e he => htiles.error_within he, htiles.errors_pairwise⟩

/-- A token begins in the text that was read for it. -/
theorem start_next_le (hplaced : Placed l) : l.next.1.start ≤ l.next.2.place.offset := by
  obtain ⟨xs, hcuts, htoken⟩ := cuts_nextIn (Nat.lt_succ_self l.remaining)
  change Cuts l xs l.next.2 at hcuts
  rcases htoken with htoken | ⟨_, hend, _⟩
  · change xs.filterMap Piece.token? = [l.next.1] at htoken
    have hmem : l.next.1 ∈ xs.filterMap Piece.token? := by
      rw [htoken]
      exact List.mem_cons_self
    obtain ⟨x, hx, ht⟩ := List.mem_filterMap.mp hmem
    have hstart : l.next.1.start = x.place.offset := by
      obtain ⟨rule, _, ht⟩ := Option.bind_eq_some_iff.mp ht
      split at ht
      · cases ht
      · exact Option.some.inj ht ▸ rfl
      · exact Option.some.inj ht ▸ rfl
    have hstop := ((hcuts.tiles hplaced).within x hx).2
    rw [hstart]
    exact Int.ofNat_le.mpr ((Nat.le_add_right _ _).trans hstop)
  · change l.next.1 = l.next.2.endToken at hend
    rw [hend]
    exact Int.le_refl _

/-- A token begins before the place behind the tokens that were pulled with it. -/
theorem start_le_pulled (hplaced : Placed l) {place count : Nat} (h : place < count) :
    (l.pulled place).next.1.start ≤ (l.pulled count).place.offset := by
  have hstart := start_next_le (hplaced.pulled place)
  rw [← pulled_succ] at hstart
  exact hstart.trans (Int.ofNat_le.mpr (l.offset_pulled_mono h))

section Text

variable {rules : List LexRule} {text : String}

/-- The errors of a text up to a token lie one behind the other. -/
theorem errors_pulled_pairwise (rules : List LexRule) (text : String) (count : Nat) :
    ((ofText rules text).pulled count).errors.Pairwise fun e e' => e.offset < e'.offset := by
  obtain ⟨errors, herrors, _, hpairwise⟩ :=
    exists_errors_pulled (placed_ofText rules text) (Nat.zero_le count)
  obtain rfl : ((ofText rules text).pulled count).errors = errors := herrors
  exact hpairwise

/-- The errors up to a token are those, up to any later one, that lie before the
place behind it. -/
theorem errors_pulled_split (rules : List LexRule) (text : String) {n m : Nat} (h : n ≤ m) :
    let offset := ((ofText rules text).pulled n).place.offset
    ((ofText rules text).pulled n).errors =
        (((ofText rules text).pulled m).errors.filter fun e => e.offset < offset) ∧
      ((ofText rules text).pulled m).errors = ((ofText rules text).pulled n).errors ++
        ((ofText rules text).pulled m).errors.filter fun e => offset ≤ e.offset := by
  intro offset
  have hplaced := placed_ofText rules text
  obtain ⟨errors, herrors, hbefore, _⟩ := exists_errors_pulled hplaced (Nat.zero_le n)
  obtain ⟨later, hlater, hbehind, _⟩ := exists_errors_pulled hplaced h
  obtain rfl : ((ofText rules text).pulled n).errors = errors := herrors
  have hin (e : LexError) (he : e ∈ ((ofText rules text).pulled n).errors) : e.offset < offset :=
    (hbefore e he).2
  have hout (e : LexError) (he : e ∈ later) : offset ≤ e.offset := (hbehind e he).1
  rw [hlater, List.filter_append, List.filter_append]
  constructor
  · rw [List.filter_eq_self.mpr fun e he => decide_eq_true (hin e he),
      List.filter_eq_nil_iff.mpr fun e he => by simpa using hout e he, List.append_nil]
  · rw [List.filter_eq_nil_iff.mpr fun e he => by simpa using hin e he,
      List.filter_eq_self.mpr fun e he => decide_eq_true (hout e he), List.nil_append]

/-- The errors up to a token are those of the whole text that lie before the place
behind it. -/
theorem errors_pulled_eq_filter {count : Nat}
    (hcount : count ≤ (ofText rules text).tokenize.1.length) :
    ((ofText rules text).pulled count).errors = (ofText rules text).tokenize.2.filter
      fun e => e.offset < ((ofText rules text).pulled count).place.offset := by
  have hall : (ofText rules text).tokenize.2 =
      ((ofText rules text).pulled (ofText rules text).tokenize.1.length).errors := by
    rw [tokenize_eq]
    exact congrArg Lexer.errors (tokensIn_eq_pulled (ofText rules text) _)
  rw [hall]
  exact (errors_pulled_split rules text hcount).1

end Text

end Lexer

/-- A stream that pulls its tokens from a lexer, and took these errors from it. -/
structure TokenStream.Pulls (l : Lexer) (taken : List LexError) (s : TokenStream) : Prop where
  source : ∃ pending, s.source = .lexed { l.pulled s.buffer.size with errors := pending } ∧
    (l.pulled s.buffer.size).errors = taken ++ pending
  tokens : ∀ i t, s.buffer[i]? = some t → t = (l.pulled i).next.1.atIndex i

namespace TokenStream.Pulls

variable {l : Lexer} {taken : List LexError} {s s' : TokenStream}

theorem ofSource (l : Lexer) : (TokenStream.ofSource (.lexed l)).Pulls l [] where
  source := ⟨l.errors, rfl, rfl⟩
  tokens i t ht := by simp [TokenStream.ofSource] at ht

theorem fetch (h : s.Pulls l taken) : s.fetch.Pulls l taken := by
  obtain ⟨pending, hsource, herrors⟩ := h.source
  obtain ⟨pending', hnext, herrors'⟩ := (l.pulled s.buffer.size).next_errors herrors
  have hfetch : s.fetch = { s with
      source := .lexed { l.pulled (s.buffer.size + 1) with errors := pending' }
      buffer := s.buffer.push ((l.pulled s.buffer.size).next.1.atIndex s.buffer.size)
      ended := (l.pulled s.buffer.size).next.1.isEof } := by
    rw [TokenStream.fetch, hsource, TokenSource.next, hnext, Lexer.pulled_succ]
  have hsize : s.fetch.buffer.size = s.buffer.size + 1 := by rw [hfetch, Array.size_push]
  refine ⟨⟨pending', by rw [hsize, hfetch], by rw [hsize, Lexer.pulled_succ, herrors']⟩, ?_⟩
  intro i t ht
  rw [hfetch, Array.getElem?_push] at ht
  split at ht
  · rename_i hi
    obtain rfl := Option.some.inj ht
    rw [hi]
  · exact h.tokens i t ht

theorem of_fetches (h : s.Pulls l taken) (hs : s.Fetches s') : s'.Pulls l taken :=
  hs.keeps h (fun _ h _ => h.fetch) fun _ _ _ h => ⟨h.source, h.tokens⟩

/-- When the errors are taken, those are taken that the lexer has met and that were
not taken before. -/
theorem takeErrors (h : s.Pulls l taken) :
    (l.pulled s.buffer.size).errors = taken ++ s.takeErrors.1 ∧
      s.takeErrors.2.Pulls l (l.pulled s.buffer.size).errors := by
  obtain ⟨pending, hsource, herrors⟩ := h.source
  have htake : s.takeErrors =
      (pending, { s with source := .lexed { l.pulled s.buffer.size with errors := [] } }) := by
    rw [TokenStream.takeErrors, hsource]
    rfl
  rw [htake]
  exact ⟨herrors, ⟨[], rfl, (List.append_nil _).symm⟩, h.tokens⟩

/-- What was taken is what the lexer no longer keeps. -/
theorem unique {taken' : List LexError} (h : s.Pulls l taken) (h' : s.Pulls l taken') :
    taken = taken' := by
  obtain ⟨pending, hsource, herrors⟩ := h.source
  obtain ⟨pending', hsource', herrors'⟩ := h'.source
  have hsame := congrArg Lexer.errors (TokenSource.lexed.inj (hsource.symm.trans hsource'))
  obtain rfl : pending = pending' := hsame
  exact List.append_cancel_right (herrors.symm.trans herrors')

/-- When all errors were taken, the lexer keeps none. -/
theorem source_eq (h : s.Pulls l (l.pulled s.buffer.size).errors) :
    s.source = .lexed { l.pulled s.buffer.size with errors := [] } := by
  obtain ⟨pending, hsource, herrors⟩ := h.source
  obtain rfl := List.self_eq_append_right.mp herrors
  exact hsource

end TokenStream.Pulls

end AdaptiveLL
