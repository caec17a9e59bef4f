/-
Cutting text into tokens leaves nothing out.

The lexer cuts its input into pieces: the matches of rules, and stretches that no
rule matches.  The pieces lie side by side and make up the whole input; each begins
where the text before it ends.  Tokens and errors are read off the pieces.  A match
is the longest of all rules, and belongs to the first rule that has it, as long as
the caps on the rounds of the repetitions fit into a word.
-/
import AdaptiveLL.Proofs.Pattern
import AdaptiveLL.Proofs.Stream

namespace AdaptiveLL

/-- The place behind a text that begins the input. -/
def Place.behind (text : List Char) : Place :=
  ⟨text.length, 1 + text.count '\n', (text.reverse.takeWhile (· != '\n')).length⟩

/-- The place behind the beginning of the input is counted character by character. -/
theorem Place.afterAll_eq_behind (text : List Char) :
    ({} : Place).afterAll text = .behind text := by
  induction text using List.reverseRecOn with
  | nil => rfl
  | append_singleton text c ih =>
    rw [afterAll, List.foldl_append]
    change (({} : Place).afterAll text).after c = _
    rw [ih, after, behind, behind]
    by_cases hc : c = '\n'
    · simp [hc, Nat.add_assoc]
    · simp [hc]

/-- At the position the rule matches so many characters, no rule matches more, and
no rule before it as many. -/
structure MaximalMunch (rules : List LexRule) (input : Array Char) (pos : Nat) (rule : LexRule)
    (length : Nat) : Prop where
  nonempty : 0 < length
  spans : Spans input rule.pattern.language pos (pos + length)
  longest : ∀ r ∈ rules, ∀ m, Spans input r.pattern.language pos (pos + m) → m ≤ length
  first : ∃ before after, rules = before ++ rule :: after ∧
    ∀ r ∈ before, ¬Spans input r.pattern.language pos (pos + length)

/-- Only the empty text matches at the position, if any. -/
def Unmatched (rules : List LexRule) (input : Array Char) (pos : Nat) : Prop :=
  ∀ r ∈ rules, ∀ m, Spans input r.pattern.language pos (pos + m) → m = 0

/-- In an input of this size the caps of all repetitions in the rules fit into a
word. -/
def CapsFit (rules : List LexRule) (size : Nat) : Prop :=
  ∀ r ∈ rules, ∀ q ∈ r.pattern.parts, q.CapFits size

instance (rules : List LexRule) (size : Nat) : Decidable (CapsFit rules size) :=
  inferInstanceAs (Decidable (∀ r ∈ rules, ∀ q ∈ r.pattern.parts, q.CapFits size))

section Munch

variable {input : Array Char} {pos : Nat} {p : Pattern}

theorem Pattern.mem_reach_singleton (hcaps : ∀ q ∈ p.parts, q.CapFits input.size)
    (hpos : pos ≤ input.size) {e : Nat} :
    e ∈ (p.reach input [pos]).ends ↔ Spans input p.language pos e := by
  rw [mem_reach p hcaps [pos] (List.forall_mem_singleton.mpr hpos)]
  simp

/-- The longest match of a pattern is the longest of its texts at the position. -/
theorem Pattern.longestMatch?_eq_some (hcaps : ∀ q ∈ p.parts, q.CapFits input.size)
    (hpos : pos ≤ input.size) {n : Nat}
    (h : longestMatch? (p.reach input [pos]).ends pos = some n) :
    0 < n ∧ Spans input p.language pos (pos + n) ∧
      ∀ m, Spans input p.language pos (pos + m) → m ≤ n := by
  obtain ⟨e, he, rfl⟩ := Option.map_eq_some_iff.mp h
  obtain ⟨hmem, hmax⟩ := List.max?_eq_some_iff.mp he
  obtain ⟨hends, hlt⟩ := List.mem_filter.mp hmem
  have hlt : pos < e := by simpa using hlt
  refine ⟨by omega, ?_, fun m hm => ?_⟩
  · rw [Nat.add_sub_cancel' hlt.le]
    exact (mem_reach_singleton hcaps hpos).mp hends
  · by_cases hzero : m = 0
    · omega
    · have hle := hmax (pos + m) (List.mem_filter.mpr
        ⟨(mem_reach_singleton hcaps hpos).mpr hm, by simpa using Nat.pos_of_ne_zero hzero⟩)
      omega

theorem Pattern.longestMatch?_eq_none (hcaps : ∀ q ∈ p.parts, q.CapFits input.size)
    (hpos : pos ≤ input.size)
    (h : longestMatch? (p.reach input [pos]).ends pos = none) :
    ∀ m, Spans input p.language pos (pos + m) → m = 0 := by
  intro m hm
  have hnil := List.max?_eq_none_iff.mp (Option.map_eq_none_iff.mp h)
  by_contra hzero
  have hmem : pos + m ∈ (p.reach input [pos]).ends.filter (pos < ·) :=
    List.mem_filter.mpr
      ⟨(mem_reach_singleton hcaps hpos).mpr hm, by simpa using Nat.pos_of_ne_zero hzero⟩
  rw [hnil] at hmem
  exact List.not_mem_nil hmem

/-- What is known of the best match of the rules tried so far. -/
def BestMatch (rules : List LexRule) (input : Array Char) (pos : Nat) :
    Option (LexRule × Nat) → Prop
  | none => Unmatched rules input pos
  | some (rule, length) => MaximalMunch rules input pos rule length

variable {rules : List LexRule}

/-- A rule that is tried last wins only with a longer match. -/
theorem BestMatch.snoc (hpos : pos ≤ input.size) {best : Option (LexRule × Nat)}
    (h : BestMatch rules input pos best) {r : LexRule}
    (hcaps : ∀ q ∈ r.pattern.parts, q.CapFits input.size) :
    BestMatch (rules ++ [r]) input pos (longerMatch pos best (r, r.pattern.reach input [pos])) := by
  unfold longerMatch
  cases hlast : Pattern.longestMatch? (r.pattern.reach input [pos]).ends pos with
  | none =>
    have hnone := Pattern.longestMatch?_eq_none hcaps hpos hlast
    cases best with
    | none => exact List.forall_mem_append.mpr ⟨h, List.forall_mem_singleton.mpr hnone⟩
    | some best =>
      obtain ⟨hlength, hspans, hlongest, before, after, rfl, hbefore⟩ := h
      refine ⟨hlength, hspans, ?_, before, after ++ [r], by simp, hbefore⟩
      refine List.forall_mem_append.mpr ⟨hlongest, List.forall_mem_singleton.mpr fun m hm => ?_⟩
      rw [hnone m hm]
      exact Nat.zero_le _
  | some n =>
    obtain ⟨hn, hspans, hmax⟩ := Pattern.longestMatch?_eq_some hcaps hpos hlast
    have hwins (hshorter : ∀ x ∈ rules, ∀ m, Spans input x.pattern.language pos (pos + m) → m < n) :
        MaximalMunch (rules ++ [r]) input pos r n := by
      refine ⟨hn, hspans, ?_, rules, [], rfl, fun x hx hm => ?_⟩
      · refine List.forall_mem_append.mpr ⟨fun x hx m hm => ?_, List.forall_mem_singleton.mpr hmax⟩
        exact (hshorter x hx m hm).le
      · exact Nat.lt_irrefl n (hshorter x hx n hm)
    cases best with
    | none =>
      apply hwins
      intro x hx m hm
      rw [h x hx m hm]
      exact hn
    | some best =>
      obtain ⟨winner, m⟩ := best
      dsimp only
      by_cases hlonger : m < n
      · rw [if_pos hlonger]
        apply hwins
        intro x hx k hk
        exact Nat.lt_of_le_of_lt (h.longest x hx k hk) hlonger
      · rw [if_neg hlonger]
        obtain ⟨before, after, rfl, hbefore⟩ := h.first
        refine ⟨h.nonempty, h.spans, ?_, before, after ++ [r], by simp, hbefore⟩
        refine List.forall_mem_append.mpr ⟨h.longest, List.forall_mem_singleton.mpr fun k hk => ?_⟩
        exact (hmax k hk).trans (Nat.le_of_not_lt hlonger)

/-- Trying the rules in order finds the first of the longest matches. -/
theorem bestMatch_longestRule (hcaps : CapsFit rules input.size) (hpos : pos ≤ input.size) :
    BestMatch rules input pos
      (longestRule pos (rules.map fun r => (r, r.pattern.reach input [pos]))) := by
  induction rules using List.reverseRecOn with
  | nil => exact fun _ h => absurd h List.not_mem_nil
  | append_singleton rules r ih =>
    obtain ⟨hrules, hr⟩ := List.forall_mem_append.mp hcaps
    rw [longestRule, List.map_append, List.foldl_append]
    exact (ih hrules).snoc hpos (hr r List.mem_cons_self)

end Munch

/-- A stretch of the input, where it begins, and the rule that matches it, if one
does. -/
structure Piece where
  place : Place
  text : List Char
  rule : Option LexRule

namespace Piece

def stop (x : Piece) : Nat :=
  x.place.offset + x.text.length

/-- The token for a piece that a rule matches. -/
def tokenOn (x : Piece) (rule : LexRule) (channel : Channel) : Token :=
  { type := rule.type, text := String.ofList x.text, channel, start := x.place.offset,
    stop := x.place.offset + x.text.length - 1, line := x.place.line, column := x.place.column,
    index := -1 }

/-- The token that a piece gives: on the channel that its rule says, unless that
skips it. -/
def token? (x : Piece) : Option Token :=
  x.rule.bind fun rule =>
    match rule.disposition with
    | .skip => none
    | .emit => some (x.tokenOn rule .main)
    | .hide => some (x.tokenOn rule .hidden)

def error? (x : Piece) : Option LexError :=
  match x.rule with
  | none => some ⟨String.ofList x.text, x.place.offset, x.place.line, x.place.column⟩
  | some _ => none

end Piece

/-- The token of a piece has the type of its rule. -/
theorem Piece.type_of_token {x : Piece} {t : Token} (h : x.token? = some t) :
    ∃ r, x.rule = some r ∧ t.type = r.type := by
  obtain ⟨r, hr, htoken⟩ := Option.bind_eq_some_iff.mp h
  refine ⟨r, hr, ?_⟩
  split at htoken
  · cases htoken
  · exact Option.some.inj htoken ▸ rfl
  · exact Option.some.inj htoken ▸ rfl

theorem Piece.error?_of_none {x : Piece} (h : x.rule = none) : x.error? =
    some ⟨String.ofList x.text, x.place.offset, x.place.line, x.place.column⟩ := by
  rw [error?, h]

/-- Only a piece that no rule matches gives an error. -/
theorem Piece.of_error {x : Piece} {e : LexError} (h : x.error? = some e) : x.rule = none ∧
    e = ⟨String.ofList x.text, x.place.offset, x.place.line, x.place.column⟩ := by
  unfold error? at h
  split at h
  · exact ⟨‹_›, (Option.some.inj h).symm⟩
  · cases h

/-- The piece is a stretch of the input, given to one of the rules or to none. -/
structure Piece.Reads (rules : List LexRule) (input : Array Char) (x : Piece) : Prop where
  nonempty : x.text ≠ []
  bound : x.stop ≤ input.size
  slice : x.text = (input.extract x.place.offset x.stop).toList
  place_eq : x.place = .behind (input.toList.take x.place.offset)
  listed : ∀ r, x.rule = some r → r ∈ rules

/-- The piece is the longest match that there is, or there is none. -/
structure Piece.Munches (rules : List LexRule) (input : Array Char) (x : Piece) : Prop where
  matched : ∀ r, x.rule = some r → MaximalMunch rules input x.place.offset r x.text.length
  unmatched : x.rule = none → Unmatched rules input x.place.offset

/-- The pieces make up the input between two positions, side by side. -/
structure Tiles (rules : List LexRule) (input : Array Char) (start stop : Nat)
    (pieces : List Piece) : Prop where
  reads : ∀ x ∈ pieces, x.Reads rules input
  within : ∀ x ∈ pieces, start ≤ x.place.offset ∧ x.stop ≤ stop
  ordered : pieces.Pairwise fun x y => x.stop ≤ y.place.offset
  covers : ∀ i, start ≤ i → i < stop → ∃ x ∈ pieces, x.place.offset ≤ i ∧ i < x.stop

namespace Tiles

variable {rules : List LexRule} {input : Array Char} {start stop : Nat} {x : Piece}
  {pieces : List Piece}

theorem nil : Tiles rules input start start [] where
  reads := nofun
  within := nofun
  ordered := .nil
  covers _ _ _ := by omega

theorem cons (hx : x.Reads rules input) (h : Tiles rules input x.stop stop pieces)
    (hle : x.stop ≤ stop) : Tiles rules input x.place.offset stop (x :: pieces) where
  reads := List.forall_mem_cons.mpr ⟨hx, h.reads⟩
  within := by
    refine List.forall_mem_cons.mpr ⟨⟨Nat.le_refl _, hle⟩, fun y hy => ?_⟩
    obtain ⟨hstart, hstop⟩ := h.within y hy
    exact ⟨(Nat.le_add_right _ _).trans hstart, hstop⟩
  ordered := List.pairwise_cons.mpr ⟨fun y hy => (h.within y hy).1, h.ordered⟩
  covers i hstart hstop := by
    by_cases hi : i < x.stop
    · exact ⟨x, List.mem_cons_self, hstart, hi⟩
    · obtain ⟨y, hy, hin⟩ := h.covers i (Nat.le_of_not_lt hi) hstop
      exact ⟨y, List.mem_cons_of_mem _ hy, hin⟩

/-- If no rule has the type of the end of the input, no piece does. -/
theorem isEof_eq_false (h : Tiles rules input start stop pieces)
    (htypes : ∀ r ∈ rules, r.type ≠ .eof) :
    ∀ t ∈ pieces.filterMap Piece.token?, t.isEof = false := by
  intro t ht
  obtain ⟨x, hx, htoken⟩ := List.mem_filterMap.mp ht
  obtain ⟨r, hr, htype⟩ := Piece.type_of_token htoken
  rw [Token.isEof, htype]
  exact beq_eq_false_iff_ne.mpr (htypes r ((h.reads x hx).listed r hr))

/-- Every position lies in a token, in an error, or in a match that its rule skips. -/
theorem token_or_error_or_skipped (h : Tiles rules input start stop pieces)
    (hmunches : ∀ x ∈ pieces, x.Munches rules input) {i : Nat} (hstart : start ≤ i)
    (hstop : i < stop) :
    (∃ t ∈ pieces.filterMap Piece.token?, t.start ≤ i ∧ i ≤ t.stop) ∨
      (∃ e ∈ pieces.filterMap Piece.error?, e.offset ≤ i ∧ i < e.offset + e.text.length) ∨
      ∃ pos length rule, pos ≤ i ∧ i < pos + length ∧ rule.disposition = .skip ∧
        MaximalMunch rules input pos rule length := by
  obtain ⟨x, hx, hle, hlt⟩ := h.covers i hstart hstop
  rw [Piece.stop] at hlt
  have htoken (rule : LexRule) (channel : Channel) :
      (x.tokenOn rule channel).start ≤ i ∧ i ≤ (x.tokenOn rule channel).stop := by
    constructor
    · exact Int.ofNat_le.mpr hle
    · dsimp only [Piece.tokenOn]
      omega
  cases hrule : x.rule with
  | none =>
    have herror := Piece.error?_of_none hrule
    refine .inr (.inl ⟨_, List.mem_filterMap.mpr ⟨x, hx, herror⟩, hle, ?_⟩)
    rwa [String.length_ofList]
  | some rule =>
    cases hdisposition : rule.disposition with
    | skip =>
      exact .inr (.inr ⟨_, _, rule, hle, hlt, hdisposition, (hmunches x hx).matched rule hrule⟩)
    | emit =>
      refine .inl ⟨_, List.mem_filterMap.mpr ⟨x, hx, ?_⟩, htoken rule .main⟩
      rw [Piece.token?, hrule, Option.bind_some, hdisposition]
    | hide =>
      refine .inl ⟨_, List.mem_filterMap.mpr ⟨x, hx, ?_⟩, htoken rule .hidden⟩
      rw [Piece.token?, hrule, Option.bind_some, hdisposition]

end Tiles

namespace Lexer

def piece (l : Lexer) : Piece :=
  match longestRule l.place.offset l.reaches with
  | some (rule, length) => ⟨l.place, l.ahead length, some rule⟩
  | none =>
    let furthest := l.reaches.foldl (fun m r => max m r.2.furthest) l.place.offset
    ⟨l.place, l.ahead (furthest - l.place.offset + 1), none⟩

def behind (l : Lexer) (x : Piece) : Lexer :=
  { l with place := l.place.afterAll x.text, errors := l.errors ++ x.error?.toList }

/-- One step reads one piece. -/
theorem munch_eq (l : Lexer) : l.munch = (l.piece.token?, l.behind l.piece) := by
  unfold munch piece
  dsimp only
  cases longestRule l.place.offset l.reaches with
  | none => rfl
  | some best =>
    obtain ⟨⟨name, type, pattern, disposition⟩, length⟩ := best
    cases disposition <;> simp [Piece.token?, Piece.tokenOn, tokenOf, Token.make, behind, advance,
      Piece.error?]

/-- The lexer goes on by some pieces, at each of which there is something left to
read. -/
inductive Cuts : Lexer → List Piece → Lexer → Prop where
  | done (l : Lexer) : Cuts l [] l
  | cons {l l' : Lexer} {xs : List Piece} (hleft : l.place.offset < l.input.size)
      (hrest : Cuts (l.behind l.piece) xs l') : Cuts l (l.piece :: xs) l'

variable {l l' : Lexer} {xs : List Piece}

theorem Cuts.trans {l'' : Lexer} {ys : List Piece} (h : Cuts l xs l') (h' : Cuts l' ys l'') :
    Cuts l (xs ++ ys) l'' := by
  induction h with
  | done => exact h'
  | cons hleft _ ih => exact .cons hleft (ih h')

theorem piece_place (l : Lexer) : l.piece.place = l.place := by
  unfold piece
  split <;> rfl

/-- The next token is that of the first piece that gives one, or the end of the
input. -/
theorem cuts_nextIn {steps : Nat} (hsteps : l.remaining < steps) :
    ∃ xs, Cuts l xs (l.nextIn steps).2 ∧
      (xs.filterMap Piece.token? = [(l.nextIn steps).1] ∨
        xs.filterMap Piece.token? = [] ∧ (l.nextIn steps).1 = (l.nextIn steps).2.endToken ∧
          (l.nextIn steps).2.input.size ≤ (l.nextIn steps).2.place.offset) := by
  induction steps generalizing l with
  | zero => omega
  | succ steps ih =>
    rw [nextIn]
    by_cases hend : l.input.size ≤ l.place.offset
    · rw [if_pos hend]
      exact ⟨[], .done l, .inr ⟨rfl, rfl, hend⟩⟩
    · rw [if_neg hend]
      have hleft := Nat.lt_of_not_le hend
      have hmunch := l.munch_eq
      have hless := l.remaining_munch hleft
      rw [hmunch] at hless ⊢
      change (l.behind l.piece).remaining < l.remaining at hless
      cases htoken : l.piece.token? with
      | some t => exact ⟨[l.piece], .cons hleft (.done _), .inl (by simp [htoken])⟩
      | none =>
        obtain ⟨xs, hcuts, htokens⟩ := ih (l := l.behind l.piece) (by omega)
        exact ⟨l.piece :: xs, .cons hleft hcuts, by simpa [htoken] using htokens⟩

theorem length_ahead (l : Lexer) (length : Nat) :
    (l.ahead length).length = min (l.place.offset + length) l.input.size - l.place.offset := by
  rw [ahead, Array.length_toList, Array.size_extract]

/-- The next characters are those up to where they end. -/
theorem ahead_eq (l : Lexer) (length : Nat) : l.ahead length =
    (l.input.extract l.place.offset (l.place.offset + (l.ahead length).length)).toList := by
  have hprefix := List.take_prefix length (l.input.toList.drop l.place.offset)
  have hahead : l.ahead length = (l.input.toList.drop l.place.offset).take length := by
    rw [ahead, Array.toList_extract, List.extract_eq_take_drop, Nat.add_sub_cancel_left]
  rw [Array.toList_extract, List.extract_eq_take_drop, Nat.add_sub_cancel_left, hahead]
  exact List.prefix_iff_eq_take.mp hprefix

/-- A lexer stands where the text before it ends. -/
def Placed (l : Lexer) : Prop :=
  l.place = .behind (l.input.toList.take l.place.offset)

theorem Placed.le_size (h : Placed l) : l.place.offset ≤ l.input.size := by
  have hoffset : l.place.offset = (l.input.toList.take l.place.offset).length :=
    congrArg Place.offset h
  rw [List.length_take] at hoffset
  simp only [Array.length_toList] at hoffset
  omega

/-- The piece that a lexer reads next is a stretch of its input. -/
theorem reads_piece (h : Placed l) (hleft : l.place.offset < l.input.size) :
    l.piece.Reads l.rules l.input := by
  have hahead {length : Nat} (hlength : 0 < length) (rule : Option LexRule)
      (hlisted : ∀ r, rule = some r → r ∈ l.rules) :
      Piece.Reads l.rules l.input ⟨l.place, l.ahead length, rule⟩ := by
    refine ⟨?_, ?_, l.ahead_eq _, h, hlisted⟩
    · rw [← List.length_pos_iff, length_ahead]
      omega
    · rw [Piece.stop, length_ahead]
      dsimp only
      omega
  unfold piece
  split
  · rename_i rule length hlongest
    refine hahead (longestRule_pos hlongest) _ fun r hr => ?_
    obtain ⟨_, hmem, hrule, _⟩ := exists_longestMatch hlongest
    obtain ⟨r', hr', rfl⟩ := List.mem_map.mp hmem
    obtain rfl := Option.some.inj hr
    obtain rfl : r' = rule := hrule
    exact hr'
  · exact hahead (Nat.succ_pos _) none nofun

/-- Where the caps fit, it is the longest match. -/
theorem munches_piece (h : Placed l) (hcaps : CapsFit l.rules l.input.size) :
    l.piece.Munches l.rules l.input := by
  have hbest := bestMatch_longestRule hcaps h.le_size
  unfold piece reaches
  cases hlongest : longestRule l.place.offset
      (l.rules.map fun r => (r, r.pattern.reach l.input [l.place.offset])) with
  | none =>
    rw [hlongest] at hbest
    exact ⟨nofun, fun _ => hbest⟩
  | some best =>
    obtain ⟨rule, length⟩ := best
    rw [hlongest] at hbest
    have hbound := hbest.spans.bound
    have hlength : (l.ahead length).length = length := by
      rw [length_ahead]
      omega
    refine ⟨fun r hr => ?_, nofun⟩
    obtain rfl := Option.some.inj hr
    dsimp only
    rwa [hlength]

theorem offset_behind (l : Lexer) : (l.behind l.piece).place.offset = l.piece.stop := by
  rw [behind, Place.offset_afterAll, Piece.stop, piece_place]

theorem placed_behind (h : Placed l) (hleft : l.place.offset < l.input.size) :
    Placed (l.behind l.piece) := by
  have hreads := reads_piece h hleft
  rw [Placed, offset_behind]
  have hafter : (l.behind l.piece).place =
      ({} : Place).afterAll (l.input.toList.take l.place.offset ++ l.piece.text) := by
    rw [Place.afterAll, List.foldl_append]
    change l.place.afterAll l.piece.text =
      Place.afterAll (({} : Place).afterAll (l.input.toList.take l.place.offset)) l.piece.text
    rw [Place.afterAll_eq_behind, ← h]
  have htake : l.input.toList.take l.place.offset ++ l.piece.text =
      l.input.toList.take l.piece.stop := by
    have hslice := hreads.slice
    rw [piece_place, Array.toList_extract, List.extract_eq_take_drop, Piece.stop, piece_place,
      Nat.add_sub_cancel_left] at hslice
    rw [Piece.stop, piece_place, List.take_add, ← hslice]
  rw [hafter, htake, Place.afterAll_eq_behind]
  rfl

namespace Cuts

theorem placed (h : Cuts l xs l') (hplaced : Placed l) : Placed l' := by
  induction h with
  | done => exact hplaced
  | cons hleft _ ih => exact ih (placed_behind hplaced hleft)

theorem offset_le (h : Cuts l xs l') : l.place.offset ≤ l'.place.offset := by
  induction h with
  | done => exact Nat.le_refl _
  | @cons l _ _ _ _ ih =>
    rw [offset_behind] at ih
    exact le_trans (by rw [Piece.stop, piece_place]; omega) ih

theorem tiles (h : Cuts l xs l') (hplaced : Placed l) :
    Tiles l.rules l.input l.place.offset l'.place.offset xs := by
  induction h with
  | done => exact .nil
  | @cons l l' xs hleft hrest ih =>
    have htiles := ih (placed_behind hplaced hleft)
    have hle := hrest.offset_le
    rw [offset_behind] at htiles hle
    rw [← piece_place]
    exact .cons (reads_piece hplaced hleft) htiles hle

theorem same (h : Cuts l xs l') : l'.rules = l.rules ∧ l'.input = l.input := by
  induction h with
  | done => exact ⟨rfl, rfl⟩
  | cons _ _ ih => exact ih

theorem munches (h : Cuts l xs l') (hplaced : Placed l) (hcaps : CapsFit l.rules l.input.size) :
    ∀ x ∈ xs, x.Munches l.rules l.input := by
  induction h with
  | done => exact nofun
  | cons hleft _ ih =>
    exact List.forall_mem_cons.mpr
      ⟨munches_piece hplaced hcaps, ih (placed_behind hplaced hleft) hcaps⟩

theorem errors_eq (h : Cuts l xs l') : l'.errors = l.errors ++ xs.filterMap Piece.error? := by
  induction h with
  | done => simp
  | @cons l l' xs _ _ ih =>
    rw [ih, behind, List.append_assoc]
    cases herror : l.piece.error? <;> simp [herror]

end Cuts

def pulled (l : Lexer) (count : Nat) : Lexer :=
  (fun l => l.next.2)^[count] l

theorem pulled_succ (l : Lexer) (count : Nat) : l.pulled (count + 1) = (l.pulled count).next.2 :=
  Function.iterate_succ_apply' _ count l

/-- On the way from one token to a later one the lexer reads some pieces. -/
theorem exists_cuts_pulled (l : Lexer) {n m : Nat} (h : n ≤ m) :
    ∃ xs, Cuts (l.pulled n) xs (l.pulled m) := by
  induction m, h using Nat.le_induction with
  | base => exact ⟨[], .done _⟩
  | succ m _ ih =>
    obtain ⟨xs, hcuts⟩ := ih
    obtain ⟨ys, hnext, _⟩ := cuts_nextIn (Nat.lt_succ_self (l.pulled m).remaining)
    rw [pulled_succ]
    exact ⟨xs ++ ys, hcuts.trans hnext⟩

theorem tokensIn_eq_pulled (l : Lexer) (count : Nat) :
    (l.tokensIn count).2 = l.pulled (l.tokensIn count).1.length := by
  induction count generalizing l with
  | zero => rfl
  | succ count ih =>
    rw [tokensIn]
    dsimp only
    split
    · rfl
    · exact ih l.next.2

/-- The tokens are those of the pieces, up to the end of the input. -/
theorem cuts_tokensIn {count : Nat} (hplaced : Placed l) (htypes : ∀ r ∈ l.rules, r.type ≠ .eof)
    (hcount : l.remaining < count) :
    ∃ xs, Cuts l xs (l.tokensIn count).2 ∧
      (l.tokensIn count).1 = xs.filterMap Piece.token? ++ [(l.tokensIn count).2.endToken] ∧
      (l.tokensIn count).2.place.offset = l.input.size := by
  induction count generalizing l with
  | zero => omega
  | succ count ih =>
    obtain ⟨xs, hcuts, htokens⟩ := cuts_nextIn (l := l) (Nat.lt_succ_self l.remaining)
    change Cuts l xs l.next.2 at hcuts
    have hnext := l.next_isEof_or_lt
    rw [tokensIn]
    dsimp only
    rcases htokens with htoken | ⟨hnone, hend, hsize⟩
    · change xs.filterMap Piece.token? = [l.next.1] at htoken
      have hrun : l.next.1.isEof = false :=
        (hcuts.tiles hplaced).isEof_eq_false htypes _ (by rw [htoken]; exact List.mem_cons_self)
      have hless := l.next_isEof_or_lt.resolve_left (by simp [hrun])
      obtain ⟨hrules, hinput⟩ := hcuts.same
      obtain ⟨ys, hcuts', htokens, hsize⟩ :=
        ih (hcuts.placed hplaced) (by rwa [hrules]) (l := l.next.2) (by omega)
      rw [if_neg (by simp [hrun])]
      refine ⟨xs ++ ys, hcuts.trans hcuts', ?_, hsize.trans (congrArg Array.size hinput)⟩
      rw [List.filterMap_append, htoken, htokens]
      rfl
    · change l.next.1 = l.next.2.endToken at hend
      change l.next.2.input.size ≤ l.next.2.place.offset at hsize
      have heof : l.next.1.isEof = true := by
        rw [hend]
        rfl
      rw [if_pos heof]
      refine ⟨xs, hcuts, by rw [hnone, hend]; rfl, ?_⟩
      rw [← hcuts.same.2]
      exact Nat.le_antisymm (hcuts.placed hplaced).le_size hsize

theorem tokenize_eq (l : Lexer) : l.tokenize =
    ((l.tokensIn (l.remaining + 1)).1, (l.tokensIn (l.remaining + 1)).2.errors) :=
  rfl

theorem placed_ofText (rules : List LexRule) (text : String) : Placed (ofText rules text) :=
  rfl

/-- Cutting a text into tokens tiles it with pieces: matches, each the longest of
all rules and of the first rule that has it, and stretches that no rule matches,
each with its text and place.  The tokens are those of the pieces that a rule
matches and does not skip, followed by the one end of the input; the errors are the
stretches.  What is in neither is in matches that a rule skips. -/
theorem tokenize_tiles {rules : List LexRule} (text : String)
    (htypes : ∀ r ∈ rules, r.type ≠ .eof) (hcaps : CapsFit rules text.length) :
    ∃ pieces, Tiles rules text.toList.toArray 0 text.length pieces ∧
      (∀ x ∈ pieces, x.Munches rules text.toList.toArray) ∧
      ((ofText rules text).tokenize.1 = pieces.filterMap Piece.token? ++
        [Token.endOfInput text.length (Place.behind text.toList).line
          (Place.behind text.toList).column] ∧
        ∀ t ∈ pieces.filterMap Piece.token?, t.isEof = false) ∧
      (ofText rules text).tokenize.2 = pieces.filterMap Piece.error? ∧
      ∀ i < text.length, (∃ t ∈ (ofText rules text).tokenize.1, t.start ≤ i ∧ i ≤ t.stop) ∨
        (∃ e ∈ (ofText rules text).tokenize.2, e.offset ≤ i ∧ i < e.offset + e.text.length) ∨
        ∃ pos length rule, pos ≤ i ∧ i < pos + length ∧ rule.disposition = .skip ∧
          MaximalMunch rules text.toList.toArray pos rule length := by
  have hsize : (ofText rules text).input.size = text.length := String.length_toList
  obtain ⟨pieces, hcuts, htokens, hend⟩ := cuts_tokensIn (placed_ofText rules text) htypes
    (Nat.lt_succ_self (ofText rules text).remaining)
  have hplaced := hcuts.placed (placed_ofText rules text)
  have htiles := hcuts.tiles (placed_ofText rules text)
  have hmunches := hcuts.munches (placed_ofText rules text) (hsize.symm ▸ hcaps)
  have herrors := hcuts.errors_eq
  rw [hend, hsize] at htiles
  -- The lexer stops where the whole text ends.
  have hlast : ((ofText rules text).tokensIn ((ofText rules text).remaining + 1)).2.place =
      .behind text.toList := by
    rw [Placed, hcuts.same.2, hend] at hplaced
    rw [hplaced, ← Array.length_toList, List.take_length]
    rfl
  refine ⟨pieces, htiles, hmunches, ⟨?_, htiles.isEof_eq_false htypes⟩, herrors, fun i hi => ?_⟩
  · rw [tokenize_eq, htokens, endToken, hlast, Place.behind, String.length_toList]
  · rcases htiles.token_or_error_or_skipped hmunches (Nat.zero_le i) hi with ⟨t, ht, hin⟩ | hrest
    · refine .inl ⟨t, ?_, hin⟩
      rw [tokenize_eq, htokens]
      exact List.mem_append_left _ ht
    · right
      rw [tokenize_eq, herrors]
      exact hrest

/-- A keyword, words, blanks that are skipped and a mark that is hidden. -/
def words : List LexRule :=
  [⟨"LET", 1, .literal "let", .emit⟩, ⟨"WORD", 2, .plus (.between 'a' 'z'), .emit⟩,
    ⟨"BLANK", 3, .plus (.oneOf .space), .skip⟩, ⟨"MARK", 4, .literal "#", .hide⟩]

theorem tokenize_tiles_words : ∃ pieces, Tiles words "let\nlets #?".toList.toArray 0 11 pieces ∧
    (∀ x ∈ pieces, x.Munches words "let\nlets #?".toList.toArray) ∧
    pieces.filterMap Piece.error? = [⟨"?", 10, 2, 6⟩] ∧
      (pieces.filterMap Piece.token?).map Token.type = [1, 2, 4] := by
  have htypes : ∀ r ∈ words, r.type ≠ .eof := by decide
  have hcaps : CapsFit words "let\nlets #?".length := by decide +kernel
  obtain ⟨pieces, htiles, hmunches, ⟨htokens, _⟩, herrors, _⟩ :=
    tokenize_tiles "let\nlets #?" htypes hcaps
  refine ⟨pieces, htiles, hmunches, herrors.symm.trans (by decide +kernel), ?_⟩
  have hread : (ofText words "let\nlets #?").tokenize.1.map Token.type = [1, 2, 4] ++ [-1] := by
    decide +kernel
  rw [htokens, List.map_append] at hread
  exact List.append_cancel_right hread

def countless : LexRule :=
  ⟨"COUNTLESS", 1, .countless, .emit⟩

/-- Where the cap wraps around, what the rule matches becomes an error: no pieces
with the errors of the lexer are longest matches. -/
theorem tokenize_countless :
    MaximalMunch [countless] "aaa".toList.toArray 0 countless 3 ∧
      (ofText [countless] "aaa").tokenize.2 = [⟨"aaa", 0, 1, 0⟩] ∧
      ¬∃ pieces : List Piece, (∀ x ∈ pieces, x.Munches [countless] "aaa".toList.toArray) ∧
        (ofText [countless] "aaa").tokenize.2 = pieces.filterMap Piece.error? := by
  have hspans := Pattern.spans_countless
  have herrors : (ofText [countless] "aaa").tokenize.2 = [⟨"aaa", 0, 1, 0⟩] := by decide +kernel
  refine ⟨⟨by decide, hspans, ?_, [], [], rfl, nofun⟩, herrors, ?_⟩
  · refine List.forall_mem_singleton.mpr fun m hm => ?_
    have hbound := hm.bound
    rwa [Nat.zero_add] at hbound
  · rintro ⟨pieces, hmunches, htold⟩
    have hmem : (⟨"aaa", 0, 1, 0⟩ : LexError) ∈ pieces.filterMap Piece.error? := by
      rw [← htold, herrors]
      exact List.mem_cons_self
    obtain ⟨x, hx, herror⟩ := List.mem_filterMap.mp hmem
    obtain ⟨hnone, heq⟩ := Piece.of_error herror
    have hoffset : 0 = x.place.offset := congrArg LexError.offset heq
    have hunmatched := (hmunches x hx).unmatched hnone
    rw [← hoffset] at hunmatched
    exact absurd (hunmatched countless List.mem_cons_self 3 hspans) (by decide)

end Lexer

end AdaptiveLL
