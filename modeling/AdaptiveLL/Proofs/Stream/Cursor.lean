/-
Streams as plain cursors.

A plain cursor has all tokens of a source before it and stands at a visible one.  A
stream fetches its tokens when they are first looked at, passes over hidden ones and
goes to the end of the input when it is sent beyond; but what it answers is what the
plain cursor answers.  The exceptions are the text from a place to an earlier one,
of which only what has been fetched is read, and a text over more places than a word
can count.
-/
import AdaptiveLL.Proofs.Stream.Use
import Mathlib.Data.List.TakeWhile

namespace AdaptiveLL

/-- Something that a stream is asked, or told to do. -/
inductive StreamCall where
  /-- The type of the `k`-th token ahead. -/
  | peekType (k : Nat)
  /-- The `k`-th token ahead. -/
  | peek (k : Nat)
  /-- The `k`-th token on the main channel behind the cursor. -/
  | previous (k : Nat)
  | consume
  | index
  | seek (i : Nat)
  | mark
  /-- Go back to a mark; `back` marks were taken after it. -/
  | rewind (back : Nat)
  | text (first last : Nat)
deriving DecidableEq

/-- A call for a text names its first place first, and a word can count the places. -/
def StreamCall.IsProper : StreamCall → Prop
  | .text first last => first ≤ last ∧ last - first + 1 < Word.bound
  | _ => True

inductive StreamAnswer where
  | done
  | type (t? : Option TokenType)
  | token (t? : Option Token)
  | place (i : Nat)
  | text (s : String)
deriving DecidableEq

/-- A stream with the marks that were taken, the last one first. -/
structure MarkedStream where
  stream : TokenStream
  marks : List Nat := []

namespace MarkedStream

def call (m : MarkedStream) : StreamCall → StreamAnswer × MarkedStream
  | .peekType k =>
    let (t, stream) := m.stream.peekType k
    (.type (some t), { m with stream })
  | .peek k =>
    let (t, stream) := m.stream.peek k
    (.token (some t), { m with stream })
  | .previous k =>
    let (t?, stream) := m.stream.previous k
    (.token t?, { m with stream })
  | .consume => (.done, { m with stream := m.stream.consume })
  | .index =>
    let (i, stream) := m.stream.index
    (.place i, { m with stream })
  | .seek i => (.done, { m with stream := m.stream.seek i })
  | .mark =>
    let (i, stream) := m.stream.index
    (.place i, ⟨stream, i :: m.marks⟩)
  | .rewind back =>
    match m.marks[back]? with
    | none => (.done, m)
    | some i => (.done, { m with stream := m.stream.seek i })
  | .text first last =>
    let (s, stream) := m.stream.text first last
    (.text s, { m with stream })

def after (m : MarkedStream) (calls : List StreamCall) : MarkedStream :=
  calls.foldl (fun m c => (m.call c).2) m

end MarkedStream

def visiblePlaces (ts : List Token) : List Nat :=
  (List.range ts.length).filter fun i => (ts[i]?).any Token.isVisible

/-- A cursor over tokens that are all there, with the marks that were taken. -/
structure PlainCursor where
  place : Nat
  marks : List Nat := []

namespace PlainCursor

variable (ts : List Token) (c : PlainCursor)

/-- The `k`-th visible token from the cursor on, the one at the cursor being the
first; the last one if there are fewer. -/
def ahead (k : Nat) : Option Token :=
  (upcoming ts c.place)[min (k - 1) ((upcoming ts c.place).length - 1)]?

/-- The `k`-th token on the main channel before the cursor, the nearest one being
the first. -/
def behind : (k : Nat) → Option Token
  | 0 => none
  | k + 1 => ((ts.take c.place).filter fun t => t.channel = .main).reverse[k]?

/-- The next visible place; there is none behind the last one. -/
def step : Nat :=
  ((visiblePlaces ts).find? (c.place < ·)).getD c.place

/-- The first visible place at or behind `i`; the last place if there is none. -/
def jump (i : Nat) : Nat :=
  ((visiblePlaces ts).find? (i ≤ ·)).getD (ts.length - 1)

def atFirst : PlainCursor :=
  { place := jump ts 0 }

/-- The texts of the tokens from one place up to another, without that one and
without the end of the input. -/
def textUpTo (first stop : Nat) : String :=
  String.join ((((ts.take stop).drop first).filter fun t => !t.isEof).map Token.text)

def call : StreamCall → StreamAnswer × PlainCursor
  | .peekType k => (.type ((ahead ts c k).map Token.type), c)
  | .peek k => (.token (ahead ts c k), c)
  | .previous k => (.token (behind ts c k), c)
  | .consume => (.done, { c with place := step ts c })
  | .index => (.place c.place, c)
  | .seek i => (.done, { c with place := jump ts i })
  | .mark => (.place c.place, { c with marks := c.place :: c.marks })
  | .rewind back =>
    match c.marks[back]? with
    | none => (.done, c)
    | some i => (.done, { c with place := i })
  | .text first last => (.text (textUpTo ts first (last + 1)), c)

def after (calls : List StreamCall) : PlainCursor :=
  calls.foldl (fun c x => (call ts c x).2) c

end PlainCursor

section Places

variable {ts : List Token} {i j : Nat} {t : Token}

theorem mem_visiblePlaces :
    i ∈ visiblePlaces ts ↔ ∃ t, ts[i]? = some t ∧ t.isVisible = true := by
  rw [visiblePlaces, List.mem_filter, List.mem_range, Option.any_eq_true]
  refine ⟨And.right, fun h => ⟨?_, h⟩⟩
  obtain ⟨t, ht, _⟩ := h
  exact (List.getElem?_eq_some_iff.mp ht).1

theorem pairwise_visiblePlaces (ts : List Token) : (visiblePlaces ts).Pairwise (· < ·) :=
  List.pairwise_lt_range.filter _

/-- In an ascending list the least element with a property is the first one. -/
theorem find?_eq_of_least {l : List Nat} (hl : l.Pairwise (· < ·)) {p : Nat → Bool} {v : Nat}
    (hv : v ∈ l) (hp : p v = true) (hleast : ∀ u ∈ l, p u = true → v ≤ u) :
    l.find? p = some v := by
  induction l with
  | nil => cases hv
  | cons u rest ih =>
    obtain ⟨hbelow, hrest⟩ := List.pairwise_cons.mp hl
    rcases List.mem_cons.mp hv with rfl | hmem
    · exact List.find?_cons_of_pos hp
    · have hlt := hbelow v hmem
      have hskip : ¬p u = true := fun hu => absurd (hleast u List.mem_cons_self hu) (by omega)
      rw [List.find?_cons_of_neg hskip]
      exact ih hrest hmem fun w hw => hleast w (List.mem_cons_of_mem u hw)

/-- No token between a place and the first visible one from there on is visible. -/
theorem visiblePlace_le (hi : i ≤ j) (hj : ∃ t, ts[j]? = some t ∧ t.isVisible = true) :
    visiblePlace ts i ≤ j := by
  obtain ⟨t, ht, hvisible⟩ := hj
  obtain ⟨hlt, rfl⟩ := List.getElem?_eq_some_iff.mp ht
  rw [visiblePlace, if_pos (Nat.lt_of_le_of_lt hi hlt)]
  by_contra hbehind
  have hindex : j - i < (ts.drop i).findIdx Token.isVisible := by omega
  have hhidden := List.not_of_lt_findIdx hindex
  rw [List.getElem_drop] at hhidden
  simp only [show i + (j - i) = j by omega] at hhidden
  rw [hvisible] at hhidden
  cases hhidden

/-- The first visible place from `i` on, if there is one. -/
theorem Ended.find_visiblePlaces (h : Ended ts) (i : Nat) :
    (visiblePlaces ts).find? (i ≤ ·) =
      if i < ts.length then some (visiblePlace ts i) else none := by
  split
  · rename_i hi
    obtain ⟨t, ht, hvisible, hbehind⟩ := h.visiblePlace_spec i
    refine find?_eq_of_least (pairwise_visiblePlaces ts) (mem_visiblePlaces.mpr ⟨t, ht, hvisible⟩)
      (by simpa using (hbehind hi).1) fun u hu hle => ?_
    exact visiblePlace_le (by simpa using hle) (mem_visiblePlaces.mp hu)
  · rename_i hi
    refine List.find?_eq_none.mpr fun u hu => ?_
    obtain ⟨t, ht, _⟩ := mem_visiblePlaces.mp hu
    have hlt := (List.getElem?_eq_some_iff.mp ht).1
    simp only [decide_eq_true_eq]
    omega

theorem Ended.jump_eq (h : Ended ts) (i : Nat) : PlainCursor.jump ts i = visiblePlace ts i := by
  rw [PlainCursor.jump, h.find_visiblePlaces, visiblePlace]
  split <;> rfl

theorem Ended.step_eq (h : Ended ts) (c : PlainCursor) (ht : ts[c.place]? = some t) :
    PlainCursor.step ts c = nextPlace ts c.place := by
  have hlt := (List.getElem?_eq_some_iff.mp ht).1
  have hnext := h.find_visiblePlaces (c.place + 1)
  rw [PlainCursor.step, nextPlace, ht, Option.any_some]
  change ((visiblePlaces ts).find? (c.place + 1 ≤ ·)).getD c.place = _
  rw [hnext]
  cases hend : t.isEof with
  | true =>
    rw [if_neg (by have hlast := (h.isEof_iff ht).mp hend; omega)]
    rfl
  | false =>
    have hrun : c.place + 1 ≠ ts.length := fun heq => by
      rw [(h.isEof_iff ht).mpr heq] at hend
      cases hend
    rw [if_pos (by omega)]
    rfl

/-- Looking ahead is going on from place to place. -/
theorem Ended.getElem?_upcoming (h : Ended ts) (k : Nat)
    (hi : ∃ t, ts[i]? = some t ∧ t.isVisible = true) :
    (upcoming ts i)[min k ((upcoming ts i).length - 1)]? = ts[(nextPlace ts)^[k] i]? := by
  induction k generalizing i with
  | zero =>
    obtain ⟨t, ht, hvisible⟩ := hi
    rw [upcoming_of_isVisible ht hvisible, Nat.zero_min, Function.iterate_zero, id, ht]
    rfl
  | succ k ih =>
    have hnext := h.nextPlace_visible hi
    obtain ⟨t, ht, hvisible⟩ := hi
    rw [Function.iterate_succ_apply]
    cases hend : t.isEof with
    | true =>
      have hfix := nextPlace_of_isEof ht hend
      rw [hfix, Function.iterate_fixed hfix, h.upcoming_of_isEof ht hend, ht]
      rfl
    | false =>
      obtain ⟨heq, _⟩ := h.upcoming_of_run ht hvisible hend
      obtain ⟨t', ht', hvisible'⟩ := hnext
      have hpos : 0 < (upcoming ts (nextPlace ts i)).length := by
        rw [upcoming_of_isVisible ht' hvisible']
        exact Nat.succ_pos _
      rw [← ih ⟨t', ht', hvisible'⟩, heq, List.length_cons]
      rw [show min (k + 1) ((upcoming ts (nextPlace ts i)).length + 1 - 1) =
        min k ((upcoming ts (nextPlace ts i)).length - 1) + 1 by omega, List.getElem?_cons_succ]

theorem mainBefore_zero (buffer : Array Token) (i : Nat) :
    TokenStream.mainBefore buffer 0 i = none := by
  induction i with
  | zero => rfl
  | succ i ih =>
    rw [TokenStream.mainBefore]
    split
    · exact ih
    · exact ih

/-- Looking back counts the tokens on the main channel, the nearest one first. -/
theorem mainBefore_succ (ts : List Token) (k i : Nat) :
    TokenStream.mainBefore ts.toArray (k + 1) i =
      ((ts.take i).filter fun t => t.channel = .main).reverse[k]? := by
  induction i generalizing k with
  | zero => simp [TokenStream.mainBefore]
  | succ i ih =>
    rw [TokenStream.mainBefore, List.getElem?_toArray, List.take_add_one, List.filter_append,
      List.reverse_append]
    cases ht : ts[i]? with
    | none => simpa using ih k
    | some t =>
      by_cases hmain : t.channel = .main
      · cases k with
        | zero => simp [Option.filter, hmain]
        | succ k => simpa [Option.filter, hmain] using ih k
      · simpa [Option.filter, hmain] using ih k

theorem behind_eq (ts : List Token) (c : PlainCursor) (k : Nat) :
    PlainCursor.behind ts c k = TokenStream.mainBefore ts.toArray k c.place := by
  cases k with
  | zero => exact (mainBefore_zero _ _).symm
  | succ k => exact (mainBefore_succ ts k c.place).symm

/-- Of a stretch of the tokens only the last one can end the input. -/
theorem Ended.takeWhile_eq (h : Ended ts) (first last : Nat) :
    ((ts.take last).drop first).takeWhile (fun t => !t.isEof) =
      ((ts.take last).drop first).filter fun t => !t.isEof := by
  obtain ⟨init, final, rfl, hfinal, hinit⟩ := h
  have hrun (n m : Nat) : ∀ t ∈ (init.take m).drop n, (!t.isEof) = true := fun t ht => by
    rw [hinit t (List.mem_of_mem_take (List.mem_of_mem_drop ht))]
    rfl
  by_cases hlast : last ≤ init.length
  · rw [List.take_append_of_le_length hlast, List.takeWhile_eq_self_iff.mpr (hrun first last),
      List.filter_eq_self.mpr (hrun first last)]
  · rw [List.take_of_length_le (by simp; omega)]
    by_cases hfirst : first ≤ init.length
    · have hbefore := hrun first init.length
      rw [List.take_length] at hbefore
      rw [List.drop_append_of_le_length hfirst, List.takeWhile_append_of_pos hbefore,
        List.filter_append, List.filter_eq_self.mpr hbefore]
      simp [hfinal]
    · rw [List.drop_eq_nil_of_le (by simp; omega)]
      rfl

end Places

namespace TokenStream.At

variable {s : TokenStream} {ts : List Token} {i : Nat}

/-- A text is read from the tokens, all of which up to the last place are fetched
before. -/
theorem text_eq (h : s.At ts i) {first last : Nat} (hle : first ≤ last) :
    (s.text first last).1 =
      PlainCursor.textUpTo ts first (first + Word.add (last - first) 1) := by
  have hstop : first + Word.add (last - first) 1 ≤ last + 1 := by
    have := Word.add_le (last - first) 1
    omega
  generalize hcount : Word.add (last - first) 1 = count at hstop
  have hread : ((s.fill last).buffer.extract first (first + count)).toList =
      (ts.take (first + count)).drop first := by
    obtain ⟨hshows, hmin, _⟩ := h.shows.fetchMany (last + 1 - s.buffer.size)
    have hsize := hshows.size_le
    obtain ⟨rest, hts, _⟩ := hshows.pending
    rw [← TokenStream.fill] at hmin hts hsize
    rw [Array.toList_extract, List.extract_eq_drop_take', hts]
    rw [hts, List.length_append, Array.length_toList] at hmin
    by_cases hin : first + count ≤ (s.fill last).buffer.size
    · rw [List.take_append_of_le_length (by simpa using hin)]
    · obtain rfl : rest = [] := List.eq_nil_of_length_eq_zero (by omega)
      rw [List.append_nil]
  rw [TokenStream.text, PlainCursor.textUpTo, ← h.ends.takeWhile_eq]
  dsimp only
  rw [hcount, hread]

/-- What a stream shows ahead is what a plain cursor at its place has ahead. -/
theorem peek_eq {c : PlainCursor} (h : s.At ts c.place) (k : Nat) :
    PlainCursor.ahead ts c k = some (s.peek k).1 :=
  (h.ends.getElem?_upcoming (k - 1) h.visible).trans (h.peek k).1

end TokenStream.At

/-- A stream stands where a plain cursor does, and the same marks were taken at both. -/
structure MarkedStream.Follows (m : MarkedStream) (ts : List Token) (c : PlainCursor) : Prop where
  stands : m.stream.At ts c.place
  marks : m.marks = c.marks
  visible : ∀ i ∈ c.marks, i ∈ visiblePlaces ts

namespace MarkedStream.Follows

variable {m : MarkedStream} {ts : List Token} {c : PlainCursor}

/-- A cursor without marks is followed by a stream at its place. -/
theorem of_at {s : TokenStream} (h : s.At ts c.place) (hmarks : c.marks = []) :
    Follows { stream := s } ts c where
  stands := h
  marks := hmarks.symm
  visible i hi := by
    rw [hmarks] at hi
    cases hi

theorem place_mem (h : m.Follows ts c) : c.place ∈ visiblePlaces ts :=
  mem_visiblePlaces.mpr h.stands.visible

/-- One call takes the stream where it takes the cursor, and both give one answer. -/
theorem call (h : m.Follows ts c) (x : StreamCall) :
    (m.call x).2.Follows ts (PlainCursor.call ts c x).2 ∧
      (x.IsProper → (m.call x).1 = (PlainCursor.call ts c x).1) := by
  have hstands := h.stands
  cases x with
  | peekType k =>
    refine ⟨⟨(hstands.peek k).2, h.marks, h.visible⟩, fun _ => ?_⟩
    rw [PlainCursor.call, hstands.peek_eq]
    rfl
  | peek k =>
    refine ⟨⟨(hstands.peek k).2, h.marks, h.visible⟩, fun _ => ?_⟩
    rw [PlainCursor.call, hstands.peek_eq]
    rfl
  | previous k =>
    refine ⟨⟨hstands.previous k, h.marks, h.visible⟩, fun _ => ?_⟩
    rw [PlainCursor.call, behind_eq, ← hstands.previous_eq k]
    rfl
  | consume =>
    obtain ⟨t, ht, _⟩ := hstands.visible
    refine ⟨⟨?_, h.marks, h.visible⟩, fun _ => rfl⟩
    have hplace : (PlainCursor.call ts c .consume).2.place = nextPlace ts c.place :=
      hstands.ends.step_eq c ht
    rw [hplace]
    exact hstands.consume
  | index =>
    exact ⟨⟨hstands.index.2, h.marks, h.visible⟩,
      fun _ => congrArg StreamAnswer.place hstands.index.1⟩
  | seek i =>
    refine ⟨⟨?_, h.marks, h.visible⟩, fun _ => rfl⟩
    have hplace : (PlainCursor.call ts c (.seek i)).2.place = visiblePlace ts i :=
      hstands.ends.jump_eq i
    rw [hplace]
    exact hstands.seek_visible i
  | mark =>
    have hindex : m.stream.index.1 = c.place := hstands.index.1
    refine ⟨⟨hstands.index.2, ?_, ?_⟩, fun _ => congrArg StreamAnswer.place hindex⟩
    · exact congrArg₂ List.cons hindex h.marks
    · exact List.forall_mem_cons.mpr ⟨h.place_mem, h.visible⟩
  | rewind back =>
    rw [MarkedStream.call, PlainCursor.call, h.marks]
    cases hback : c.marks[back]? with
    | none => exact ⟨h, fun _ => rfl⟩
    | some i =>
      obtain ⟨t, ht, hvisible⟩ := mem_visiblePlaces.mp (h.visible i (List.mem_of_getElem? hback))
      exact ⟨⟨hstands.seek ht hvisible, rfl, h.visible⟩, fun _ => rfl⟩
  | text first last =>
    refine ⟨⟨hstands.text first last, h.marks, h.visible⟩, fun ⟨hle, hcount⟩ => ?_⟩
    refine congrArg StreamAnswer.text ((hstands.text_eq hle).trans ?_)
    rw [Word.add_of_lt hcount, ← Nat.add_assoc, Nat.add_sub_cancel' hle]

/-- So do several calls. -/
theorem after (h : m.Follows ts c) (calls : List StreamCall) :
    (m.after calls).Follows ts (PlainCursor.after ts c calls) := by
  induction calls generalizing m c with
  | nil => exact h
  | cons x calls ih => exact ih (h.call x).1

/-- What has been fetched are the first tokens, each with its place. -/
theorem buffered {source : TokenSource} (h : m.Follows ts c) (hts : Supplies source 0 ts) :
    m.stream.buffer.toList <+: ts ∧
      ∀ (i : Nat) (t : Token), m.stream.buffer[i]? = some t → t.index = i := by
  obtain ⟨rest, heq, _⟩ := h.stands.shows.pending
  refine ⟨⟨rest, heq.symm⟩, fun i t ht => ?_⟩
  have hi := (Array.getElem?_eq_some_iff.mp ht).1
  rw [h.stands.shows.getElem? hi] at ht
  simpa using hts.index_eq i ht

theorem cursor_eq (h : m.Follows ts c) (hstarted : m.stream.started = true) :
    m.stream.cursor = c.place := by
  rcases h.stands.place with ⟨_, hcursor, _⟩ | ⟨hnot, _⟩
  · exact hcursor
  · rw [hstarted] at hnot
    cases hnot

end MarkedStream.Follows

/-- Marks are kept in the order in which they were taken, the last one first. -/
theorem PlainCursor.marks_after (ts : List Token) (c : PlainCursor) (calls : List StreamCall) :
    ∃ later, (PlainCursor.after ts c calls).marks = later ++ c.marks ∧
      later.length = calls.count .mark := by
  induction calls generalizing c with
  | nil => exact ⟨[], rfl, rfl⟩
  | cons x calls ih =>
    obtain ⟨later, heq, hcount⟩ := ih (PlainCursor.call ts c x).2
    have hafter : PlainCursor.after ts c (x :: calls) =
        PlainCursor.after ts (PlainCursor.call ts c x).2 calls := rfl
    rw [hafter, heq]
    by_cases hmark : x = .mark
    · subst hmark
      refine ⟨later ++ [c.place], by simp [PlainCursor.call], ?_⟩
      rw [List.count_cons_self, List.length_append, hcount]
      rfl
    · refine ⟨later, ?_, by rw [List.count_cons_of_ne hmark, hcount]⟩
      cases x with
      | mark => exact absurd rfl hmark
      | rewind back =>
        rw [PlainCursor.call]
        split <;> rfl
      | _ => rfl

/-- Going back to a mark restores the place at which it was taken. -/
theorem PlainCursor.rewind_place (ts : List Token) (c : PlainCursor)
    (before between : List StreamCall) :
    (PlainCursor.after ts c (before ++ .mark :: between ++ [.rewind (between.count .mark)])).place =
      (PlainCursor.after ts c before).place := by
  have hback (d : PlainCursor) {back place : Nat} (hplace : d.marks[back]? = some place) :
      (PlainCursor.call ts d (.rewind back)).2.place = place := by
    rw [PlainCursor.call, hplace]
  obtain ⟨later, heq, hcount⟩ := marks_after ts
    (PlainCursor.call ts (PlainCursor.after ts c before) .mark).2 between
  rw [PlainCursor.after, List.foldl_append, List.foldl_append]
  refine hback _ ?_
  change (PlainCursor.after ts (PlainCursor.call ts (PlainCursor.after ts c before) .mark).2
    between).marks[between.count .mark]? = _
  rw [heq, ← hcount, List.getElem?_append_right (Nat.le_refl _), Nat.sub_self]
  rfl

/-- Whatever the source and whatever has been asked, a stream keeps the first of the
tokens that the source supplies, numbered by their places; its cursor is at a
visible one; and it answers as a plain cursor over all the tokens does, which goes
back to its marks.  So its answers cannot depend on how much it has fetched, if no
text is asked for against its direction or over too many places. -/
theorem MarkedStream.answers_as_cursor (source : TokenSource) : ∃ ts, Supplies source 0 ts ∧
    (∀ past : List StreamCall,
      let m := MarkedStream.after { stream := .ofSource source } past
      let c := PlainCursor.after ts (PlainCursor.atFirst ts) past
      m.stream.buffer.toList <+: ts ∧
      (∀ (i : Nat) (t : Token), m.stream.buffer[i]? = some t → t.index = i) ∧
      c.place ∈ visiblePlaces ts ∧
      (m.stream.started = true → m.stream.cursor = c.place) ∧
      ∀ x : StreamCall, x.IsProper → (m.call x).1 = (PlainCursor.call ts c x).1) ∧
    (∀ before between : List StreamCall,
      let c := PlainCursor.after ts (PlainCursor.atFirst ts) before
      let calls := before ++ .mark :: between ++ [.rewind (between.count .mark)]
      (MarkedStream.call (MarkedStream.after { stream := .ofSource source } calls) .index).1 =
        .place c.place) ∧
    ∀ past past' : List StreamCall,
      PlainCursor.after ts (PlainCursor.atFirst ts) past =
        PlainCursor.after ts (PlainCursor.atFirst ts) past' →
      ∀ x : StreamCall, x.IsProper →
        (MarkedStream.call (MarkedStream.after { stream := .ofSource source } past) x).1 =
          (MarkedStream.call (MarkedStream.after { stream := .ofSource source } past') x).1 := by
  obtain ⟨ts, hts, hat⟩ := TokenStream.exists_at_ofSource source
  have hfirst : (PlainCursor.atFirst ts).place = visiblePlace ts 0 := hat.ends.jump_eq 0
  rw [← hfirst] at hat
  have hfollows (past : List StreamCall) :=
    (MarkedStream.Follows.of_at hat rfl).after past
  refine ⟨ts, hts, fun past => ?_, fun before between => ?_, fun past past' hplain x hx => ?_⟩
  · have h := hfollows past
    obtain ⟨hbuffer, hindex⟩ := h.buffered hts
    exact ⟨hbuffer, hindex, h.place_mem, h.cursor_eq, fun x hx => (h.call x).2 hx⟩
  · have hanswer := ((hfollows
      (before ++ .mark :: between ++ [.rewind (between.count .mark)])).call .index).2 trivial
    refine hanswer.trans (congrArg StreamAnswer.place ?_)
    exact PlainCursor.rewind_place ts _ before between
  · rw [((hfollows past).call x).2 hx, ((hfollows past').call x).2 hx, hplain]

def twoWords : List Token :=
  [.make 1 "ab" 0 1 1 0, { Token.make 3 " " 2 2 1 2 with channel := .hidden }, .make 2 "cd" 3 4 1 3]

theorem MarkedStream.answers_behind_two_words :
    let m := MarkedStream.after { stream := .ofSource (.ofList twoWords) } [.peek 5, .seek 1, .mark]
    (m.call .index).1 = .place 2 ∧ (m.call (.text 0 2)).1 = .text "ab cd" ∧
      (m.call (.peekType 9)).1 = .type (some .eof) := by
  obtain ⟨ts, hts, hpast, _⟩ := MarkedStream.answers_as_cursor (.ofList twoWords)
  have hlisted : Supplies (.ofList twoWords) 0 _ := .more rfl (.more rfl (.more rfl (.last rfl)))
  obtain rfl := hts.unique hlisted
  obtain ⟨_, _, _, _, hanswer⟩ := hpast [.peek 5, .seek 1, .mark]
  refine ⟨(hanswer .index trivial).trans ?_,
    (hanswer (.text 0 2) ⟨Nat.zero_le 2, by decide⟩).trans ?_,
    (hanswer (.peekType 9) trivial).trans ?_⟩ <;> decide

/-- Of a text against its direction the first place is read, but only if it has been
fetched; and a text up to the last place that a word can name is empty. -/
theorem MarkedStream.answers_not_as_cursor :
    ∃ ts, Supplies (.ofList twoWords) 0 ts ∧
      PlainCursor.after ts (PlainCursor.atFirst ts) [] =
        PlainCursor.after ts (PlainCursor.atFirst ts) [.peek 2] ∧
      (MarkedStream.call (MarkedStream.after { stream := .ofSource (.ofList twoWords) } [])
        (.text 2 0)).1 = .text "" ∧
      (MarkedStream.call (MarkedStream.after { stream := .ofSource (.ofList twoWords) } [.peek 2])
        (.text 2 0)).1 = .text "cd" ∧
      (MarkedStream.call { stream := .ofSource (.ofList twoWords) }
        (.text 0 (Word.bound - 1))).1 = .text "" ∧
      (PlainCursor.call ts (PlainCursor.atFirst ts) (.text 0 (Word.bound - 1))).1 =
        .text "ab cd" :=
  ⟨_, .more rfl (.more rfl (.more rfl (.last rfl))), by rfl, by decide, by decide,
    by decide +kernel, by decide +kernel⟩

end AdaptiveLL
