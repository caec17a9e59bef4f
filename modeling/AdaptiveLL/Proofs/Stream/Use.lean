/-
Streams that cannot be told apart.

A stream answers by the tokens that it shows and the place of its cursor; how many
it has fetched cannot be seen.  Whatever is done with it, it shows the same tokens
afterwards, and where its cursor is depends on where it was.  So two streams at one
place answer alike from then on.
-/
import AdaptiveLL.Proofs.Stream

namespace AdaptiveLL

inductive StreamUse where
  | peek (k : Nat)
  | previous (k : Nat)
  | index
  | consume
  | seek (i : Nat)
  | text (first last : Nat)
  | takeErrors

/-- The place of the cursor afterwards. -/
def StreamUse.move (ts : List Token) (i : Nat) : StreamUse → Nat
  | .consume => nextPlace ts i
  | .seek j => visiblePlace ts j
  | _ => i

namespace TokenStream

def use (s : TokenStream) : StreamUse → TokenStream
  | .peek k => (s.peek k).2
  | .previous k => (s.previous k).2
  | .index => s.index.2
  | .consume => s.consume
  | .seek i => s.seek i
  | .text first last => (s.text first last).2
  | .takeErrors => s.takeErrors.2

def after (s : TokenStream) (uses : List StreamUse) : TokenStream :=
  uses.foldl use s

/-- Two streams give the place of the cursor and the tokens around it alike. -/
structure SameAnswers (s s' : TokenStream) : Prop where
  index : s.index.1 = s'.index.1
  peek : ∀ k, (s.peek k).1 = (s'.peek k).1
  previous : ∀ k, (s.previous k).1 = (s'.previous k).1

variable {s s' : TokenStream} {ts : List Token} {i : Nat}

/-- What lies before a place decides which main-channel tokens do. -/
theorem mainBefore_congr {b b' : Array Token} (h : ∀ j < i, b[j]? = b'[j]?) (k : Nat) :
    mainBefore b k i = mainBefore b' k i := by
  induction i generalizing k with
  | zero => rw [mainBefore, mainBefore]
  | succ i ih =>
    have hbefore : ∀ j < i, b[j]? = b'[j]? := fun j hj => h j (Nat.lt_succ_of_lt hj)
    rw [mainBefore, mainBefore, h i (Nat.lt_succ_self i), ih hbefore, ih hbefore]

namespace At

/-- Looking back answers by the tokens before the cursor. -/
theorem previous_eq (h : s.At ts i) (k : Nat) :
    (s.previous k).1 = mainBefore ts.toArray k i := by
  obtain ⟨hat, _, hcursor, hmem⟩ := h.start
  rw [TokenStream.previous]
  dsimp only
  rw [hcursor]
  apply mainBefore_congr
  intro j hj
  rw [hat.shows.getElem? (Nat.lt_trans hj hmem), List.getElem?_toArray]

theorem sameAnswers (h : s.At ts i) (h' : s'.At ts i) : SameAnswers s s' where
  index := h.index.1.trans h'.index.1.symm
  peek k := Option.some.inj ((h.peek k).1.symm.trans (h'.peek k).1)
  previous k := (h.previous_eq k).trans (h'.previous_eq k).symm

/-- Putting the cursor somewhere puts it on the next visible token. -/
theorem seek_visible (h : s.At ts i) (j : Nat) : (s.seek j).At ts (visiblePlace ts j) := by
  obtain ⟨t, ht, hvisible, _⟩ := h.ends.visiblePlace_spec j
  obtain ⟨hplace, hshows, hmem, _⟩ := h.shows.visibleFrom j
  exact ⟨⟨hshows.ends, hshows.pending⟩, .inl ⟨rfl, hplace, hmem⟩, t, ht, hvisible⟩

theorem use (h : s.At ts i) (u : StreamUse) : (s.use u).At ts (u.move ts i) := by
  cases u with
  | peek k => exact (h.peek k).2
  | previous k => exact h.previous k
  | index => exact h.index.2
  | consume => exact h.consume
  | seek j => exact h.seek_visible j
  | text first last => exact h.text first last
  | takeErrors => exact h.takeErrors

theorem after (h : s.At ts i) (uses : List StreamUse) :
    (s.after uses).At ts (uses.foldl (fun i u => u.move ts i) i) := by
  induction uses generalizing s i with
  | nil => exact h
  | cons u uses ih => exact ih (h.use u)

/-- Streams at one place cannot be told apart, whatever is done with both. -/
theorem sameAnswers_after (h : s.At ts i) (h' : s'.At ts i) (later : List StreamUse) :
    SameAnswers (s.after later) (s'.after later) :=
  (h.after later).sameAnswers (h'.after later)

end At

/-- Whatever is done with a stream on a source, it shows the tokens of the source. -/
theorem exists_at_after {source : TokenSource} (hts : Supplies source 0 ts)
    (past : List StreamUse) : ∃ i, ((ofSource source).after past).At ts i := by
  obtain ⟨ts', hts', hat⟩ := exists_at_ofSource source
  obtain rfl := hts.unique hts'
  exact ⟨_, hat.after past⟩

end TokenStream

end AdaptiveLL
