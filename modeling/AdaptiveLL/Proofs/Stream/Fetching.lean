/-
What is done to a stream when it is asked.

Whatever a stream is asked, it fetches tokens one behind the other and moves its
cursor, and does nothing else.  So a property of streams that hangs on the fetched
tokens and on their source is known to be kept when it is kept by fetching one
token.
-/
import AdaptiveLL.Proofs.Stream

namespace AdaptiveLL

namespace TokenStream

/-- The second stream is what the first one becomes by fetching some tokens and
moving the cursor. -/
inductive Fetches (s : TokenStream) : TokenStream → Prop where
  | done : Fetches s s
  | fetch {s'} (h : Fetches s s') (hrun : s'.ended = false) : Fetches s s'.fetch
  | move {s'} (h : Fetches s s') (cursor : Nat) (started : Bool) :
      Fetches s { s' with cursor, started }

namespace Fetches

variable {s s' s'' : TokenStream}

theorem trans (h : s.Fetches s') (h' : s'.Fetches s'') : s.Fetches s'' := by
  induction h' with
  | done => exact h
  | fetch _ hrun ih => exact ih.fetch hrun
  | move _ cursor started ih => exact ih.move cursor started

/-- What fetching one token and moving the cursor keep holds of the stream
afterwards. -/
theorem keeps {P : TokenStream → Prop} (h : s.Fetches s') (hs : P s)
    (hfetch : ∀ s, P s → s.ended = false → P s.fetch)
    (hmove : ∀ s cursor started, P s → P { s with cursor, started }) : P s' := by
  induction h with
  | done => exact hs
  | fetch _ hrun ih => exact hfetch _ ih hrun
  | move _ cursor started ih => exact hmove _ cursor started ih

/-- Tokens that have been fetched stay in the buffer. -/
theorem mem_buffer (h : s.Fetches s') {t : Token} (ht : t ∈ s.buffer) : t ∈ s'.buffer :=
  h.keeps (P := fun s => t ∈ s.buffer) ht (fun _ h _ => Array.mem_push_of_mem _ h) fun _ _ _ h => h

theorem size_le (h : s.Fetches s') : s.buffer.size ≤ s'.buffer.size := by
  refine h.keeps (P := fun s' => s.buffer.size ≤ s'.buffer.size) (Nat.le_refl _) (fun s' h _ => ?_)
    fun _ _ _ h => h
  rw [TokenStream.fetch, Array.size_push]
  exact Nat.le_succ_of_le h

end Fetches

theorem fetches_fetchMany (s : TokenStream) (count : Nat) : s.Fetches (s.fetchMany count) := by
  induction count generalizing s with
  | zero => exact .done
  | succ count ih =>
    rw [fetchMany]
    split
    · exact .done
    · rename_i hrun
      exact (Fetches.done.fetch (Bool.eq_false_iff.mpr hrun)).trans (ih s.fetch)

theorem fetches_fill (s : TokenStream) (i : Nat) : s.Fetches (s.fill i) :=
  s.fetches_fetchMany _

theorem fetches_visibleIn (s : TokenStream) (places i : Nat) :
    s.Fetches (s.visibleIn places i).2 := by
  induction places generalizing s i with
  | zero => exact .done
  | succ places ih =>
    rw [visibleIn]
    split
    · exact s.fetches_fill i
    · split
      · exact s.fetches_fill i
      · exact (s.fetches_fill i).trans (ih _ _)

theorem fetches_visibleFrom (s : TokenStream) (i : Nat) : s.Fetches (s.visibleFrom i).2 :=
  s.fetches_visibleIn _ i

theorem fetches_start (s : TokenStream) : s.Fetches s.start := by
  unfold start
  split
  · exact .done
  · exact (s.fetches_visibleFrom 0).move _ true

theorem fetches_skipAhead (s : TokenStream) (k i : Nat) : s.Fetches (s.skipAhead k i).2 := by
  induction k generalizing s i with
  | zero => exact .done
  | succ k ih =>
    rw [skipAhead]
    split
    · exact .done
    · exact (s.fetches_visibleFrom _).trans (ih _ _)

theorem fetches_peek (s : TokenStream) (k : Nat) : s.Fetches (s.peek k).2 :=
  s.fetches_start.trans (fetches_skipAhead _ _ _)

theorem fetches_previous (s : TokenStream) (k : Nat) : s.Fetches (s.previous k).2 :=
  s.fetches_start

theorem fetches_index (s : TokenStream) : s.Fetches s.index.2 :=
  s.fetches_start

theorem fetches_consume (s : TokenStream) : s.Fetches s.consume := by
  unfold consume
  dsimp only
  split
  · exact s.fetches_start
  · exact (s.fetches_start.trans (fetches_visibleFrom _ _)).move _ _

theorem fetches_seek (s : TokenStream) (i : Nat) : s.Fetches (s.seek i) :=
  (s.fetches_visibleFrom i).move _ true

theorem fetches_text (s : TokenStream) (first last : Nat) : s.Fetches (s.text first last).2 :=
  s.fetches_fill last

/-- A token that is looked at has been fetched. -/
theorem At.peek_mem {s : TokenStream} {ts : List Token} {i : Nat} (h : s.At ts i) (k : Nat) :
    (s.peek k).1 ∈ (s.peek k).2.buffer := by
  obtain ⟨hat, _, hcursor, hmem⟩ := h.start
  obtain ⟨hplace, _, hmem', _⟩ := At.skipAhead hat.shows hmem (k - 1)
  rw [TokenStream.peek]
  dsimp only
  rw [hcursor, hplace, Array.getElem?_eq_getElem hmem']
  exact Array.getElem_mem hmem'

end TokenStream

end AdaptiveLL
