/-
Tokens that are listed before they are read.

A list of the tokens that a source supplies is a source of the same tokens.  Only
the unmatched text is lost with it: a list has none, and whatever a stream on a list
is used for, it stays one on a list.
-/
import AdaptiveLL.Grammar
import AdaptiveLL.Proofs.Stream.Fetching

namespace AdaptiveLL

section Listing

theorem TokenSource.next_listed {last : Option Token} (hlast : last.filter Token.isEof = none)
    (t : Token) (rest : List Token) :
    next (.listed (t :: rest) last) = (t, .listed rest (some t)) := by
  simp [next, hlast]

/-- The tokens that a source supplies are supplied by the list of them. -/
theorem Supplies.listed {source : TokenSource} {place : Nat} {ts : List Token}
    (h : Supplies source place ts) {last : Option Token} (hlast : last.filter Token.isEof = none) :
    Supplies (.listed ts last) place ts := by
  induction h generalizing last with
  | @last source place hend =>
    have hnext := TokenSource.next_listed hlast (source.next.1.atIndex place) []
    have hsupplied : Supplies _ place _ := .last (by rw [hnext]; exact hend)
    rwa [hnext] at hsupplied
  | @more source place ts hrun _ ih =>
    have hnext := TokenSource.next_listed hlast (source.next.1.atIndex place) ts
    have hopen : (some (source.next.1.atIndex place)).filter Token.isEof = none := by
      simp [Option.filter, hrun]
    have hsupplied : Supplies _ place _ :=
      .more (by rw [hnext]; exact hrun) (by rw [hnext]; exact ih hopen)
    rwa [hnext] at hsupplied

/-- A lexer supplies the tokens that it cuts a text into. -/
theorem Lexer.supplies_tokensIn {l : Lexer} {count : Nat} (hcount : l.remaining < count)
    (place : Nat) : Supplies (.lexed l) place
      ((l.tokensIn count).1.mapIdx fun i t => t.atIndex ((place + i : Nat) : Int)) := by
  induction count generalizing l place with
  | zero => omega
  | succ count ih =>
    rw [tokensIn]
    dsimp only
    cases hend : l.next.1.isEof with
    | true =>
      have hlast : (TokenSource.lexed l).next.1.isEof = true := hend
      exact .last hlast
    | false =>
      have hrun : (TokenSource.lexed l).next.1.isEof = false := hend
      rw [if_neg Bool.false_ne_true, List.mapIdx_cons]
      have hlt := l.next_isEof_or_lt.resolve_left (by simp [hend])
      have hrest := ih (l := l.next.2) (by omega) (place + 1)
      simp only [Nat.add_right_comm place 1] at hrest
      exact .more hrun hrest

theorem Grammar.supplies_tokenize (g : Grammar) (text : String) :
    Supplies (.lexed (g.lexer text)) 0 (g.tokenize text).1 := by
  have hsupplies := (g.lexer text).supplies_tokensIn (Nat.lt_succ_self _) 0
  simp only [Nat.zero_add] at hsupplies
  exact hsupplies

end Listing

namespace TokenStream

variable {s : TokenStream}

def Listed (s : TokenStream) : Prop :=
  ∃ rest last, s.source = .listed rest last

namespace Listed

/-- A stream on a list stays one whatever it is asked. -/
theorem of_fetches {s' : TokenStream} (h : s.Listed) (hs : s.Fetches s') : s'.Listed := by
  refine hs.keeps h (fun s h _ => ?_) fun _ _ _ h => h
  obtain ⟨rest, last, hsource⟩ := h
  have hnext : ∃ rest' last', (TokenSource.next (.listed rest last)).2 = .listed rest' last' := by
    simp only [TokenSource.next]
    split <;> exact ⟨_, _, rfl⟩
  rw [← hsource] at hnext
  exact hnext

theorem peek (h : s.Listed) (k : Nat) : (s.peek k).2.Listed :=
  h.of_fetches (s.fetches_peek k)

theorem previous (h : s.Listed) (k : Nat) : (s.previous k).2.Listed :=
  h.of_fetches (s.fetches_previous k)

theorem index (h : s.Listed) : s.index.2.Listed :=
  h.of_fetches s.fetches_index

theorem consume (h : s.Listed) : s.consume.Listed :=
  h.of_fetches s.fetches_consume

theorem text (h : s.Listed) (first last : Nat) : (s.text first last).2.Listed :=
  h.of_fetches (s.fetches_text first last)

/-- Nothing in a list is unmatched. -/
theorem takeErrors (h : s.Listed) : s.takeErrors.1 = [] ∧ s.takeErrors.2.Listed := by
  obtain ⟨rest, last, hsource⟩ := h
  rw [Listed, TokenStream.takeErrors, hsource]
  exact ⟨rfl, rest, last, rfl⟩

end Listed

end TokenStream

end AdaptiveLL
