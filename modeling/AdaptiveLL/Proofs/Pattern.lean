/-
What a pattern matches.

The texts that a pattern matches form a language.  The positions at which the
pattern can stop are those that a text of this language leads to.  A repetition
needs care: the search takes up a position only once beyond the least number of
copies, and it stops after a number of rounds.  Nothing is lost, since a copy that
reads nothing can be left out, as long as the cap on the rounds fits into a word.
-/
import AdaptiveLL.Pattern.Reach
import Mathlib.Computability.Language

namespace AdaptiveLL

namespace Pattern

/-- The texts of one character that is accepted. -/
def oneChar (accepts : Char → Bool) : Language Char :=
  {w | ∃ c, accepts c = true ∧ w = [c]}

mutual

/-- The texts that a pattern matches.  A fragment that has not been looked up
matches nothing. -/
def language : Pattern → Language Char
  | .literal text => {text.toList}
  | .oneOf chars => oneChar chars.contains
  | .repetition body min max => {w | ∃ k, min ≤ k ∧ (∀ m ∈ max, k ≤ m) ∧ w ∈ body.language ^ k}
  | .seq items => languageSeq items
  | .alt items => languageAlt items
  | .fragment _ => 0
  | .any => oneChar fun _ => true

def languageSeq : List Pattern → Language Char
  | [] => 1
  | p :: rest => p.language * languageSeq rest

def languageAlt : List Pattern → Language Char
  | [] => 0
  | p :: rest => p.language + languageAlt rest

end

mutual

/-- A pattern and all that it is made of. -/
def parts : Pattern → List Pattern
  | .repetition body min max => .repetition body min max :: body.parts
  | .seq items => .seq items :: partsAll items
  | .alt items => .alt items :: partsAll items
  | p => [p]

def partsAll : List Pattern → List Pattern
  | [] => []
  | p :: rest => p.parts ++ partsAll rest

end

theorem mem_parts (p : Pattern) : p ∈ p.parts := by
  cases p <;> simp [parts]

/-- The cap on the rounds of a repetition does not wrap around in an input of this
size. -/
def CapFits (size : Nat) : Pattern → Prop
  | .repetition _ min _ => size + min < Word.bound
  | _ => True

instance (size : Nat) : DecidablePred (CapFits size)
  | .repetition _ min _ => inferInstanceAs (Decidable (size + min < Word.bound))
  | .literal _ | .oneOf _ | .seq _ | .alt _ | .fragment _ | .any =>
    inferInstanceAs (Decidable True)

/-- A text is its first character and the rest. -/
theorem singleton_cons (c : Char) (rest : List Char) :
    ({c :: rest} : Language Char) = oneChar (· == c) * {rest} := by
  ext w
  constructor
  · intro h
    exact Language.mem_mul.mpr ⟨[c], ⟨c, beq_self_eq_true c, rfl⟩, rest, rfl, Eq.symm h⟩
  · intro h
    obtain ⟨_, ⟨_, hc, rfl⟩, _, rfl, rfl⟩ := Language.mem_mul.mp h
    rw [eq_of_beq hc]
    rfl

end Pattern

/-- The input from `s` up to `e` is a text of the language. -/
structure Spans (input : Array Char) (L : Language Char) (s e : Nat) : Prop where
  le : s ≤ e
  bound : e ≤ input.size
  mem : (input.extract s e).toList ∈ L

namespace Spans

variable {input : Array Char} {L M : Language Char} {s e : Nat}

theorem length_slice (hbound : e ≤ input.size) : (input.extract s e).toList.length = e - s := by
  rw [Array.length_toList, Array.size_extract, Nat.min_eq_left hbound]

theorem slice_append {m : Nat} (hs : s ≤ m) (he : m ≤ e) :
    (input.extract s m).toList ++ (input.extract m e).toList = (input.extract s e).toList := by
  rw [← Array.toList_append, Array.extract_append_extract, Nat.min_eq_left hs, Nat.max_eq_right he]

theorem slice_one (hs : s < input.size) : (input.extract s (s + 1)).toList = [input[s]] := by
  rw [Array.toList_extract, List.extract_eq_take_drop, Nat.add_sub_cancel_left,
    List.drop_eq_getElem_cons (by simpa using hs)]
  rfl

theorem one_iff (hs : s ≤ input.size) : Spans input 1 s e ↔ s = e := by
  constructor
  · intro h
    have hlength := length_slice (s := s) h.bound
    rw [(Language.mem_one _).mp h.mem, List.length_nil] at hlength
    have hle := h.le
    omega
  · rintro rfl
    refine ⟨Nat.le_refl s, hs, ?_⟩
    simp [Language.mem_one]

theorem not_zero : ¬Spans input 0 s e := by
  intro h
  exact Language.notMem_zero _ h.mem

theorem add_iff : Spans input (L + M) s e ↔ Spans input L s e ∨ Spans input M s e := by
  constructor
  · rintro ⟨hle, hbound, hmem⟩
    exact hmem.imp (fun h => ⟨hle, hbound, h⟩) (fun h => ⟨hle, hbound, h⟩)
  · rintro (⟨hle, hbound, hmem⟩ | ⟨hle, hbound, hmem⟩)
    · exact ⟨hle, hbound, .inl hmem⟩
    · exact ⟨hle, hbound, .inr hmem⟩

theorem mul_iff : Spans input (L * M) s e ↔ ∃ m, Spans input L s m ∧ Spans input M m e := by
  constructor
  · rintro ⟨hle, hbound, hmem⟩
    obtain ⟨u, hu, v, hv, heq⟩ := Language.mem_mul.mp hmem
    have hlength := congrArg List.length heq
    rw [List.length_append, length_slice hbound] at hlength
    have hm : s + u.length ≤ e := by omega
    have hsplit : (input.extract s (s + u.length)).toList ++
        (input.extract (s + u.length) e).toList = (input.extract s e).toList :=
      slice_append (Nat.le_add_right s u.length) hm
    have hslice : (input.extract s (s + u.length)).toList.length = u.length := by
      rw [length_slice (by omega), Nat.add_sub_cancel_left]
    obtain ⟨hfirst, hsecond⟩ := List.append_inj (hsplit.trans heq.symm) hslice
    refine ⟨s + u.length, ⟨Nat.le_add_right _ _, by omega, ?_⟩, ⟨hm, hbound, ?_⟩⟩
    · rwa [hfirst]
    · rwa [hsecond]
  · rintro ⟨m, hfirst, hsecond⟩
    refine ⟨hfirst.le.trans hsecond.le, hsecond.bound, ?_⟩
    rw [← slice_append hfirst.le hsecond.le]
    exact Language.mem_mul.mpr ⟨_, hfirst.mem, _, hsecond.mem, rfl⟩

theorem oneChar_iff {accepts : Char → Bool} :
    Spans input (Pattern.oneChar accepts) s e ↔ e = s + 1 ∧ input[s]?.any accepts = true := by
  constructor
  · rintro ⟨hle, hbound, c, hc, heq⟩
    have hlength := length_slice (s := s) hbound
    rw [heq, List.length_singleton] at hlength
    obtain rfl : e = s + 1 := by omega
    have hs : s < input.size := hbound
    rw [slice_one hs] at heq
    obtain rfl : input[s] = c := by simpa using heq
    simp [hs, hc]
  · rintro ⟨rfl, hany⟩
    obtain ⟨c, hget, hc⟩ := (Option.any_eq_true _ _).mp hany
    obtain ⟨hs, rfl⟩ := Array.getElem?_eq_some_iff.mp hget
    exact ⟨Nat.le_succ s, hs, _, hc, slice_one hs⟩

theorem literal_iff {text : List Char} (hs : s ≤ input.size) :
    Spans input {text} s e ↔ Pattern.agree input text s = (e, true) := by
  induction text generalizing s with
  | nil =>
    rw [Pattern.agree, Prod.mk.injEq, and_iff_left rfl]
    exact one_iff hs
  | cons c rest ih =>
    rw [Pattern.singleton_cons, mul_iff, Pattern.agree]
    by_cases hc : input[s]? = some c
    · rw [if_pos hc, ← ih (Array.getElem?_eq_some_iff.mp hc).1]
      constructor
      · rintro ⟨m, hfirst, hrest⟩
        obtain ⟨rfl, _⟩ := oneChar_iff.mp hfirst
        exact hrest
      · intro hrest
        exact ⟨s + 1, oneChar_iff.mpr ⟨rfl, by simp [hc]⟩, hrest⟩
    · rw [if_neg hc]
      refine iff_of_false ?_ (by simp)
      rintro ⟨m, hfirst, _⟩
      obtain ⟨c', hget, heq⟩ := (Option.any_eq_true _ _).mp (oneChar_iff.mp hfirst).2
      exact hc (eq_of_beq heq ▸ hget)

end Spans

theorem Reach.mem_join {e : Nat} {found ends : List Nat} :
    e ∈ Reach.join found ends ↔ e ∈ ends ∨ e ∈ found := by
  unfold Reach.join
  induction found generalizing ends with
  | nil => simp
  | cons x found ih =>
    rw [List.foldl_cons, ih, List.mem_cons]
    by_cases hx : ends.contains x = true
    · rw [if_pos hx]
      have hmem : x ∈ ends := by simpa using hx
      constructor
      · exact Or.imp_right .inr
      · rintro (he | rfl | he)
        · exact .inl he
        · exact .inl hmem
        · exact .inr he
    · rw [if_neg hx, List.mem_cons, or_assoc, or_left_comm]

/-- A union over start positions has what each of them adds. -/
theorem Reach.mem_foldl {R : Nat → Nat → Prop} {add : Reach → Nat → Reach} {starts : List Nat}
    {e : Nat} (hadd : ∀ (acc : Reach), ∀ s ∈ starts, e ∈ (add acc s).ends ↔ e ∈ acc.ends ∨ R s e)
    (acc : Reach) : e ∈ (starts.foldl add acc).ends ↔ e ∈ acc.ends ∨ ∃ s ∈ starts, R s e := by
  induction starts generalizing acc with
  | nil => simp
  | cons s starts ih =>
    rw [List.foldl_cons, ih fun acc s hs => hadd acc s (List.mem_cons_of_mem _ hs),
      hadd acc s List.mem_cons_self, List.exists_mem_cons_iff, or_assoc]

namespace Pattern

section Copies

variable {L : Language Char} {w : List Char}

/-- Of more copies than characters one reads nothing and can be left out. -/
theorem mem_pow_pred {k : Nat} (h : w ∈ L ^ k) (hlength : w.length < k) : w ∈ L ^ (k - 1) := by
  induction k generalizing w with
  | zero => omega
  | succ k ih =>
    rw [pow_succ] at h
    obtain ⟨u, hu, v, hv, rfl⟩ := Language.mem_mul.mp h
    rw [List.length_append] at hlength
    cases v with
    | nil => rwa [List.append_nil, Nat.add_sub_cancel]
    | cons c v =>
      rw [List.length_cons] at hlength
      have hpred := ih hu (by omega)
      obtain ⟨k, rfl⟩ : ∃ j, k = j + 1 := ⟨k - 1, by omega⟩
      rw [Nat.add_sub_cancel, pow_succ]
      exact Language.mem_mul.mpr ⟨u, hpred, _, hv, rfl⟩

/-- As many copies as there are characters are enough. -/
theorem mem_pow_of_le {k j : Nat} (h : w ∈ L ^ k) (hlength : w.length ≤ j) (hle : j ≤ k) :
    w ∈ L ^ j := by
  induction k with
  | zero =>
    obtain rfl : j = 0 := by omega
    exact h
  | succ k ih =>
    by_cases hj : j = k + 1
    · exact hj ▸ h
    · apply ih
      · exact mem_pow_pred h (by omega)
      · omega

/-- Where a copy may be empty, there may be more of them. -/
theorem mem_pow_of_nil (hnil : [] ∈ L) {j k : Nat} (hjk : j ≤ k) (h : w ∈ L ^ j) : w ∈ L ^ k := by
  induction k, hjk using Nat.le_induction with
  | base => exact h
  | succ k _ ih =>
    rw [pow_succ]
    exact Language.mem_mul.mpr ⟨w, ih, [], hnil, List.append_nil w⟩

end Copies

section Repetition

variable {input : Array Char} {L : Language Char} {starts : List Nat} {min count : Nat}
  {frontier found : List Nat} {step : List Nat → Reach}

/-- Some copies in a row lead from one of the start positions to the position. -/
def Copies (input : Array Char) (L : Language Char) (starts : List Nat) (k e : Nat) : Prop :=
  ∃ s ∈ starts, Spans input (L ^ k) s e

theorem Copies.le {k e : Nat} (h : Copies input L starts k e) : e ≤ input.size := by
  obtain ⟨s, _, hspans⟩ := h
  exact hspans.bound

theorem copies_zero (hstarts : ∀ s ∈ starts, s ≤ input.size) {e : Nat} :
    Copies input L starts 0 e ↔ e ∈ starts := by
  constructor
  · rintro ⟨s, hs, hspans⟩
    rw [pow_zero, Spans.one_iff (hstarts s hs)] at hspans
    exact hspans ▸ hs
  · intro he
    refine ⟨e, he, ?_⟩
    rw [pow_zero, Spans.one_iff (hstarts e he)]

theorem copies_succ {k e : Nat} : Copies input L starts (k + 1) e ↔
    ∃ y, Copies input L starts k y ∧ Spans input L y e := by
  constructor
  · rintro ⟨s, hs, hspans⟩
    rw [pow_succ, Spans.mul_iff] at hspans
    obtain ⟨y, hfirst, hlast⟩ := hspans
    exact ⟨y, ⟨s, hs, hfirst⟩, hlast⟩
  · rintro ⟨y, ⟨s, hs, hfirst⟩, hlast⟩
    refine ⟨s, hs, ?_⟩
    rw [pow_succ, Spans.mul_iff]
    exact ⟨y, hfirst, hlast⟩

/-- Enough copies, but fewer than `limit`, lead to the position. -/
def CopiedBefore (input : Array Char) (L : Language Char) (starts : List Nat) (min limit e : Nat) :
    Prop :=
  ∃ k, 1 ≤ k ∧ min ≤ k ∧ k < limit ∧ Copies input L starts k e

theorem CopiedBefore.mono {limit limit' e : Nat} (h : CopiedBefore input L starts min limit e)
    (hle : limit ≤ limit') : CopiedBefore input L starts min limit' e := by
  obtain ⟨k, hpos, hmin, hlt, hcopies⟩ := h
  exact ⟨k, hpos, hmin, Nat.lt_of_lt_of_le hlt hle, hcopies⟩

/-- What holds of a repetition after `count` copies: the frontier has the positions
that are new then, and those found are the ones that enough copies lead to. -/
structure Repeated (input : Array Char) (L : Language Char) (starts : List Nat) (min count : Nat)
    (frontier found : List Nat) : Prop where
  frontier_copies : ∀ e ∈ frontier, Copies input L starts count e
  mem_frontier : ∀ e, Copies input L starts count e →
    e ∈ frontier ∨ CopiedBefore input L starts min count e
  mem_found : ∀ e, e ∈ found ↔ CopiedBefore input L starts min (count + 1) e

theorem Repeated.start (hstarts : ∀ s ∈ starts, s ≤ input.size) :
    Repeated input L starts min 0 starts [] where
  frontier_copies _ he := (copies_zero hstarts).mpr he
  mem_frontier _ hcopies := .inl ((copies_zero hstarts).mp hcopies)
  mem_found e := by
    refine iff_of_false List.not_mem_nil ?_
    rintro ⟨k, hpos, _, hlt, _⟩
    omega

variable (hstep : ∀ starts, (∀ s ∈ starts, s ≤ input.size) → ∀ e, e ∈ (step starts).ends ↔
  ∃ s ∈ starts, Spans input L s e)

include hstep in
/-- What a round comes to is behind one more copy. -/
theorem Repeated.copies_next (h : Repeated input L starts min count frontier found) {e : Nat}
    (he : e ∈ (step frontier).ends) : Copies input L starts (count + 1) e := by
  obtain ⟨y, hy, hspans⟩ := (hstep frontier (fun y hy => (h.frontier_copies y hy).le) e).mp he
  exact copies_succ.mpr ⟨y, h.frontier_copies y hy, hspans⟩

include hstep in
/-- What is behind one more copy is come to in this round, or it was found before. -/
theorem Repeated.next_copies (h : Repeated input L starts min count frontier found) {e : Nat}
    (he : Copies input L starts (count + 1) e) :
    e ∈ (step frontier).ends ∨ e ∈ found := by
  obtain ⟨y, hy, hspans⟩ := copies_succ.mp he
  rcases h.mem_frontier y hy with hin | ⟨k, hpos, hmin, hlt, hk⟩
  · left
    exact (hstep frontier (fun y hy => (h.frontier_copies y hy).le) e).mpr ⟨y, hin, hspans⟩
  · right
    refine (h.mem_found e).mpr ⟨k + 1, by omega, by omega, by omega, ?_⟩
    exact copies_succ.mpr ⟨y, hk, hspans⟩

include hstep in
/-- One round takes up the positions behind one more copy. -/
theorem Repeated.next (h : Repeated input L starts min count frontier found) :
    let next := step frontier
    let fresh :=
      if min < count + 1 then next.ends.filter fun e => !found.contains e else next.ends
    Repeated input L starts min (count + 1) fresh
      (if min ≤ count + 1 then Reach.join fresh found else found) := by
  intro next fresh
  have hfresh (e : Nat) : e ∈ fresh ↔ e ∈ next.ends ∧ ¬(min < count + 1 ∧ e ∈ found) := by
    by_cases hmin : min < count + 1 <;> simp [fresh, hmin]
  have hcopies (e : Nat) (he : e ∈ fresh) : Copies input L starts (count + 1) e :=
    h.copies_next hstep ((hfresh e).mp he).1
  have hcovers (e : Nat) (he : Copies input L starts (count + 1) e) : e ∈ fresh ∨ e ∈ found := by
    by_cases hfound : e ∈ found
    · exact .inr hfound
    · have hin := (h.next_copies hstep he).resolve_right hfound
      exact .inl ((hfresh e).mpr ⟨hin, fun hold => hfound hold.2⟩)
  refine ⟨hcopies, fun e he => ?_, fun e => ?_⟩
  · exact (hcovers e he).imp_right (h.mem_found e).mp
  · have hjoin : (e ∈ if min ≤ count + 1 then Reach.join fresh found else found) ↔
        e ∈ found ∨ min ≤ count + 1 ∧ e ∈ fresh := by
      by_cases hmin : min ≤ count + 1 <;> simp [Reach.mem_join, hmin]
    rw [hjoin, h.mem_found]
    constructor
    · rintro (hbefore | ⟨hmin, hin⟩)
      · exact hbefore.mono (Nat.le_succ _)
      · exact ⟨count + 1, Nat.succ_pos count, hmin, Nat.lt_succ_self _, hcopies e hin⟩
    · rintro ⟨k, hpos, hmin, hlt, hk⟩
      by_cases hcount : k = count + 1
      · subst hcount
        rcases hcovers e hk with hin | hfound
        · exact .inr ⟨hmin, hin⟩
        · exact .inl ((h.mem_found e).mp hfound)
      · exact .inl ⟨k, hpos, hmin, by omega, hk⟩

/-- Once the frontier is empty, more copies lead to nothing new. -/
theorem Repeated.copiedBefore (h : Repeated input L starts min count [] found) {k e : Nat}
    (hle : count ≤ k) (hk : Copies input L starts k e) :
    CopiedBefore input L starts min count e := by
  induction k, hle using Nat.le_induction generalizing e with
  | base => exact (h.mem_frontier e hk).resolve_left List.not_mem_nil
  | succ k _ ih =>
    obtain ⟨y, hy, hspans⟩ := copies_succ.mp hk
    obtain ⟨j, hpos, hmin, hlt, hj⟩ := ih hy
    have hsucc : Copies input L starts (j + 1) e := copies_succ.mpr ⟨y, hj, hspans⟩
    by_cases hcount : j + 1 = count
    · rw [hcount] at hsucc
      exact (h.mem_frontier e hsucc).resolve_left List.not_mem_nil
    · exact ⟨j + 1, by omega, by omega, by omega, hsucc⟩

include hstep in
/-- A repetition finds what enough copies lead to, but not more than there are
rounds. -/
theorem Repeated.mem_repeatReach (h : Repeated input L starts min count frontier found)
    (rounds furthest : Nat) {e : Nat} :
    e ∈ (repeatReach step min rounds count frontier found furthest).ends ↔
      CopiedBefore input L starts min (count + rounds + 1) e := by
  induction rounds generalizing count frontier found furthest with
  | zero => exact h.mem_found e
  | succ rounds ih =>
    rw [repeatReach]
    by_cases hempty : frontier.isEmpty = true
    · obtain rfl := List.isEmpty_iff.mp hempty
      rw [if_pos hempty, h.mem_found]
      constructor
      · exact fun hbefore => hbefore.mono (by omega)
      · rintro ⟨k, hpos, hmin, hlt, hk⟩
        by_cases hle : k ≤ count
        · exact ⟨k, hpos, hmin, by omega, hk⟩
        · exact (h.copiedBefore (by omega) hk).mono (Nat.le_succ _)
    · rw [if_neg hempty]
      have hround := ih (h.next hstep) (max furthest (step frontier).furthest)
      rw [show count + (rounds + 1) + 1 = count + 1 + rounds + 1 by omega]
      exact hround

end Repetition

section Ends

variable {input : Array Char} {starts : List Nat} {e : Nat}

theorem mem_literalReach {text : List Char} (hstarts : ∀ s ∈ starts, s ≤ input.size) :
    e ∈ (literalReach input text starts).ends ↔ ∃ s ∈ starts, Spans input {text} s e := by
  unfold literalReach
  rw [Reach.mem_foldl (R := fun s e => Spans input {text} s e)]
  · simp
  · intro acc s hs
    rw [Spans.literal_iff (hstarts s hs)]
    cases hagree : agree input text s with
    | mk pos complete => cases complete <;> simp [Reach.union, Reach.mem_join, eq_comm]

theorem mem_charReach {accepts : Char → Bool} :
    e ∈ (charReach input accepts starts).ends ↔
      ∃ s ∈ starts, Spans input (oneChar accepts) s e := by
  unfold charReach
  rw [Reach.mem_foldl (R := fun s e => Spans input (oneChar accepts) s e)]
  · simp
  · intro acc s _
    rw [Spans.oneChar_iff]
    split <;> simp_all [Reach.union, Reach.mem_join]

theorem spans_repetition_iff {body : Pattern} {min : Nat} {max : Option Nat} {s : Nat} :
    Spans input (language (.repetition body min max)) s e ↔
      ∃ k, min ≤ k ∧ (∀ m ∈ max, k ≤ m) ∧ Spans input (body.language ^ k) s e := by
  constructor
  · rintro ⟨hle, hbound, k, hmin, hmax, hmem⟩
    exact ⟨k, hmin, hmax, hle, hbound, hmem⟩
  · rintro ⟨k, hmin, hmax, hle, hbound, hmem⟩
    exact ⟨hle, hbound, k, hmin, hmax, hmem⟩

theorem le_roundLimit {size min k : Nat} {max : Option Nat} (hcap : size + min < Word.bound)
    (hk : k ≤ size + min + 1) (hmax : ∀ m ∈ max, k ≤ m) : k ≤ roundLimit size min max := by
  cases max with
  | none => rwa [roundLimit, Word.add_of_lt hcap]
  | some m =>
    rw [roundLimit, Word.add_of_lt hcap]
    exact Nat.le_min.mpr ⟨hmax m rfl, hk⟩

/-- The rounds of a repetition are enough for every number of copies that it may
have. -/
theorem exists_copies {L : Language Char} {min k s : Nat} {max : Option Nat}
    (hcap : input.size + min < Word.bound) (hmin : min ≤ k) (hmax : ∀ m ∈ max, k ≤ m)
    (h : Spans input (L ^ k) s e) :
    ∃ j, min ≤ j ∧ j ≤ roundLimit input.size min max ∧ Spans input (L ^ j) s e := by
  obtain ⟨hle, hbound, hmem⟩ := h
  have hlength := Spans.length_slice (s := s) hbound
  have hlimit (j : Nat) (hj : j ≤ k) (hsize : j ≤ input.size + min) :
      j ≤ roundLimit input.size min max :=
    le_roundLimit hcap (Nat.le_succ_of_le hsize) fun m hm => hj.trans (hmax m hm)
  by_cases hk : k ≤ input.size + min
  · exact ⟨k, hmin, hlimit k (Nat.le_refl k) hk, hle, hbound, hmem⟩
  · refine ⟨input.size + min, by omega, hlimit _ (by omega) (Nat.le_refl _), hle, hbound, ?_⟩
    exact mem_pow_of_le hmem (by omega) (by omega)

theorem le_of_le_roundLimit {size min k : Nat} {max : Option Nat}
    (h : k ≤ roundLimit size min max) : ∀ m ∈ max, k ≤ m := by
  rintro m rfl
  exact h.trans (Nat.min_le_left _ _)

theorem mem_reach_repetition {body : Pattern} {min : Nat} {max : Option Nat}
    (hcap : input.size + min < Word.bound)
    (hbody : ∀ starts, (∀ s ∈ starts, s ≤ input.size) → ∀ e, e ∈ (body.reach input starts).ends ↔
      ∃ s ∈ starts, Spans input body.language s e) (hstarts : ∀ s ∈ starts, s ≤ input.size) :
    e ∈ (reach input (.repetition body min max) starts).ends ↔
      ∃ s ∈ starts, Spans input (language (.repetition body min max)) s e := by
  have hstart : Repeated input body.language starts min 0 starts [] := .start hstarts
  have hmore := hstart.mem_repeatReach hbody (roundLimit input.size min max) 0 (e := e)
  have hends : e ∈ (reach input (.repetition body min max) starts).ends ↔
      (min = 0 ∧ e ∈ starts) ∨
        CopiedBefore input body.language starts min (0 + roundLimit input.size min max + 1) e := by
    rw [reach, ← hmore]
    split
    · rename_i hzero
      simp [Reach.mem_join, hzero]
    · rename_i hpos
      simp [hpos]
  rw [hends]
  constructor
  · rintro (⟨rfl, he⟩ | ⟨k, _, hmin, hlt, s, hs, hspans⟩)
    · obtain ⟨s, hs, hspans⟩ := (copies_zero (L := body.language) hstarts).mpr he
      exact ⟨s, hs, spans_repetition_iff.mpr ⟨0, Nat.le_refl 0, fun _ _ => Nat.zero_le _, hspans⟩⟩
    · have hmax := le_of_le_roundLimit (show k ≤ roundLimit input.size min max by omega)
      exact ⟨s, hs, spans_repetition_iff.mpr ⟨k, hmin, hmax, hspans⟩⟩
  · rintro ⟨s, hs, hspans⟩
    obtain ⟨k, hmin, hmax, hcopies⟩ := spans_repetition_iff.mp hspans
    obtain ⟨j, hmin, hlimit, hcopies⟩ := exists_copies hcap hmin hmax hcopies
    cases j with
    | zero =>
      left
      exact ⟨by omega, (copies_zero hstarts).mp ⟨s, hs, hcopies⟩⟩
    | succ j =>
      right
      exact ⟨j + 1, by omega, hmin, by omega, s, hs, hcopies⟩

mutual

/-- A pattern stops at the positions that its texts lead to. -/
theorem mem_reach (p : Pattern) (hcaps : ∀ q ∈ p.parts, q.CapFits input.size) (starts : List Nat)
    (hstarts : ∀ s ∈ starts, s ≤ input.size) (e : Nat) :
    e ∈ (p.reach input starts).ends ↔ ∃ s ∈ starts, Spans input p.language s e := by
  cases p with
  | literal text =>
    rw [reach, language]
    exact mem_literalReach hstarts
  | oneOf chars =>
    rw [reach, language]
    exact mem_charReach
  | repetition body min max =>
    rw [parts, List.forall_mem_cons] at hcaps
    exact mem_reach_repetition hcaps.1 (mem_reach body hcaps.2) hstarts
  | seq items =>
    rw [parts, List.forall_mem_cons] at hcaps
    rw [reach, language]
    exact mem_reachSeq items hcaps.2 starts hstarts e
  | alt items =>
    rw [parts, List.forall_mem_cons] at hcaps
    rw [reach, language]
    exact mem_reachAlt items hcaps.2 starts hstarts e
  | fragment name =>
    rw [reach, language]
    refine iff_of_false (by simp) ?_
    rintro ⟨s, _, hspans⟩
    exact hspans.not_zero
  | any =>
    rw [reach, language]
    exact mem_charReach

theorem mem_reachSeq (items : List Pattern) (hcaps : ∀ q ∈ partsAll items, q.CapFits input.size)
    (starts : List Nat) (hstarts : ∀ s ∈ starts, s ≤ input.size) (e : Nat) :
    e ∈ (reachSeq input items starts).ends ↔
      ∃ s ∈ starts, Spans input (languageSeq items) s e := by
  cases items with
  | nil =>
    rw [reachSeq, languageSeq]
    constructor
    · intro he
      exact ⟨e, he, (Spans.one_iff (hstarts e he)).mpr rfl⟩
    · rintro ⟨s, hs, hspans⟩
      exact (Spans.one_iff (hstarts s hs)).mp hspans ▸ hs
  | cons p rest =>
    rw [partsAll, List.forall_mem_append] at hcaps
    have hhere := mem_reach p hcaps.1 starts hstarts
    have hbound : ∀ m ∈ (p.reach input starts).ends, m ≤ input.size := by
      intro m hm
      obtain ⟨s, _, hspans⟩ := (hhere m).mp hm
      exact hspans.bound
    have hthere := mem_reachSeq rest hcaps.2 (p.reach input starts).ends hbound e
    have hends : e ∈ (reachSeq input (p :: rest) starts).ends ↔
        e ∈ (reachSeq input rest (p.reach input starts).ends).ends := by
      rw [reachSeq]
      dsimp only
      split
      · rename_i hempty
        rw [hthere, List.isEmpty_iff.mp hempty]
        simp
      · rfl
    rw [hends, hthere, languageSeq]
    simp only [Spans.mul_iff, hhere]
    constructor
    · rintro ⟨m, ⟨s, hs, hfirst⟩, hrest⟩
      exact ⟨s, hs, m, hfirst, hrest⟩
    · rintro ⟨s, hs, m, hfirst, hrest⟩
      exact ⟨m, ⟨s, hs, hfirst⟩, hrest⟩

theorem mem_reachAlt (items : List Pattern) (hcaps : ∀ q ∈ partsAll items, q.CapFits input.size)
    (starts : List Nat) (hstarts : ∀ s ∈ starts, s ≤ input.size) (e : Nat) :
    e ∈ (reachAlt input items starts).ends ↔
      ∃ s ∈ starts, Spans input (languageAlt items) s e := by
  cases items with
  | nil =>
    rw [reachAlt, languageAlt]
    refine iff_of_false (by simp) ?_
    rintro ⟨s, _, hspans⟩
    exact hspans.not_zero
  | cons p rest =>
    rw [partsAll, List.forall_mem_append] at hcaps
    rw [reachAlt, languageAlt, Reach.union, Reach.mem_join, mem_reach p hcaps.1 starts hstarts,
      mem_reachAlt rest hcaps.2 starts hstarts]
    simp only [Spans.add_iff, and_or_left, exists_or]

end

end Ends

/-- So many copies, of nothing or of one letter, that the cap on the rounds wraps
around in every input that is not empty. -/
def countless : Pattern :=
  .repetition (.alt [.literal "", .literal "a"]) (Word.bound - 1) none

/-- The search misses what countless copies match: it gives up after three rounds. -/
theorem spans_countless : Spans "aaa".toList.toArray countless.language 0 3 := by
  have hempty : [] ∈ (alt [.literal "", .literal "a"]).language := .inl rfl
  have hletter : ['a'] ∈ (alt [.literal "", .literal "a"]).language := .inr (.inl rfl)
  have hthree : ['a', 'a', 'a'] ∈ (alt [.literal "", .literal "a"]).language ^ 3 := by
    simp only [pow_succ, pow_zero, one_mul]
    exact Language.mem_mul.mpr
      ⟨_, Language.mem_mul.mpr ⟨_, hletter, _, hletter, rfl⟩, _, hletter, rfl⟩
  have hmany := mem_pow_of_nil hempty (show 3 ≤ Word.bound - 1 by decide) hthree
  exact ⟨Nat.zero_le 3, Nat.le_refl 3, _, Nat.le_refl _, nofun, hmany⟩

end Pattern

end AdaptiveLL
