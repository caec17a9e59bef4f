/-
How far a pattern reads.

A pattern that fails has read a part of one of its texts.  The furthest position
that it notes is where the longest such part ends: every path is followed as far as
the input goes along with it, and what has been read on a path can be completed to a
text if every part of the pattern has one.  The error that a lexer tells goes up to
the character behind the furthest position of all rules.
-/
import AdaptiveLL.Proofs.Tiling
import Mathlib.Order.Bounds.Defs

namespace AdaptiveLL

namespace Pattern

/-- The search for the ends of a pattern finds those that its language has from the
position on.  The longest match is the longest of its texts there that is not
empty. -/
theorem longestMatch?_language (p : Pattern) {input : Array Char} {pos : Nat}
    (hcaps : ∀ q ∈ p.parts, q.CapFits input.size) (hpos : pos ≤ input.size) :
    (∀ e, e ∈ (p.reach input [pos]).ends ↔ Spans input p.language pos e) ∧
      (∀ n, longestMatch? (p.reach input [pos]).ends pos = some n ↔
        IsGreatest {n | 0 < n ∧ Spans input p.language pos (pos + n)} n) ∧
      (longestMatch? (p.reach input [pos]).ends pos = none ↔
        ∀ n, Spans input p.language pos (pos + n) → n = 0) := by
  refine ⟨fun e => mem_reach_singleton hcaps hpos, fun n => ⟨fun h => ?_, fun h => ?_⟩,
    fun h => ?_, ?_⟩
  · obtain ⟨hpositive, hspans, hlongest⟩ := longestMatch?_eq_some hcaps hpos h
    exact ⟨⟨hpositive, hspans⟩, fun m hm => hlongest m hm.2⟩
  · cases hfound : longestMatch? (p.reach input [pos]).ends pos with
    | none =>
      have hzero := longestMatch?_eq_none hcaps hpos hfound n h.1.2
      exact absurd hzero (Nat.ne_of_gt h.1.1)
    | some m =>
      obtain ⟨hpositive, hspans, hlongest⟩ := longestMatch?_eq_some hcaps hpos hfound
      exact congrArg some (Nat.le_antisymm (h.2 ⟨hpositive, hspans⟩) (hlongest n h.1.2))
  · exact longestMatch?_eq_none hcaps hpos h
  · intro h
    by_contra hsome
    obtain ⟨n, hn⟩ := Option.ne_none_iff_exists'.mp hsome
    obtain ⟨hpositive, hspans, _⟩ := longestMatch?_eq_some hcaps hpos hn
    exact Nat.ne_of_gt hpositive (h n hspans)

/-- Two or three copies of what may be nothing: the search goes on as long as there
is an `a`. -/
theorem longestMatch?_nested : longestMatch?
    ((repetition (star (literal "a")) 2 (some 3)).reach "aab".toList.toArray [0]).ends 0 = some 2 ∧
      IsGreatest {n | 0 < n ∧ Spans "aab".toList.toArray
        (repetition (star (literal "a")) 2 (some 3)).language 0 (0 + n)} 2 := by
  have hfound : longestMatch?
      ((repetition (star (literal "a")) 2 (some 3)).reach "aab".toList.toArray [0]).ends 0 =
        some 2 := by decide +kernel
  have hcaps : ∀ q ∈ (repetition (star (literal "a")) 2 (some 3)).parts,
      q.CapFits "aab".toList.toArray.size := by decide +kernel
  exact ⟨hfound, ((longestMatch?_language _ hcaps (Nat.zero_le _)).2.1 2).mp hfound⟩

/-- Where the cap wraps around, the search finds no match though there is one. -/
theorem longestMatch?_countless :
    longestMatch? (countless.reach "aaa".toList.toArray [0]).ends 0 = none ∧
      IsGreatest {n | 0 < n ∧ Spans "aaa".toList.toArray countless.language 0 (0 + n)} 3 := by
  refine ⟨by decide +kernel, ⟨Nat.succ_pos 2, spans_countless⟩, fun n hn => ?_⟩
  have hbound := hn.2.bound
  rwa [Nat.zero_add] at hbound

end Pattern

/-- The input from `s` up to `f` begins a text of the language. -/
structure Viable (input : Array Char) (L : Language Char) (s f : Nat) : Prop where
  le : s ≤ f
  bound : f ≤ input.size
  extends_to : ∃ w ∈ L, (input.extract s f).toList <+: w

theorem Spans.viable {input : Array Char} {L : Language Char} {s e : Nat} (h : Spans input L s e) :
    Viable input L s e :=
  ⟨h.le, h.bound, _, h.mem, List.prefix_refl _⟩

namespace Viable

variable {input : Array Char} {L M : Language Char} {s f : Nat}

/-- A text that there is begins where nothing has been read of it. -/
theorem refl (hs : s ≤ input.size) (hL : ∃ w, w ∈ L) : Viable input L s s := by
  obtain ⟨w, hw⟩ := hL
  refine ⟨Nat.le_refl s, hs, w, hw, ?_⟩
  simp

theorem exists_mem (h : Viable input L s f) : ∃ w, w ∈ L := by
  obtain ⟨w, hw, _⟩ := h.extends_to
  exact ⟨w, hw⟩

theorem mono (h : Viable input L s f) (hLM : ∀ w ∈ L, w ∈ M) : Viable input M s f := by
  obtain ⟨hle, hbound, w, hw, hread⟩ := h
  exact ⟨hle, hbound, w, hLM w hw, hread⟩

theorem add_iff : Viable input (L + M) s f ↔ Viable input L s f ∨ Viable input M s f := by
  constructor
  · rintro ⟨hle, hbound, w, hw | hw, hread⟩
    · exact .inl ⟨hle, hbound, w, hw, hread⟩
    · exact .inr ⟨hle, hbound, w, hw, hread⟩
  · rintro (h | h)
    · exact h.mono fun w => .inl
    · exact h.mono fun w => .inr

/-- One text after the other begins with the first of them, or with the whole of it
and a beginning of the second. -/
theorem mul_iff : Viable input (L * M) s f ↔
    (Viable input L s f ∧ ∃ w, w ∈ M) ∨ ∃ m, Spans input L s m ∧ Viable input M m f := by
  constructor
  · rintro ⟨hle, hbound, w, hw, hread⟩
    obtain ⟨u, hu, v, hv, rfl⟩ := Language.mem_mul.mp hw
    by_cases hlength : f ≤ s + u.length
    · refine .inl ⟨⟨hle, hbound, u, hu, ?_⟩, v, hv⟩
      refine List.prefix_of_prefix_length_le hread (List.prefix_append u v) ?_
      rw [Spans.length_slice hbound]
      omega
    · right
      have hsplit : (input.extract s (s + u.length)).toList ++
          (input.extract (s + u.length) f).toList = (input.extract s f).toList :=
        Spans.slice_append (Nat.le_add_right _ _) (by omega)
      have hslice : (input.extract s (s + u.length)).toList.length = u.length := by
        rw [Spans.length_slice (by omega), Nat.add_sub_cancel_left]
      obtain ⟨rest, hrest⟩ := hread
      rw [← hsplit, List.append_assoc] at hrest
      obtain ⟨hfirst, hsecond⟩ := List.append_inj hrest hslice
      refine ⟨s + u.length, ⟨Nat.le_add_right _ _, by omega, ?_⟩, by omega, hbound, v, hv, rest,
        hsecond⟩
      rwa [hfirst]
  · rintro (⟨⟨hle, hbound, u, hu, hread⟩, v, hv⟩ | ⟨m, hfirst, hle, hbound, v, hv, hread⟩)
    · exact ⟨hle, hbound, u ++ v, Language.mem_mul.mpr ⟨u, hu, v, hv, rfl⟩,
        hread.trans (List.prefix_append u v)⟩
    · refine ⟨hfirst.le.trans hle, hbound, _,
        Language.mem_mul.mpr ⟨_, hfirst.mem, v, hv, rfl⟩, ?_⟩
      rw [← Spans.slice_append hfirst.le hle]
      exact (List.prefix_append_right_inj _).mpr hread

theorem one_iff (hs : s ≤ input.size) : Viable input 1 s f ↔ s = f := by
  constructor
  · rintro ⟨hle, hbound, w, hw, hread⟩
    have hlength := Spans.length_slice (s := s) hbound
    rw [(Language.mem_one w).mp hw, List.prefix_nil] at hread
    rw [hread, List.length_nil] at hlength
    omega
  · rintro rfl
    exact refl hs ⟨[], Language.nil_mem_one⟩

/-- Of a text of one character nothing has been read or all of it. -/
theorem oneChar {accepts : Char → Bool} (h : Viable input (Pattern.oneChar accepts) s f) :
    f = s ∨ Spans input (Pattern.oneChar accepts) s f := by
  obtain ⟨hle, hbound, w, ⟨c, hc, rfl⟩, hread⟩ := h
  rcases List.prefix_cons_iff.mp hread with hnil | ⟨t, hslice, ht⟩
  · left
    have hlength := Spans.length_slice (s := s) hbound
    rw [hnil, List.length_nil] at hlength
    omega
  · right
    rw [List.prefix_nil.mp ht] at hslice
    exact ⟨hle, hbound, c, hc, hslice⟩

/-- A text begins as far as the input agrees with it. -/
theorem literal_iff {text : List Char} (hs : s ≤ input.size) :
    Viable input {text} s f ↔ s ≤ f ∧ f ≤ (Pattern.agree input text s).1 := by
  induction text generalizing s f with
  | nil =>
    rw [Pattern.agree]
    refine (one_iff hs).trans ?_
    dsimp only
    omega
  | cons c rest ih =>
    have hrest : ∃ w, w ∈ ({rest} : Language Char) := ⟨rest, rfl⟩
    have hstart : Viable input (Pattern.oneChar (· == c)) s s :=
      refl hs ⟨[c], c, beq_self_eq_true c, rfl⟩
    rw [Pattern.singleton_cons, mul_iff, Pattern.agree]
    by_cases hc : input[s]? = some c
    · have hspans : Spans input (Pattern.oneChar (· == c)) s (s + 1) :=
        Spans.oneChar_iff.mpr ⟨rfl, by simp [hc]⟩
      have hbehind {f : Nat} : Viable input {rest} (s + 1) f ↔
          s + 1 ≤ f ∧ f ≤ (Pattern.agree input rest (s + 1)).1 := ih hspans.bound
      rw [if_pos hc]
      constructor
      · rintro (⟨hfirst, _⟩ | ⟨m, hfirst, hsecond⟩)
        · have hreached := (hbehind.mp (refl hspans.bound hrest)).2
          rcases hfirst.oneChar with rfl | hwhole
          · exact ⟨Nat.le_refl f, (Nat.le_succ f).trans hreached⟩
          · obtain ⟨rfl, _⟩ := Spans.oneChar_iff.mp hwhole
            exact ⟨hwhole.le, hreached⟩
        · obtain ⟨rfl, _⟩ := Spans.oneChar_iff.mp hfirst
          exact ⟨hfirst.le.trans hsecond.le, (hbehind.mp hsecond).2⟩
      · rintro ⟨hle, hagree⟩
        rcases Nat.eq_or_lt_of_le hle with rfl | hlt
        · exact .inl ⟨hstart, hrest⟩
        · exact .inr ⟨s + 1, hspans, hbehind.mpr ⟨hlt, hagree⟩⟩
    · rw [if_neg hc]
      have hnot (m : Nat) : ¬Spans input (Pattern.oneChar (· == c)) s m := by
        intro hspans
        obtain ⟨c', hget, heq⟩ := (Option.any_eq_true _ _).mp (Spans.oneChar_iff.mp hspans).2
        exact hc (eq_of_beq heq ▸ hget)
      constructor
      · rintro (⟨hfirst, _⟩ | ⟨m, hfirst, _⟩)
        · obtain rfl := hfirst.oneChar.resolve_right (hnot f)
          exact ⟨Nat.le_refl f, Nat.le_refl f⟩
        · exact absurd hfirst (hnot m)
      · rintro ⟨hle, hagree⟩
        obtain rfl : s = f := Nat.le_antisymm hle hagree
        exact .inl ⟨hstart, hrest⟩

end Viable

namespace Viable

section Copies

variable {input : Array Char} {L : Language Char} {s f : Nat}

/-- Copies in a row begin with whole ones, fewer than all, and a beginning of the
next one. -/
theorem exists_of_pow {k : Nat} (hs : s ≤ input.size) (h : Viable input (L ^ k) s f) :
    f = s ∨ ∃ j < k, ∃ y, Spans input (L ^ j) s y ∧ Viable input L y f := by
  induction k generalizing f with
  | zero =>
    rw [pow_zero, one_iff hs] at h
    exact .inl h.symm
  | succ k ih =>
    rw [pow_succ, mul_iff] at h
    rcases h with ⟨hfirst, _⟩ | ⟨y, hfirst, hlast⟩
    · refine (ih hfirst).imp_right ?_
      rintro ⟨j, hj, hrest⟩
      exact ⟨j, Nat.lt_succ_of_lt hj, hrest⟩
    · exact .inr ⟨k, Nat.lt_succ_self k, y, hfirst, hlast⟩

/-- Whole copies and a beginning of the next one begin any greater number of them. -/
theorem of_copies {j k y : Nat} (hjk : j < k) (hcopies : Spans input (L ^ j) s y)
    (h : Viable input L y f) : Viable input (L ^ k) s f := by
  obtain ⟨w, hw⟩ := h.exists_mem
  have hmore (n : Nat) : ∃ w, w ∈ L ^ n := by
    induction n with
    | zero => exact ⟨[], Language.nil_mem_one⟩
    | succ n ih =>
      obtain ⟨u, hu⟩ := ih
      exact ⟨u ++ w, by rw [pow_succ]; exact Language.mem_mul.mpr ⟨u, hu, w, hw, rfl⟩⟩
  have hsplit : L ^ k = L ^ j * (L * L ^ (k - (j + 1))) := by
    rw [← pow_succ', ← pow_add]
    congr 1
    omega
  rw [hsplit, mul_iff]
  exact .inr ⟨y, hcopies, mul_iff.mpr (.inl ⟨h, hmore _⟩)⟩

end Copies

end Viable

/-- The furthest position that the texts of a language get to, from some positions
on: a part of one of them ends there, if it is not zero, and no part of them ends
behind it. -/
structure Furthest (input : Array Char) (L : Language Char) (starts : List Nat) (f : Nat) :
    Prop where
  sound : f = 0 ∨ ∃ s ∈ starts, Viable input L s f
  covers : ∀ s ∈ starts, ∀ g, Viable input L s g → g ≤ max s f

namespace Furthest

variable {input : Array Char} {L M : Language Char} {starts ends : List Nat} {s f g : Nat}

theorem nil : Furthest input L [] 0 where
  sound := .inl rfl
  covers _ hs := absurd hs List.not_mem_nil

/-- One more start position has its own furthest position. -/
theorem snoc (h : Furthest input L starts f) (hlast : Furthest input L [s] g) :
    Furthest input L (starts ++ [s]) (max f g) where
  sound := by
    rcases max_choice f g with heq | heq <;> rw [heq]
    · refine h.sound.imp_right ?_
      rintro ⟨x, hx, hviable⟩
      exact ⟨x, List.mem_append_left _ hx, hviable⟩
    · refine hlast.sound.imp_right ?_
      rintro ⟨x, hx, hviable⟩
      exact ⟨x, List.mem_append_right _ hx, hviable⟩
  covers x hx e he := by
    rcases List.mem_append.mp hx with hx | hx
    · have := h.covers x hx e he
      omega
    · have := hlast.covers x hx e he
      omega

/-- Two languages from the same positions on. -/
theorem add (h : Furthest input L starts f) (h' : Furthest input M starts g) :
    Furthest input (L + M) starts (max f g) where
  sound := by
    rcases max_choice f g with heq | heq <;> rw [heq]
    · refine h.sound.imp_right ?_
      rintro ⟨s, hs, hviable⟩
      exact ⟨s, hs, Viable.add_iff.mpr (.inl hviable)⟩
    · refine h'.sound.imp_right ?_
      rintro ⟨s, hs, hviable⟩
      exact ⟨s, hs, Viable.add_iff.mpr (.inr hviable)⟩
  covers s hs e he := by
    rcases Viable.add_iff.mp he with hfirst | hsecond
    · have := h.covers s hs e hfirst
      omega
    · have := h'.covers s hs e hsecond
      omega

/-- One language behind the other: the second goes on where the first one ends, and
it has a text to complete the first one. -/
theorem mul (h : Furthest input L starts f)
    (hends : ∀ m, m ∈ ends ↔ ∃ s ∈ starts, Spans input L s m) (hM : ∃ w, w ∈ M)
    (h' : Furthest input M ends g) : Furthest input (L * M) starts (max f g) where
  sound := by
    rcases max_choice f g with heq | heq <;> rw [heq]
    · refine h.sound.imp_right ?_
      rintro ⟨s, hs, hviable⟩
      exact ⟨s, hs, Viable.mul_iff.mpr (.inl ⟨hviable, hM⟩)⟩
    · refine h'.sound.imp_right ?_
      rintro ⟨m, hm, hviable⟩
      obtain ⟨s, hs, hspans⟩ := (hends m).mp hm
      exact ⟨s, hs, Viable.mul_iff.mpr (.inr ⟨m, hspans, hviable⟩)⟩
  covers s hs e he := by
    rcases Viable.mul_iff.mp he with ⟨hfirst, _⟩ | ⟨m, hspans, hsecond⟩
    · have := h.covers s hs e hfirst
      omega
    · have hm := h.covers s hs m hspans.viable
      have he := h'.covers m ((hends m).mpr ⟨s, hs, hspans⟩) e hsecond
      omega

end Furthest

namespace Pattern

variable {input : Array Char} {starts : List Nat}

section Leaves

/-- A search that goes through the start positions one after the other. -/
theorem furthest_foldl {L : Language Char} {add : Reach → Nat → Reach} (far : Nat → Nat)
    (hadd : ∀ acc s, (add acc s).furthest = max acc.furthest (far s))
    (hfar : ∀ s ∈ starts, Furthest input L [s] (far s)) :
    Furthest input L starts (starts.foldl add {}).furthest := by
  induction starts using List.reverseRecOn with
  | nil => exact .nil
  | append_singleton starts s ih =>
    obtain ⟨hstarts, hs⟩ := List.forall_mem_append.mp hfar
    rw [List.foldl_append, List.foldl_cons, List.foldl_nil, hadd]
    exact (ih hstarts).snoc (hs s List.mem_cons_self)

theorem furthest_literalReach {text : List Char} (hstarts : ∀ s ∈ starts, s ≤ input.size) :
    Furthest input {text} starts (literalReach input text starts).furthest := by
  refine furthest_foldl (fun s => (agree input text s).1) (fun acc s => rfl) fun s hs => ?_
  have hiff {f : Nat} : Viable input {text} s f ↔ s ≤ f ∧ f ≤ (agree input text s).1 :=
    Viable.literal_iff (hstarts s hs)
  have hle := (hiff.mp (.refl (hstarts s hs) ⟨text, rfl⟩)).2
  refine ⟨.inr ⟨s, List.mem_cons_self, hiff.mpr ⟨hle, Nat.le_refl _⟩⟩, fun x hx g hg => ?_⟩
  obtain rfl := List.mem_singleton.mp hx
  exact (hiff.mp hg).2.trans (Nat.le_max_right _ _)

theorem furthest_charReach {accepts : Char → Bool} :
    Furthest input (oneChar accepts) starts (charReach input accepts starts).furthest := by
  refine furthest_foldl (fun s => if input[s]?.any accepts then s + 1 else 0)
    (fun acc s => ?_) fun s _ => ?_
  · split
    · rfl
    · exact (Nat.max_zero _).symm
  · have hspans {f : Nat} : Spans input (oneChar accepts) s f ↔
        f = s + 1 ∧ input[s]?.any accepts = true := Spans.oneChar_iff
    refine ⟨?_, fun x hx g hg => ?_⟩
    · split
      · exact .inr ⟨s, List.mem_cons_self, (hspans.mpr ⟨rfl, ‹_›⟩).viable⟩
      · exact .inl rfl
    · obtain rfl := List.mem_singleton.mp hx
      rcases hg.oneChar with rfl | hwhole
      · exact Nat.le_max_left _ _
      · obtain ⟨rfl, haccepts⟩ := hspans.mp hwhole
        rw [if_pos haccepts]
        exact Nat.le_max_right _ _

end Leaves

section Repetition

/-- As many copies as there are characters are enough. -/
theorem exists_fewer_copies {L : Language Char} {j s e : Nat} (h : Spans input (L ^ j) s e) :
    ∃ i ≤ j, i ≤ input.size ∧ Spans input (L ^ i) s e := by
  obtain ⟨hle, hbound, hmem⟩ := h
  have hlength := Spans.length_slice (s := s) hbound
  by_cases hj : j ≤ input.size
  · exact ⟨j, Nat.le_refl j, hj, hle, hbound, hmem⟩
  · exact ⟨input.size, by omega, Nat.le_refl _, hle, hbound,
      mem_pow_of_le hmem (by omega) (by omega)⟩

variable {L : Language Char} {min count : Nat} {frontier found : List Nat} {furthest : Nat}
  {step : List Nat → Reach}

/-- How far a repetition has come when fewer than `limit` copies were followed by
one more. -/
structure RepeatedTo (input : Array Char) (L : Language Char) (starts : List Nat)
    (limit furthest : Nat) : Prop where
  sound : furthest = 0 ∨ ∃ k < limit, ∃ y, Copies input L starts k y ∧ Viable input L y furthest
  covers : ∀ k < limit, ∀ y, Copies input L starts k y → ∀ g, Viable input L y g →
    g ≤ max y furthest

theorem RepeatedTo.start : RepeatedTo input L starts 0 0 where
  sound := .inl rfl
  covers k hk := absurd hk (Nat.not_lt_zero k)

/-- Where whole copies end is not behind the furthest position, nor is where a part
of one more ends. -/
theorem RepeatedTo.covers_start {k s y g : Nat} (h : RepeatedTo input L starts count furthest)
    (hstarts : ∀ s ∈ starts, s ≤ input.size) (hs : s ∈ starts) (hk : k < count)
    (hcopies : Spans input (L ^ k) s y) (hviable : Viable input L y g) : g ≤ max s furthest := by
  have hg := h.covers k hk y ⟨s, hs, hcopies⟩ g hviable
  have hy : y ≤ max s furthest := by
    induction k generalizing y g with
    | zero =>
      rw [pow_zero, Spans.one_iff (hstarts s hs)] at hcopies
      exact hcopies ▸ Nat.le_max_left _ _
    | succ k ih =>
      rw [pow_succ, Spans.mul_iff] at hcopies
      obtain ⟨x, hfirst, hlast⟩ := hcopies
      have hy := h.covers k (by omega) x ⟨s, hs, hfirst⟩ y hlast.viable
      have hx := ih (by omega) hfirst hlast.viable hy
      omega
  omega

/-- Once the frontier is empty, more copies lead nowhere that is further. -/
theorem RepeatedTo.mono (h : RepeatedTo input L starts count furthest)
    (hrepeated : Repeated input L starts min count [] found) {limit : Nat} (hle : count ≤ limit) :
    RepeatedTo input L starts limit furthest where
  sound := by
    refine h.sound.imp_right ?_
    rintro ⟨k, hk, hrest⟩
    exact ⟨k, Nat.lt_of_lt_of_le hk hle, hrest⟩
  covers k _ y hy := by
    by_cases hk : k < count
    · exact h.covers k hk y hy
    · obtain ⟨j, _, _, hj, hcopies⟩ := hrepeated.copiedBefore (Nat.le_of_not_lt hk) hy
      exact h.covers j hj y hcopies

variable (hstep : ∀ starts, (∀ s ∈ starts, s ≤ input.size) →
  Furthest input L starts (step starts).furthest)

include hstep in
/-- A round follows the copies that the frontier is behind by one more. -/
theorem RepeatedTo.next (h : RepeatedTo input L starts count furthest)
    (hrepeated : Repeated input L starts min count frontier found) :
    RepeatedTo input L starts (count + 1) (max furthest (step frontier).furthest) := by
  have hround := hstep frontier fun y hy => (hrepeated.frontier_copies y hy).le
  refine ⟨?_, fun k hk y hy g hg => ?_⟩
  · rcases max_choice furthest (step frontier).furthest with heq | heq <;> rw [heq]
    · refine h.sound.imp_right ?_
      rintro ⟨k, hk, hrest⟩
      exact ⟨k, Nat.lt_succ_of_lt hk, hrest⟩
    · refine hround.sound.imp_right ?_
      rintro ⟨y, hy, hviable⟩
      exact ⟨count, Nat.lt_succ_self count, y, hrepeated.frontier_copies y hy, hviable⟩
  · have hbefore {j : Nat} (hj : j < count) (hcopies : Copies input L starts j y) :
        g ≤ max y (max furthest (step frontier).furthest) := by
      have := h.covers j hj y hcopies g hg
      omega
    rcases Nat.lt_succ_iff_lt_or_eq.mp hk with hk | rfl
    · exact hbefore hk hy
    · rcases hrepeated.mem_frontier y hy with hin | ⟨j, _, _, hj, hcopies⟩
      · have := hround.covers y hin g hg
        omega
      · exact hbefore hj hcopies

include hstep in
/-- The rounds of a repetition follow as many copies as there are rounds. -/
theorem RepeatedTo.repeatReach
    (hends : ∀ starts, (∀ s ∈ starts, s ≤ input.size) → ∀ e, e ∈ (step starts).ends ↔
      ∃ s ∈ starts, Spans input L s e)
    (h : RepeatedTo input L starts count furthest)
    (hrepeated : Repeated input L starts min count frontier found) (rounds : Nat) :
    RepeatedTo input L starts (count + rounds)
      (repeatReach step min rounds count frontier found furthest).furthest := by
  induction rounds generalizing count frontier found furthest with
  | zero => exact h
  | succ rounds ih =>
    rw [Pattern.repeatReach]
    by_cases hempty : frontier.isEmpty = true
    · obtain rfl := List.isEmpty_iff.mp hempty
      rw [if_pos hempty]
      exact h.mono hrepeated (Nat.le_add_right _ _)
    · rw [if_neg hempty]
      have hrounds := ih (h.next hstep hrepeated) (hrepeated.next hends)
      rw [show count + (rounds + 1) = count + 1 + rounds by omega]
      exact hrounds

end Repetition

section Furthest

theorem exists_mem_languageSeq {items : List Pattern}
    (hparts : ∀ q ∈ partsAll items, ∃ w, w ∈ q.language) : ∃ w, w ∈ languageSeq items := by
  induction items with
  | nil => exact ⟨[], Language.nil_mem_one⟩
  | cons p rest ih =>
    rw [partsAll, List.forall_mem_append] at hparts
    obtain ⟨u, hu⟩ := hparts.1 p (mem_parts p)
    obtain ⟨w, hw⟩ := ih hparts.2
    exact ⟨u ++ w, Language.mem_mul.mpr ⟨u, hu, w, hw, rfl⟩⟩

/-- A repetition gets as far as its copies do: one more of them follows fewer than
its bound, and what has been read can be completed. -/
theorem furthest_reach_repetition {body : Pattern} {min : Nat} {max : Option Nat}
    (hcap : input.size + min < Word.bound)
    (hends : ∀ starts, (∀ s ∈ starts, s ≤ input.size) → ∀ e, e ∈ (body.reach input starts).ends ↔
      ∃ s ∈ starts, Spans input body.language s e)
    (hbody : ∀ starts, (∀ s ∈ starts, s ≤ input.size) →
      Furthest input body.language starts (body.reach input starts).furthest)
    (hsome : ∃ w, w ∈ language (.repetition body min max))
    (hstarts : ∀ s ∈ starts, s ≤ input.size) :
    Furthest input (language (.repetition body min max)) starts
      (reach input (.repetition body min max) starts).furthest := by
  have hfurthest : (reach input (.repetition body min max) starts).furthest =
      (repeatReach (body.reach input) min (roundLimit input.size min max) 0
        starts [] 0).furthest := by
    rw [reach]
    split <;> rfl
  have hbegin : Repeated input body.language starts min 0 starts [] := .start hstarts
  have hrounds := RepeatedTo.start.repeatReach hbody hends hbegin
    (roundLimit input.size min max)
  rw [Nat.zero_add] at hrounds
  rw [hfurthest]
  refine ⟨hrounds.sound.imp_right ?_, fun s hs g hg => ?_⟩
  · rintro ⟨k, hk, y, ⟨s, hs, hcopies⟩, hviable⟩
    obtain ⟨_, least, hleast, hmost, _⟩ := hsome
    have hlimit := le_of_le_roundLimit hk
    have hwhole : Viable input (body.language ^ (Nat.max min (k + 1))) s _ :=
      .of_copies (Nat.le_max_right _ _) hcopies hviable
    refine ⟨s, hs, hwhole.mono fun w hw => ⟨_, Nat.le_max_left _ _, fun m hm => ?_, hw⟩⟩
    exact Nat.max_le.mpr ⟨hleast.trans (hmost m hm), hlimit m hm⟩
  · obtain ⟨hle, hbound, w, ⟨k, _, hmost, hw⟩, hread⟩ := hg
    rcases Viable.exists_of_pow (hstarts s hs) ⟨hle, hbound, w, hw, hread⟩ with
      rfl | ⟨j, hj, y, hcopies, hviable⟩
    · exact Nat.le_max_left _ _
    · obtain ⟨i, hij, hi, hcopies⟩ := exists_fewer_copies hcopies
      refine hrounds.covers_start hstarts hs ?_ hcopies hviable
      exact le_roundLimit hcap (by omega) fun m hm => by have := hmost m hm; omega

mutual

/-- If every part of a pattern matches something, the furthest position that the
search notes is that of the texts of the pattern. -/
theorem furthest_reach (p : Pattern) (hparts : ∀ q ∈ p.parts, ∃ w, w ∈ q.language)
    (hcaps : ∀ q ∈ p.parts, q.CapFits input.size) (starts : List Nat)
    (hstarts : ∀ s ∈ starts, s ≤ input.size) :
    Furthest input p.language starts (p.reach input starts).furthest := by
  cases p with
  | literal text =>
    rw [reach, language]
    exact furthest_literalReach hstarts
  | oneOf chars =>
    rw [reach, language]
    exact furthest_charReach
  | repetition body min max =>
    rw [parts, List.forall_mem_cons] at hparts hcaps
    exact furthest_reach_repetition hcaps.1 (mem_reach body hcaps.2)
      (furthest_reach body hparts.2 hcaps.2) hparts.1 hstarts
  | seq items =>
    rw [parts, List.forall_mem_cons] at hparts hcaps
    rw [reach, language]
    exact furthest_reachSeq items hparts.2 hcaps.2 starts hstarts
  | alt items =>
    rw [parts, List.forall_mem_cons] at hparts hcaps
    rw [reach, language]
    exact furthest_reachAlt items hparts.2 hcaps.2 starts hstarts
  | fragment name =>
    obtain ⟨w, hw⟩ := hparts _ (mem_parts _)
    exact absurd hw (Language.notMem_zero w)
  | any =>
    rw [reach, language]
    exact furthest_charReach

theorem furthest_reachSeq (items : List Pattern)
    (hparts : ∀ q ∈ partsAll items, ∃ w, w ∈ q.language)
    (hcaps : ∀ q ∈ partsAll items, q.CapFits input.size) (starts : List Nat)
    (hstarts : ∀ s ∈ starts, s ≤ input.size) :
    Furthest input (languageSeq items) starts (reachSeq input items starts).furthest := by
  cases items with
  | nil =>
    rw [reachSeq, languageSeq]
    refine ⟨.inl rfl, fun s hs g hg => ?_⟩
    rw [Viable.one_iff (hstarts s hs)] at hg
    exact hg ▸ Nat.le_max_left _ _
  | cons p rest =>
    rw [partsAll, List.forall_mem_append] at hparts hcaps
    have hends := mem_reach p hcaps.1 starts hstarts
    have hbound : ∀ m ∈ (p.reach input starts).ends, m ≤ input.size := by
      intro m hm
      obtain ⟨s, _, hspans⟩ := (hends m).mp hm
      exact hspans.bound
    have hhere := furthest_reach p hparts.1 hcaps.1 starts hstarts
    have hthere := furthest_reachSeq rest hparts.2 hcaps.2 _ hbound
    have hboth := hhere.mul hends (exists_mem_languageSeq hparts.2) hthere
    rw [reachSeq, languageSeq]
    dsimp only
    split
    · rename_i hempty
      rw [List.isEmpty_iff.mp hempty] at hends
      exact Nat.max_zero (p.reach input starts).furthest ▸
        hhere.mul hends (exists_mem_languageSeq hparts.2) .nil
    · exact hboth

theorem furthest_reachAlt (items : List Pattern)
    (hparts : ∀ q ∈ partsAll items, ∃ w, w ∈ q.language)
    (hcaps : ∀ q ∈ partsAll items, q.CapFits input.size) (starts : List Nat)
    (hstarts : ∀ s ∈ starts, s ≤ input.size) :
    Furthest input (languageAlt items) starts (reachAlt input items starts).furthest := by
  cases items with
  | nil =>
    rw [reachAlt, languageAlt]
    refine ⟨.inl rfl, fun s hs g hg => ?_⟩
    obtain ⟨w, hw⟩ := hg.exists_mem
    exact absurd hw (Language.notMem_zero w)
  | cons p rest =>
    rw [partsAll, List.forall_mem_append] at hparts hcaps
    rw [reachAlt, languageAlt]
    exact (furthest_reach p hparts.1 hcaps.1 starts hstarts).add
      (furthest_reachAlt rest hparts.2 hcaps.2 starts hstarts)

end

end Furthest

end Pattern

namespace Lexer

variable {l : Lexer}

/-- The furthest position of some rules is that of one of them, unless it is the one
at which they were tried. -/
theorem furthest_foldl (pos : Nat) (reaches : List (LexRule × Reach)) :
    let furthest := reaches.foldl (fun m r => max m r.2.furthest) pos
    (furthest = pos ∨ ∃ r ∈ reaches, furthest = r.2.furthest) ∧ pos ≤ furthest ∧
      ∀ r ∈ reaches, r.2.furthest ≤ furthest := by
  induction reaches using List.reverseRecOn with
  | nil => exact ⟨.inl rfl, Nat.le_refl pos, nofun⟩
  | append_singleton reaches r ih =>
    obtain ⟨hfrom, hle, hall⟩ := ih
    rw [List.foldl_append, List.foldl_cons, List.foldl_nil]
    refine ⟨?_, hle.trans (Nat.le_max_left _ _), List.forall_mem_append.mpr ⟨fun x hx => ?_, ?_⟩⟩
    · rcases max_choice (reaches.foldl (fun m r => max m r.2.furthest) pos) r.2.furthest with
        heq | heq <;> rw [heq]
      · refine hfrom.imp_right ?_
        rintro ⟨x, hx, hfrom⟩
        exact ⟨x, List.mem_append_left _ hx, hfrom⟩
      · exact .inr ⟨r, List.mem_append_right _ List.mem_cons_self, rfl⟩
    · exact (hall x hx).trans (Nat.le_max_left _ _)
    · exact List.forall_mem_singleton.mpr (Nat.le_max_right _ _)

/-- Where no rule matches, the piece goes up to the character behind the longest
part of a text of some rule. -/
theorem length_piece (hplaced : Placed l) (hrules : l.rules ≠ [])
    (hparts : ∀ r ∈ l.rules, ∀ q ∈ r.pattern.parts, ∃ w, w ∈ q.language)
    (hcaps : CapsFit l.rules l.input.size) (hnone : l.piece.rule = none) : ∃ f,
      IsGreatest {f | ∃ r ∈ l.rules, Viable l.input r.pattern.language l.place.offset f} f ∧
        l.piece.text.length = min (f - l.place.offset + 1) (l.input.size - l.place.offset) := by
  have hpos := hplaced.le_size
  have hreach (r : LexRule) (hr : r ∈ l.rules) :
      Furthest l.input r.pattern.language [l.place.offset]
        (r.pattern.reach l.input [l.place.offset]).furthest :=
    Pattern.furthest_reach r.pattern (hparts r hr) (hcaps r hr) _
      (List.forall_mem_singleton.mpr hpos)
  have hrefl (r : LexRule) (hr : r ∈ l.rules) :
      Viable l.input r.pattern.language l.place.offset l.place.offset :=
    .refl hpos (hparts r hr _ (Pattern.mem_parts _))
  obtain ⟨hfrom, hle, hall⟩ := furthest_foldl l.place.offset l.reaches
  have htext : l.piece.text = l.ahead
      (l.reaches.foldl (fun m r => max m r.2.furthest) l.place.offset - l.place.offset + 1) := by
    unfold piece at hnone ⊢
    split at hnone
    · cases hnone
    · rfl
  generalize l.reaches.foldl (fun m r => max m r.2.furthest) l.place.offset = furthest
    at hfrom hle hall htext
  refine ⟨furthest, ⟨?_, ?_⟩, ?_⟩
  · rcases hfrom with rfl | ⟨_, hmem, rfl⟩
    · obtain ⟨r, hr⟩ := List.exists_mem_of_ne_nil _ hrules
      exact ⟨r, hr, hrefl r hr⟩
    · obtain ⟨r, hr, rfl⟩ := List.mem_map.mp hmem
      refine ⟨r, hr, ?_⟩
      rcases (hreach r hr).sound with hzero | ⟨s, hs, hviable⟩
      · dsimp only at hle ⊢
        rw [Nat.le_antisymm (hzero ▸ Nat.zero_le _) hle]
        exact hrefl r hr
      · exact List.mem_singleton.mp hs ▸ hviable
  · rintro f ⟨r, hr, hviable⟩
    have hf := (hreach r hr).covers _ List.mem_cons_self f hviable
    have hr := hall _ (List.mem_map_of_mem hr)
    dsimp only at hr
    omega
  · rw [htext, length_ahead]
    omega

/-- Every piece is what some lexer on the input reads next. -/
theorem Cuts.exists_piece {l' : Lexer} {xs : List Piece} (h : Cuts l xs l') (hplaced : Placed l) :
    ∀ x ∈ xs, ∃ m : Lexer, Placed m ∧ m.rules = l.rules ∧ m.input = l.input ∧
      m.place.offset < m.input.size ∧ x = m.piece := by
  induction h with
  | done => exact nofun
  | cons hleft _ ih =>
    refine List.forall_mem_cons.mpr ⟨⟨_, hplaced, rfl, rfl, hleft, rfl⟩, ?_⟩
    exact ih (placed_behind hplaced hleft)

/-- A lexer tells an error only where no rule matches anything, and its text goes up
to and includes the character behind the longest part of a text of some rule, if
there is one more.  Here every part of every rule matches something, so no rule
refers to a fragment. -/
theorem tokenize_error_length {rules : List LexRule} (hrules : rules ≠ [])
    (hparts : ∀ r ∈ rules, ∀ q ∈ r.pattern.parts, ∃ w, w ∈ q.language) (text : String)
    (hcaps : CapsFit rules text.length) :
    ∀ e ∈ (ofText rules text).tokenize.2,
      Unmatched rules text.toList.toArray e.offset ∧
        ∃ f, IsGreatest {f | ∃ r ∈ rules,
            Viable text.toList.toArray r.pattern.language e.offset f} f ∧
          e.text.length = min (f - e.offset + 1) (text.length - e.offset) := by
  intro e he
  have hplaced := placed_ofText rules text
  obtain ⟨pieces, hcuts⟩ := (ofText rules text).exists_cuts_pulled (Nat.zero_le
    ((ofText rules text).tokensIn ((ofText rules text).remaining + 1)).1.length)
  rw [← tokensIn_eq_pulled] at hcuts
  have herrors : (ofText rules text).tokenize.2 = pieces.filterMap Piece.error? :=
    hcuts.errors_eq
  rw [herrors] at he
  obtain ⟨x, hx, herror⟩ := List.mem_filterMap.mp he
  obtain ⟨m, hm, hmrules, hminput, hleft, rfl⟩ := hcuts.exists_piece hplaced x hx
  obtain ⟨hnone, rfl⟩ := Piece.of_error herror
  have hsize : m.input.size = text.length := by
    rw [hminput]
    exact String.length_toList
  have hcaps : CapsFit m.rules m.input.size := by
    rw [hmrules, hsize]
    exact hcaps
  have hunmatched := (munches_piece hm hcaps).unmatched hnone
  obtain ⟨f, hf, hlength⟩ := length_piece hm (hmrules ▸ hrules) (hmrules ▸ hparts) hcaps hnone
  rw [hmrules, hminput] at hunmatched hf
  rw [hsize] at hlength
  rw [← m.piece_place] at hf hlength
  exact ⟨hunmatched, f, hf, by rw [String.length_ofList]; exact hlength⟩

/-- A word of two letters, or one or two digits with a point behind each of them. -/
def pointed : List LexRule :=
  [⟨"AB", 1, .literal "ab", .emit⟩,
    ⟨"NUM", 2, .repetition (.seq [.between '0' '9', .literal "."]) 1 (some 2), .emit⟩]

theorem tokenize_error_length_pointed :
    (ofText pointed "ac1.1.12").tokenize.2.map (fun e => (e.offset, e.text.length)) =
      [(0, 2), (6, 2)] ∧
    ∀ e ∈ (ofText pointed "ac1.1.12").tokenize.2,
      Unmatched pointed "ac1.1.12".toList.toArray e.offset ∧
        ∃ f, IsGreatest {f | ∃ r ∈ pointed,
            Viable "ac1.1.12".toList.toArray r.pattern.language e.offset f} f ∧
          e.text.length = min (f - e.offset + 1) ("ac1.1.12".length - e.offset) := by
  have hdigit : ['0'] ∈ (Pattern.between '0' '9').language := ⟨'0', by decide, rfl⟩
  have hpair : ['0', '.'] ∈ (Pattern.seq [.between '0' '9', .literal "."]).language :=
    Language.mem_mul.mpr ⟨_, hdigit, ['.'],
      Language.mem_mul.mpr ⟨['.'], rfl, [], Language.nil_mem_one, rfl⟩, rfl⟩
  have hone : ['0', '.'] ∈
      (Pattern.repetition (.seq [.between '0' '9', .literal "."]) 1 (some 2)).language :=
    ⟨1, Nat.le_refl 1, by simp, by rwa [pow_one]⟩
  refine ⟨by decide +kernel,
    tokenize_error_length (by decide) ?_ "ac1.1.12" (by decide +kernel)⟩
  refine List.forall_mem_cons.mpr ⟨?_, List.forall_mem_singleton.mpr ?_⟩
  · exact List.forall_mem_singleton.mpr ⟨['a', 'b'], rfl⟩
  · have hparts : (Pattern.repetition (.seq [.between '0' '9', .literal "."]) 1 (some 2)).parts =
        [.repetition (.seq [.between '0' '9', .literal "."]) 1 (some 2),
          .seq [.between '0' '9', .literal "."], .between '0' '9', .literal "."] := rfl
    rw [hparts]
    simp only [List.forall_mem_cons]
    exact ⟨⟨_, hone⟩, ⟨_, hpair⟩, ⟨_, hdigit⟩, ⟨_, rfl⟩, nofun⟩

/-- Where the cap wraps around, an error is told though a rule has a match that is
not empty. -/
theorem tokenize_error_countless :
    (∀ q ∈ countless.pattern.parts, ∃ w, w ∈ q.language) ∧
      ∃ e ∈ (ofText [countless] "aaa").tokenize.2,
        ¬Unmatched [countless] "aaa".toList.toArray e.offset := by
  have hchoice : [] ∈ (Pattern.alt [.literal "", .literal "a"]).language := .inl rfl
  refine ⟨?_, ⟨"aaa", 0, 1, 0⟩, by decide +kernel, fun h => ?_⟩
  · have hparts : countless.pattern.parts =
        [Pattern.countless, .alt [.literal "", .literal "a"], .literal "", .literal "a"] := rfl
    rw [hparts]
    simp only [List.forall_mem_cons]
    exact ⟨⟨_, Pattern.spans_countless.mem⟩, ⟨_, hchoice⟩, ⟨_, rfl⟩, ⟨_, rfl⟩, nofun⟩
  · exact absurd (h countless List.mem_cons_self 3 Pattern.spans_countless) (by decide)

end Lexer

end AdaptiveLL
