/-
Repairs that are alike.

Two parses of one input are compared step by step.  Their streams show the same
tokens from the same place on, but may have fetched them at other times and from
other sources, and what was told so far may differ in some respect.  The strategy
sees nothing of these differences: it moves both streams in the same way, and what
it wants to be carried out differs in nothing but the unmatched text that is
reported on the way.
-/
import AdaptiveLL.Proofs.Prediction.Streams
import AdaptiveLL.Proofs.Stream.Cursor

namespace AdaptiveLL

section Agree

variable {σ α β : Type} {R : σ → σ → Prop} {s s' : σ}

/-- From two states the works come to one result and to states that are related. -/
def Agree (R : σ → σ → Prop) (w w' : StateM σ α) (s s' : σ) : Prop :=
  (w.run s).1 = (w'.run s').1 ∧ R (w.run s).2 (w'.run s').2

theorem agree_pure (h : R s s') (a : α) : Agree R (pure a) (pure a) s s' :=
  ⟨rfl, h⟩

theorem agree_bind {w w' : StateM σ α} {f f' : α → StateM σ β} (h : Agree R w w' s s')
    (hf : R (w.run s).2 (w'.run s').2 →
      Agree R (f (w.run s).1) (f' (w.run s).1) (w.run s).2 (w'.run s').2) :
    Agree R (w >>= f) (w' >>= f') s s' := by
  obtain ⟨hresult, hstates⟩ := h
  have hrest := hf hstates
  have hrun : (w' >>= f').run s' = (f' (w.run s).1).run (w'.run s').2 :=
    congrArg (fun a => (f' a).run (w'.run s').2) hresult.symm
  rw [Agree, hrun]
  exact hrest

theorem agree_get {f f' : σ → StateM σ β} (h : Agree R (f s) (f' s') s s') :
    Agree R (get >>= f) (get >>= f') s s' :=
  h

/-- A work that comes to one result and to related states from all related states. -/
def Uniform (R : σ → σ → Prop) (w : StateM σ α) : Prop :=
  ∀ s s', R s s' → Agree R w w s s'

theorem uniform_pure (a : α) : Uniform R (pure a) := fun _ _ h => agree_pure h a

theorem uniform_bind {w : StateM σ α} {f : α → StateM σ β} (hw : Uniform R w)
    (hf : ∀ a, Uniform R (f a)) : Uniform R (w >>= f) :=
  fun s s' h => agree_bind (hw s s' h) fun h' => hf _ _ _ h'

theorem uniform_modify {g : σ → σ} (hg : ∀ s s', R s s' → R (g s) (g s')) :
    Uniform R (modify g : StateM σ Unit) :=
  fun s s' h => ⟨rfl, hg s s' h⟩

end Agree

/-- How the second of two streams comes to its tokens. -/
inductive Supply where
  /-- It is the first stream at all times. -/
  | same
  /-- It reads them from a list. -/
  | listed

namespace Supply

variable {supply : Supply} {s s' : TokenStream}

/-- What relates the streams, besides that they show the same tokens from the same
place on. -/
def Streams : Supply → TokenStream → TokenStream → Prop
  | .same, s, s' => s = s'
  | .listed, _, s' => s'.Listed

/-- What relates the unmatched texts that are taken from the streams. -/
def Errors : Supply → List LexError → List LexError → Prop
  | .same, errors, errors' => errors = errors'
  | .listed, _, errors' => errors' = []

theorem Streams.map (h : supply.Streams s s') {f : TokenStream → TokenStream}
    (hf : ∀ s, s.Listed → (f s).Listed) : supply.Streams (f s) (f s') := by
  cases supply with
  | same => exact congrArg f h
  | listed => exact hf s' h

theorem Streams.takeErrors (h : supply.Streams s s') :
    supply.Errors s.takeErrors.1 s'.takeErrors.1 := by
  cases supply with
  | same => exact congrArg (fun s => s.takeErrors.1) h
  | listed => exact (TokenStream.Listed.takeErrors h).1

end Supply

/-- What two parses have in common: the tokens that their streams show, and the kind
of records that are alike. -/
structure Likeness where
  tokens : List Token
  numbered : Numbered tokens
  supply : Supply
  /-- Whether the nodes that are being built are the same, not only as far as
  mismatches go. -/
  oneTree : Prop
  notes : Array Note → Array Note → Prop
  push : ∀ {ns ns' : Array Note} (n : Note), notes ns ns' → notes (ns.push n) (ns'.push n)
  lexical : ∀ {ns ns' : Array Note} {errors errors' : List LexError},
    supply.Errors errors errors' → notes ns ns' →
      notes (errors.foldl (fun ns e => ns.push (.diagnostic (.ofLexError e))) ns)
        (errors'.foldl (fun ns e => ns.push (.diagnostic (.ofLexError e))) ns')

namespace Likeness

variable (L : Likeness) {α : Type}

/-- Two streams show the tokens from one place on. -/
structure Streams (s s' : TokenStream) : Prop where
  place : ∃ i, s.At L.tokens i ∧ s'.At L.tokens i
  supply : L.supply.Streams s s'

/-- A use of a stream that has one answer for streams that are alike and leaves such
streams. -/
def Reads (f : TokenStream → α × TokenStream) : Prop :=
  ∀ s s', L.Streams s s' → (f s).1 = (f s').1 ∧ L.Streams (f s).2 (f s').2

/-- Steps of repairs that differ in the unmatched text at most. -/
inductive Steps : RepairStep → RepairStep → Prop where
  | event (e : Event) : Steps (.event e) (.event e)
  | consume (t : Token) (skipped : Bool) : Steps (.consume t skipped) (.consume t skipped)
  | report {lexical lexical' : List LexError} (h : L.supply.Errors lexical lexical')
      (d : Diagnostic) : Steps (.report lexical d) (.report lexical' d)

/-- Repairs whose streams and steps are alike. -/
structure Repairs (r r' : Repair) : Prop where
  strategy : r.strategy = r'.strategy
  stream : L.Streams r.stream r'.stream
  steps : List.Forall₂ L.Steps r.steps r'.steps

variable {L}

section Streams

variable {s s' : TokenStream}

/-- What a use of a stream comes to is decided by the tokens and the place. -/
theorem reads_of_at {f : TokenStream → α × TokenStream}
    (hf : ∀ s s' i, s.At L.tokens i → s'.At L.tokens i → (f s).1 = (f s').1 ∧
      ∃ j, (f s).2.At L.tokens j ∧ (f s').2.At L.tokens j)
    (hlisted : ∀ s, s.Listed → (f s).2.Listed) : L.Reads f := by
  intro s s' h
  obtain ⟨i, hat, hat'⟩ := h.place
  obtain ⟨hanswer, hplace⟩ := hf s s' i hat hat'
  exact ⟨hanswer, hplace, h.supply.map hlisted⟩

theorem reads_peek (k : Nat) : L.Reads fun s => s.peek k := by
  refine reads_of_at (fun _ _ i hat hat' => ?_) fun _ h => h.peek k
  have hanswer := (hat.peek k).1.symm.trans (hat'.peek k).1
  exact ⟨Option.some.inj hanswer, i, (hat.peek k).2, (hat'.peek k).2⟩

theorem reads_index : L.Reads TokenStream.index := by
  refine reads_of_at (fun _ _ i hat hat' => ?_) fun _ h => h.index
  exact ⟨hat.index.1.trans hat'.index.1.symm, i, hat.index.2, hat'.index.2⟩

theorem reads_previous (k : Nat) : L.Reads fun s => s.previous k := by
  refine reads_of_at (fun _ _ i hat hat' => ?_) fun _ h => h.previous k
  exact ⟨(hat.previous_eq k).trans (hat'.previous_eq k).symm, i, hat.previous k, hat'.previous k⟩

theorem reads_consume : L.Reads fun s => ((), s.consume) :=
  reads_of_at (fun _ _ _ hat hat' => ⟨rfl, _, hat.consume, hat'.consume⟩) fun _ h => h.consume

theorem reads_text {first last : Nat} (hle : first ≤ last) :
    L.Reads fun s => s.text first last := by
  refine reads_of_at (fun _ _ i hat hat' => ?_) fun _ h => h.text first last
  exact ⟨(hat.text_eq hle).trans (hat'.text_eq hle).symm, i, hat.text first last,
    hat'.text first last⟩

theorem reads_decide (d : Decision) (n : Network) (hooks : Hooks) (calls : Array HookCall) :
    L.Reads fun s => (d.decide n hooks s calls).1 := by
  refine reads_of_at (fun _ _ i hat hat' => ?_) fun _ h => d.decide_listed n hooks calls h
  exact ⟨(d.decide_eq_of_at n hooks calls hat hat').1, i, d.decide_at n hooks calls hat,
    d.decide_at n hooks calls hat'⟩

theorem Streams.takeErrors (h : L.Streams s s') :
    L.supply.Errors s.takeErrors.1 s'.takeErrors.1 ∧
      L.Streams s.takeErrors.2 s'.takeErrors.2 := by
  obtain ⟨i, hat, hat'⟩ := h.place
  exact ⟨h.supply.takeErrors, ⟨i, hat.takeErrors, hat'.takeErrors⟩,
    h.supply.map fun _ h => h.takeErrors.2⟩

end Streams

end Likeness

namespace Repairing

variable {L : Likeness} {α : Type} {site : Site}

open Likeness

theorem uniform_onStream {f : TokenStream → α × TokenStream} (hf : L.Reads f) :
    Uniform L.Repairs (onStream f) := by
  intro r r' h
  obtain ⟨hanswer, hstream⟩ := hf r.stream r'.stream h.stream
  exact ⟨hanswer, h.strategy, hstream, h.steps⟩

theorem uniform_peek (k : Nat) : Uniform L.Repairs (peek k) :=
  uniform_onStream (reads_peek k)

theorem uniform_isRecovering : Uniform L.Repairs isRecovering := fun _ _ h =>
  ⟨congrArg Strategy.recovering h.strategy, h⟩

theorem uniform_push {step : RepairStep} (hstep : L.Steps step step) :
    Uniform L.Repairs (push step) :=
  uniform_modify fun _ _ h => ⟨h.strategy, h.stream, List.rel_append h.steps (.cons hstep .nil)⟩

theorem uniform_remember (g : Strategy → Strategy) :
    Uniform L.Repairs (modify fun r => { r with strategy := g r.strategy } : Repairing Unit) :=
  uniform_modify fun _ _ h => ⟨congrArg g h.strategy, h.stream, h.steps⟩

theorem uniform_consume (skipped : Bool) : Uniform L.Repairs (consume skipped) :=
  uniform_bind (uniform_peek 1) fun _ => uniform_bind (uniform_push (.consume _ skipped)) fun _ =>
    uniform_onStream reads_consume

/-- Reports are alike, but for the unmatched text in front of them. -/
theorem uniform_report (kind : DiagnosticKind) (t : Token) (message : String) :
    Uniform L.Repairs (report kind t message) := by
  intro r r' h
  obtain ⟨hlexical, hstream⟩ := h.stream.takeErrors
  exact ⟨rfl, h.strategy, hstream, List.rel_append h.steps (.cons (.report hlexical _) .nil)⟩

theorem uniform_begin : Uniform L.Repairs begin :=
  uniform_bind (uniform_remember fun s => { s with recovering := true }) fun _ =>
    uniform_bind (uniform_peek 1) fun _ => uniform_push (.event _)

theorem uniform_matched : Uniform L.Repairs matched := by
  have hclear := uniform_remember (L := L) fun _ => {}
  refine uniform_bind uniform_isRecovering fun recovering => ?_
  dsimp only
  split
  · exact uniform_bind (uniform_push (.event _)) fun _ => hclear
  · exact hclear

theorem uniform_unexpected : Uniform L.Repairs (unexpected site) :=
  uniform_bind (uniform_peek 1) fun _ => uniform_pure _

theorem uniform_reportUnwanted : Uniform L.Repairs (reportUnwanted site) := by
  refine uniform_bind uniform_isRecovering fun recovering => ?_
  cases recovering with
  | true => exact uniform_pure _
  | false =>
    exact uniform_bind uniform_begin fun _ => uniform_bind (uniform_peek 1) fun _ =>
      uniform_report _ _ _

theorem uniform_reportMissing : Uniform L.Repairs (reportMissing site) := by
  refine uniform_bind uniform_isRecovering fun recovering => ?_
  cases recovering with
  | true => exact uniform_pure _
  | false =>
    exact uniform_bind uniform_begin fun _ => uniform_bind (uniform_peek 1) fun _ =>
      uniform_report _ _ _

theorem uniform_viableText {start offending : Token}
    (hle : start.index.toNat ≤ offending.index.toNat) :
    Uniform L.Repairs (viableText start offending) := by
  unfold viableText
  split
  · exact uniform_pure _
  · exact uniform_onStream (reads_text hle)

theorem uniform_reportMismatch {m : Mismatch} (hm : m.InOrder) :
    Uniform L.Repairs (reportMismatch site m) := by
  refine uniform_bind uniform_isRecovering fun recovering => ?_
  cases recovering with
  | true => exact uniform_pure _
  | false =>
    refine uniform_bind uniform_begin fun _ => ?_
    cases m with
    | noViable => exact uniform_bind (uniform_viableText hm) fun _ => uniform_report _ _ _
    | unexpected | failedPredicate => exact uniform_report _ _ _

theorem uniform_dropOne : Uniform L.Repairs (dropOne site) := by
  refine uniform_bind (uniform_peek 2) fun next => ?_
  split
  · exact uniform_bind uniform_reportUnwanted fun _ => uniform_bind (uniform_consume true) fun _ =>
      uniform_bind (uniform_peek 1) fun _ => uniform_bind uniform_matched fun _ => uniform_pure _
  · exact uniform_pure none

theorem uniform_canInsert : Uniform L.Repairs (canInsert site) := by
  refine uniform_bind (uniform_peek 1) fun current => ?_
  split
  · exact uniform_pure false
  · split
    · exact uniform_bind uniform_reportMissing fun _ => uniform_pure true
    · exact uniform_pure false

theorem uniform_repairInline : Uniform L.Repairs (repairInline site) := by
  refine uniform_bind uniform_dropOne fun next => ?_
  cases next with
  | some => exact uniform_bind (uniform_consume false) fun _ => uniform_pure _
  | none =>
    refine uniform_bind uniform_canInsert fun inserts => ?_
    cases inserts with
    | true =>
      exact uniform_bind (uniform_peek 1) fun _ =>
        uniform_bind (uniform_onStream (reads_previous 1)) fun _ =>
          uniform_bind (uniform_push (.event _)) fun _ => uniform_pure _
    | false => exact uniform_bind uniform_unexpected fun _ => uniform_pure _

theorem uniform_dropBefore : Uniform L.Repairs (dropBefore site) := by
  refine uniform_bind uniform_dropOne fun next => ?_
  cases next with
  | some => exact uniform_pure _
  | none => exact uniform_bind uniform_unexpected fun _ => uniform_pure _

/-- Counts that reach the end of the input make no difference to what is skipped. -/
theorem agree_skipIn {set : TypeSet} {count count' i : Nat} {r r' : Repair} (h : L.Repairs r r')
    (hat : r.stream.At L.tokens i) (hat' : r'.stream.At L.tokens i)
    (hcount : L.tokens.length ≤ i + count) (hcount' : L.tokens.length ≤ i + count') :
    Agree L.Repairs (skipIn set count) (skipIn set count') r r' := by
  induction count generalizing count' r r' i with
  | zero =>
    obtain ⟨t, ht, _⟩ := hat.token
    have hi := (List.getElem?_eq_some_iff.mp ht).1
    omega
  | succ count ih =>
    obtain ⟨t, ht, hcases⟩ := hat.token
    have hi := (List.getElem?_eq_some_iff.mp ht).1
    obtain ⟨count', rfl⟩ : ∃ k, count' = k + 1 := Nat.exists_eq_succ_of_ne_zero (by omega)
    refine agree_bind (uniform_peek 1 r r' h) fun h₁ => ?_
    have hpeek : L.tokens[i]? = some ((peek 1).run r).1 := hat.peek_one.1
    have hat₁ : ((peek 1).run r).2.stream.At L.tokens i := hat.peek_one.2
    have hat₁' : ((peek 1).run r').2.stream.At L.tokens i := hat'.peek_one.2
    generalize (peek 1).run r = x at h₁ hpeek hat₁ ⊢
    generalize (peek 1).run r' = x' at h₁ hat₁' ⊢
    obtain rfl := Option.some.inj (ht.symm.trans hpeek)
    split
    · exact agree_pure h₁ 0
    · rename_i hgo
      have hrun : x.1.isEof = false := by
        simp only [Bool.or_eq_true, not_or, Bool.not_eq_true] at hgo
        exact hgo.1
      obtain ⟨_, _, hlt⟩ := hcases.resolve_left fun hend => by simp [hend.1] at hrun
      refine agree_bind (uniform_isRecovering _ _ h₁) fun h₂ => ?_
      refine agree_bind (uniform_consume _ _ _ h₂) fun h₃ => ?_
      generalize (isRecovering.run x.2).1 = skipped at h₃ ⊢
      have hat₃ : ((consume skipped).run x.2).2.stream.At L.tokens (nextPlace L.tokens i) :=
        hat₁.peek_one.2.consume
      have hat₃' : ((consume skipped).run x'.2).2.stream.At L.tokens (nextPlace L.tokens i) :=
        hat₁'.peek_one.2.consume
      refine agree_bind (ih h₃ hat₃ hat₃' (by omega) (by omega)) fun h₄ => ?_
      exact agree_pure h₄ _

theorem uniform_skipTo (set : TypeSet) : Uniform L.Repairs (skipTo set) := by
  intro r r' h
  obtain ⟨i, hat, hat'⟩ := h.stream.place
  have hcount {s : TokenStream} (hat : s.At L.tokens i) :
      L.tokens.length ≤ i + (s.horizon + 1) := by
    have := hat.shows.length_le
    omega
  refine agree_get (agree_bind (agree_skipIn h hat hat' (hcount hat) (hcount hat')) fun h₁ => ?_)
  split
  · exact uniform_push (.event _) _ _ h₁
  · exact agree_pure h₁ _

theorem uniform_align : Uniform L.Repairs (align site) := by
  have hskip : Uniform L.Repairs (do
      reportUnwanted site
      skipTo (site.expected.union (site.network.recoverySet site.stack))
      return (.ok () : Except Mismatch Unit)) :=
    uniform_bind uniform_reportUnwanted fun _ => uniform_bind (uniform_skipTo _) fun _ =>
      uniform_pure _
  refine uniform_bind uniform_isRecovering fun recovering => ?_
  split
  · exact uniform_pure _
  · refine uniform_bind (uniform_peek 1) fun current => ?_
    split
    · exact uniform_pure _
    · split
      · exact uniform_dropBefore
      · exact uniform_dropBefore
      · exact uniform_dropBefore
      · exact uniform_dropBefore
      · exact hskip
      · exact hskip
      · exact uniform_pure _

theorem uniform_resynchronize : Uniform L.Repairs (resynchronize site) := by
  have hrest (last : Strategy) : Uniform L.Repairs (do
      let index ← onStream TokenStream.index
      modify fun r => { r with strategy := { r.strategy with
        lastIndex := some index
        lastStates := if last.lastStates.contains site.state then last.lastStates
          else last.lastStates ++ [site.state] } }
      skipTo (site.network.recoverySet site.stack)) :=
    uniform_bind (uniform_onStream reads_index) fun index =>
      uniform_bind (uniform_remember fun s => { s with
        lastIndex := some index
        lastStates := if last.lastStates.contains site.state then last.lastStates
          else last.lastStates ++ [site.state] }) fun _ => uniform_skipTo _
  intro r r' h
  refine agree_get ?_
  dsimp only
  rw [h.strategy]
  refine agree_bind (uniform_onStream reads_index r r' h) fun h₁ => ?_
  split
  · exact agree_bind (uniform_consume true _ _ h₁) fun h₂ => hrest r'.strategy _ _ h₂
  · exact hrest r'.strategy _ _ h₁

end Repairing

end AdaptiveLL
