/-
The order of the log.

The lexer meets unmatched text when a token behind it is pulled, however far ahead
of the parser that is, and the log tells of it no later than of the next mismatch.
So a mismatch stands in the log behind the unmatched text that was met before it was
reported, and before the unmatched text that was met afterwards.
-/
import AdaptiveLL.Proofs.Parser.After
import AdaptiveLL.Proofs.Parser.Ahead
import AdaptiveLL.Proofs.Parser.Lasting
import AdaptiveLL.Proofs.Stream.Pulling

namespace AdaptiveLL

namespace Diagnostic

def lexical (log : List Diagnostic) : List Diagnostic :=
  log.filter fun d => d.kind == .tokenRecognition

theorem lexical_append (log more : List Diagnostic) :
    lexical (log ++ more) = lexical log ++ lexical more :=
  List.filter_append ..

theorem lexical_map_ofLexError (errors : List LexError) :
    lexical (errors.map ofLexError) = errors.map ofLexError := by
  refine List.filter_eq_self.mpr fun d hd => ?_
  obtain ⟨e, _, rfl⟩ := List.mem_map.mp hd
  rfl

theorem lexical_singleton {d : Diagnostic} (hd : d.kind ≠ .tokenRecognition) :
    lexical [d] = [] := by
  simp [lexical, hd]

/-- The report of a mismatch that was made when so many tokens had been pulled from
a lexer.  It is made at one of them, and the log before it tells of the unmatched
text up to them, and of no other. -/
structure MadeAt (l : Lexer) (before : List Diagnostic) (moment : Nat) (d : Diagnostic) : Prop where
  offending : ∃ place < moment,
    d = .atToken d.kind ((l.pulled place).next.1.atIndex place) d.message
  lexical : lexical before = (l.pulled moment).errors.map .ofLexError

end Diagnostic

/-- A log goes on from an old one, which was written when so many tokens had been
pulled: it tells of the unmatched text that was taken from the lexer, and each new
report of a mismatch was made when some of the tokens had been pulled that are there
now. -/
structure LogFrom (l : Lexer) (base : Nat) (old : List Diagnostic) (s : TokenStream)
    (log : List Diagnostic) : Prop where
  told : ∃ taken, s.Pulls l taken ∧ Diagnostic.lexical log = taken.map .ofLexError
  fetched : base ≤ s.buffer.size
  grown : old <+: log
  made : ∀ i d, log[i]? = some d → d.kind ≠ .tokenRecognition → old.length ≤ i →
    ∃ moment, base ≤ moment ∧ moment ≤ s.buffer.size ∧ d.MadeAt l (log.take i) moment

namespace LogFrom

variable {l : Lexer} {base : Nat} {old log : List Diagnostic} {s s' : TokenStream}

/-- Any log can be gone on from. -/
theorem restart (h : LogFrom l base old s log) : LogFrom l s.buffer.size log s log where
  told := h.told
  fetched := Nat.le_refl _
  grown := List.prefix_refl log
  made i d hd _ hi := by
    rw [List.getElem?_eq_none hi] at hd
    cases hd

theorem of_fetches (h : LogFrom l base old s log) (hs : s.Fetches s') :
    LogFrom l base old s' log where
  told := by
    obtain ⟨taken, hpulls, htold⟩ := h.told
    exact ⟨taken, hpulls.of_fetches hs, htold⟩
  fetched := h.fetched.trans hs.size_le
  grown := h.grown
  made i d hd hkind hi := by
    obtain ⟨moment, hbase, hmoment, hmade⟩ := h.made i d hd hkind hi
    exact ⟨moment, hbase, hmoment.trans hs.size_le, hmade⟩

/-- When the errors are taken, reports of them and perhaps of a mismatch are added
to the log. -/
theorem append (h : LogFrom l base old s log) {more : List Diagnostic}
    (hlexical : Diagnostic.lexical more = s.takeErrors.1.map .ofLexError)
    (hmore : ∀ (i : Nat) (d : Diagnostic), more[i]? = some d → d.kind ≠ .tokenRecognition →
      d.MadeAt l (log ++ more.take i) s.buffer.size) :
    LogFrom l base old s.takeErrors.2 (log ++ more) where
  told := by
    obtain ⟨taken, hpulls, htold⟩ := h.told
    obtain ⟨herrors, hpulls'⟩ := hpulls.takeErrors
    refine ⟨_, hpulls', ?_⟩
    rw [Diagnostic.lexical_append, htold, hlexical, herrors, List.map_append]
  fetched := h.fetched
  grown := h.grown.trans (List.prefix_append log more)
  made i d hd hkind hi := by
    rcases Nat.lt_or_ge i log.length with hlt | hge
    · rw [List.getElem?_append_left hlt] at hd
      rw [List.take_append_of_le_length hlt.le]
      exact h.made i d hd hkind hi
    · rw [List.getElem?_append_right hge] at hd
      rw [List.take_append, List.take_of_length_le hge]
      exact ⟨_, h.fetched, Nat.le_refl _, hmore _ d hd hkind⟩

/-- The unmatched text that was met since the last report is reported. -/
theorem flush (h : LogFrom l base old s log) :
    LogFrom l base old s.takeErrors.2 (log ++ s.takeErrors.1.map .ofLexError) := by
  refine h.append (Diagnostic.lexical_map_ofLexError _) fun i d hd hkind => absurd ?_ hkind
  obtain ⟨e, _, rfl⟩ := List.mem_map.mp (List.mem_of_getElem? hd)
  rfl

/-- A mismatch is reported at a token that has been fetched. -/
theorem report (h : LogFrom l base old s log) {kind : DiagnosticKind} {t : Token}
    (hkind : kind ≠ .tokenRecognition) (ht : t ∈ s.buffer) (message : String) :
    LogFrom l base old s.takeErrors.2
      (log ++ (s.takeErrors.1.map .ofLexError ++ [.atToken kind t message])) := by
  obtain ⟨taken, hpulls, htold⟩ := h.told
  obtain ⟨herrors, _⟩ := hpulls.takeErrors
  have hmismatch : (Diagnostic.atToken kind t message).kind ≠ .tokenRecognition := hkind
  refine h.append ?_ fun i d hd hd' => ?_
  · rw [Diagnostic.lexical_append, Diagnostic.lexical_singleton hmismatch, List.append_nil,
      Diagnostic.lexical_map_ofLexError]
  · obtain ⟨rfl, rfl⟩ : i = (s.takeErrors.1.map Diagnostic.ofLexError).length ∧
        d = .atToken kind t message := by
      rcases Nat.lt_or_ge i (s.takeErrors.1.map Diagnostic.ofLexError).length with hlt | hge
      · rw [List.getElem?_append_left hlt] at hd
        obtain ⟨e, _, rfl⟩ := List.mem_map.mp (List.mem_of_getElem? hd)
        exact absurd rfl hd'
      · rw [List.getElem?_append_right hge, List.getElem?_singleton] at hd
        split at hd
        · exact ⟨by omega, (Option.some.inj hd).symm⟩
        · cases hd
    obtain ⟨place, hplace⟩ := Array.mem_iff_getElem?.mp ht
    refine ⟨⟨place, (Array.getElem?_eq_some_iff.mp hplace).1, ?_⟩, ?_⟩
    · rw [← hpulls.tokens place t hplace]
      rfl
    · rw [List.take_left, Diagnostic.lexical_append, htold, Diagnostic.lexical_map_ofLexError,
        herrors, List.map_append]

end LogFrom

/-- A run whose log goes on from an old one. -/
structure Run.Logged (l : Lexer) (base : Nat) (old : List Diagnostic) (ts : List Token) (r : Run) :
    Prop where
  placed : ∃ i, r.stream.At ts i
  log : LogFrom l base old r.stream r.diagnostics

/-- A repair that adds its reports to the log of a run. -/
structure Repair.Logged (l : Lexer) (base : Nat) (old log : List Diagnostic) (ts : List Token)
    (x : Repair) : Prop where
  placed : ∃ i, x.stream.At ts i
  log : LogFrom l base old x.stream (log ++ x.steps.flatMap RepairStep.reported)

/-- Whatever the strategy does, the log stays in order. -/
theorem Repair.stable_logged (l : Lexer) (base : Nat) (old log : List Diagnostic)
    (ts : List Token) : Stable ts (Logged l base old log ts) where
  placed h := h.placed
  stream h hfetches hat := ⟨hat, h.log.of_fetches hfetches⟩
  remember h _ := ⟨h.placed, h.log⟩
  tell h _ := ⟨h.placed, by
    rw [List.flatMap_append]
    simpa [RepairStep.reported] using h.log⟩
  eat h _ _ := ⟨h.placed, by
    rw [List.flatMap_append]
    simpa [RepairStep.reported] using h.log⟩
  report {r kind t} h hkind ht message := by
    obtain ⟨i, hat⟩ := h.placed
    refine ⟨⟨i, hat.takeErrors⟩, ?_⟩
    have hreport := h.log.report hkind ht message
    rw [List.append_assoc] at hreport
    change LogFrom l base old r.stream.takeErrors.2
      (log ++ (r.steps ++ [_]).flatMap RepairStep.reported)
    rw [List.flatMap_append, List.flatMap_singleton]
    exact hreport

namespace Run.Logged

variable {l : Lexer} {base : Nat} {old : List Diagnostic} {ts : List Token} {r r' : Run}

theorem of_same (h : r.Logged l base old ts) (hstream : r'.stream = r.stream)
    (hlog : r'.diagnostics = r.diagnostics) : r'.Logged l base old ts :=
  ⟨hstream ▸ h.placed, by rw [hstream, hlog]; exact h.log⟩

theorem modifyFrame (h : r.Logged l base old ts) (f : Invocation → Invocation) :
    (r.modifyFrame f).Logged l base old ts := by
  obtain ⟨hstream, _, _, hnotes, _⟩ := r.modifyFrame_rest f
  exact h.of_same hstream (diagnostics_of_notes hnotes)

theorem emit (h : r.Logged l base old ts) (e : Event) : (r.emit e).Logged l base old ts :=
  h.of_same rfl (r.diagnostics_emit e)

theorem enterRule (h : r.Logged l base old ts) (n : Network) (rule : RuleIndex) (follow : StateId)
    (level : Int) : (r.enterRule n rule follow level).Logged l base old ts := by
  obtain ⟨i, hat⟩ := h.placed
  obtain ⟨hstream, _, _, hlog⟩ := r.enterRule_rest n rule follow level
  refine ⟨⟨i, hstream ▸ hat.index.2⟩, ?_⟩
  rw [hstream, hlog]
  exact h.log.of_fetches r.stream.fetches_index

theorem exitRule (h : r.Logged l base old ts) (n : Network) :
    (r.exitRule n).Logged l base old ts :=
  h.of_same (r.exitRule_rest n).1 (r.exitRule_rest n).2

/-- Whatever a run does, its log stays in order. -/
theorem enduring (l : Lexer) (base : Nat) (old : List Diagnostic) (ts : List Token) :
    Enduring ts (Logged l base old ts) where
  placed h := h.placed
  stream h hfetches hat := by
    obtain ⟨i, hi⟩ := h.placed
    exact ⟨⟨i, hat i hi⟩, h.log.of_fetches hfetches⟩
  of_same h hstream _ _ hnotes _ := h.of_same hstream (diagnostics_of_notes hnotes)
  emit h _ := h.emit _
  hidden h _ _ := h.modifyFrame _
  setAlt h _ := h.modifyFrame _
  fail h := h.modifyFrame _
  enterRule h := h.enterRule
  repair {r} h := by
    refine ⟨Repair.Logged l base old r.diagnostics ts, Repair.stable_logged l base old _ ts,
      ⟨h.placed, ?_⟩, fun x hx => ⟨?_, ?_⟩⟩
    · simpa using h.log
    · rw [stream_carryOut_foldl]
      exact hx.placed
    · rw [stream_carryOut_foldl, diagnostics_carryOut_foldl]
      exact hx.log
  insert h t := (h.emit (.insert t)).modifyFrame _
  exitRule h _ n := h.exitRule n

theorem restart (h : r.Logged l base old ts) :
    r.Logged l r.stream.buffer.size r.diagnostics ts :=
  ⟨h.placed, h.log.restart⟩

/-- What the lexer met since it was last asked is reported at the end. -/
theorem flushLexErrors (h : r.Logged l base old ts) : r.flushLexErrors.Logged l base old ts := by
  obtain ⟨i, hat⟩ := h.placed
  refine ⟨⟨i, hat.takeErrors⟩, ?_⟩
  have hlog : r.flushLexErrors.diagnostics =
      r.diagnostics ++ r.stream.takeErrors.1.map Diagnostic.ofLexError :=
        diagnostics_noteLexErrors _ _
  rw [hlog]
  exact h.log.flush

variable {interp : Interpreter}

/-- When the loop has finished, the log is still in order. -/
theorem finished (hgenuine : Genuine ts) (h : r.Logged l base old ts) {steps : Nat}
    (hhalt : (interp.loop steps r).1 = .finished) :
    (interp.loop steps r).2.Logged l base old ts ∧
      (interp.loop steps r).2.stream.Pulls l
        (l.pulled (interp.loop steps r).2.stream.buffer.size).errors := by
  obtain ⟨r', hr', _, hlast⟩ := (enduring l base old ts).finished hgenuine
    (fun _ _ _ _ _ h' => h'.modifyFrame _) h hhalt
  have hleft := hr'.exitRule interp.network
  obtain ⟨taken, hpulls, _⟩ := hleft.log.told
  rw [hlast]
  exact ⟨hleft.flushLexErrors, hpulls.takeErrors.2⟩

/-- Each report of a mismatch was made in some step, when some of the tokens had
been pulled that were pulled by then: no fewer than before the step, and no more
than behind it. -/
theorem exists_step (hgenuine : Genuine ts) (h : r.Logged l base old ts) {steps : Nat}
    (hhalt : (interp.loop steps r).1 = .finished) {i : Nat} {d : Diagnostic}
    (hd : (interp.loop steps r).2.diagnostics[i]? = some d) (hkind : d.kind ≠ .tokenRecognition)
    (hi : r.diagnostics.length ≤ i) :
    ∃ n moment, (interp.loop n r).2.diagnostics.length ≤ i ∧
      i < (interp.loop (n + 1) r).2.diagnostics.length ∧
      (interp.loop n r).2.stream.buffer.size ≤ moment ∧
      moment ≤ (interp.loop (n + 1) r).2.stream.buffer.size ∧
      moment ≤ (interp.loop steps r).2.stream.buffer.size ∧
      d.MadeAt l ((interp.loop steps r).2.diagnostics.take i) moment := by
  -- At every step the log so far is taken for the old one, so that the times of the
  -- reports that the step adds lie between its ends.
  induction steps generalizing r base old with
  | zero => cases hhalt
  | succ steps ih =>
    have hstep : (interp.step.run r).1.Lasts interp.network
        (Logged l r.stream.buffer.size r.diagnostics ts) r (interp.step.run r).2 :=
      (enduring l _ _ ts).step hgenuine (fun _ _ _ _ _ h' => h'.modifyFrame _) h.restart
    cases hresult : interp.step.run r with
    | mk ending r₁ =>
      rw [hresult] at hstep
      cases ending with
      | defect =>
        rw [Interpreter.loop, hresult] at hhalt
        cases hhalt
      | running =>
        have h₁ : r₁.Logged l r.stream.buffer.size r.diagnostics ts := hstep
        have hsucc (n : Nat) := Interpreter.loop_of_running hresult n
        rw [hsucc] at hhalt hd ⊢
        obtain ⟨rest, hrest⟩ := (h₁.restart.finished hgenuine hhalt).1.log.grown
        have hfetched := (h₁.restart.finished hgenuine hhalt).1.log.fetched
        by_cases hlast : i < r₁.diagnostics.length
        · rw [← hrest, List.getElem?_append_left hlast] at hd
          obtain ⟨moment, hbase, hmoment, hmade⟩ := h₁.log.made i d hd hkind hi
          refine ⟨0, moment, hi, ?_⟩
          rw [hsucc, ← hrest, List.take_append_of_le_length hlast.le]
          exact ⟨hlast, hbase, hmoment, hmoment.trans hfetched, hmade⟩
        · obtain ⟨n, moment, hmoment⟩ := ih h₁ hhalt hd (Nat.le_of_not_lt hlast)
          exact ⟨n + 1, moment, by rw [hsucc, hsucc]; exact hmoment⟩
      | finished =>
        have hlast (n : Nat) := Interpreter.loop_of_finished hresult n
        obtain rfl : r₁ = r.exitRule interp.network := hstep.2
        have hflush := (h.restart.exitRule interp.network).flushLexErrors
        rw [hlast] at hd ⊢
        obtain ⟨moment, hbase, hmoment, hmade⟩ := hflush.log.made i d hd hkind hi
        refine ⟨0, moment, hi, ?_⟩
        rw [hlast]
        exact ⟨(List.getElem?_eq_some_iff.mp hd).1, hbase, hmoment, hmoment, hmade⟩

end Run.Logged

/-- An entry of the log was made in the step behind the first `n` ones, when so many
tokens had been pulled: no fewer than before the step, and no more than behind
it. -/
structure Parser.ReportsIn (p : Parser) (hooks : Hooks) (start : String) (i n moment : Nat) :
    Prop where
  logged_before : (p.parse hooks n start).run.diagnostics.length ≤ i
  logged_behind : i < (p.parse hooks (n + 1) start).run.diagnostics.length
  pulled_before : (p.parse hooks n start).run.stream.buffer.size ≤ moment
  pulled_behind : moment ≤ (p.parse hooks (n + 1) start).run.stream.buffer.size

/-- Of these errors, those before a position of the text are told before an entry of
the log, and the others behind it. -/
structure LexError.Divided (errors : List LexError) (log : List Diagnostic) (i offset : Nat) :
    Prop where
  before : Diagnostic.lexical (log.take i) =
    (errors.filter fun e => e.offset < offset).map .ofLexError
  behind : Diagnostic.lexical (log.drop (i + 1)) =
    (errors.filter fun e => offset ≤ e.offset).map .ofLexError

/-- A report that was made at some time divides the errors at the place that the
lexer had come to then, and its token lies before that place. -/
theorem Diagnostic.MadeAt.divided {rules : List LexRule} {text : String} {log : List Diagnostic}
    {i moment count : Nat} {d : Diagnostic}
    (h : d.MadeAt (Lexer.ofText rules text) (log.take i) moment) (hd : log[i]? = some d)
    (hkind : d.kind ≠ .tokenRecognition) (hmoment : moment ≤ count)
    (hlog : Diagnostic.lexical log =
      ((Lexer.ofText rules text).pulled count).errors.map .ofLexError) :
    LexError.Divided ((Lexer.ofText rules text).pulled count).errors log i
      ((Lexer.ofText rules text).pulled moment).place.offset := by
  obtain ⟨hbefore, hsplit⟩ := Lexer.errors_pulled_split rules text hmoment
  refine ⟨?_, ?_⟩
  · rw [← hbefore]
    exact h.lexical
  · obtain ⟨hi, rfl⟩ := List.getElem?_eq_some_iff.mp hd
    rw [← List.take_append_drop i log, List.drop_eq_getElem_cons hi, ← List.singleton_append,
      Diagnostic.lexical_append, Diagnostic.lexical_append, Diagnostic.lexical_singleton hkind,
      List.nil_append, h.lexical, hsplit, List.map_append] at hlog
    exact List.append_cancel_left hlog

/-- With room for all diagnostics nothing is cut off. -/
theorem Parser.diagnostics_of_room {p : Parser} {halt : Halt} {run : Run}
    (h : (p.report halt run).result.diagnostics.length < p.options.maxErrors) :
    (p.report halt run).result.diagnostics = run.diagnostics := by
  have hcut : (p.report halt run).result.diagnostics =
      run.diagnostics.take p.options.maxErrors := rfl
  rw [hcut, List.length_take] at h
  rw [hcut, List.take_of_length_le (by omega)]

/-- A parse of a text begins with an empty log. -/
theorem Run.Logged.begin (g : Grammar) (text : String) (rule : RuleIndex) (follow : StateId) :
    (Run.enterRule g.network rule follow 0 { stream := .ofSource (.lexed (g.lexer text)) }).Logged
      (g.lexer text) 0 [] (g.tokenize text).1 := by
  refine Logged.enterRule ⟨⟨_, TokenStream.at_ofSource (g.supplies_tokenize text)⟩,
    ⟨[], .ofSource _, rfl⟩, Nat.zero_le _, List.nil_prefix, ?_⟩ _ _ _ _
  intro i d hd
  cases hd

/-- The log of a parse is in the order of what was read, if there is room for all of
it.  Its reports of unmatched text are those of the text that the stream pulled, in
its order and each of them once.  A report of a mismatch stands behind what had been
met when it was made, and so behind all that lies before its token; and it stands
before what was met afterwards. -/
theorem Grammar.parse_log_ordered (g : Grammar) (text : String) (options : ParserOptions)
    (listeners : List String) (hooks : Hooks) (steps : Nat) (start : String)
    {result : ParseResult} :
    let p : Parser := { Parser.ofText g text with options, listeners }
    (p.parse hooks steps start).result? = some (.ok result) →
    result.diagnostics.length < options.maxErrors →
    let stream := (p.parse hooks steps start).parser.stream
    let read := (g.lexer text).pulled stream.buffer.size
    stream.source = .lexed { read with errors := [] } ∧
      read.errors = ((g.tokenize text).2.filter fun e => e.offset < read.place.offset) ∧
      Diagnostic.lexical result.diagnostics = read.errors.map .ofLexError ∧
      (read.errors.Pairwise fun e e' => e.offset < e'.offset) ∧
      ∀ i d, result.diagnostics[i]? = some d → d.kind ≠ .tokenRecognition →
        ∃ n moment place t, p.ReportsIn hooks start i n moment ∧
          place < moment ∧ moment ≤ stream.buffer.size ∧
          stream.buffer[place]? = some t ∧ d = .atToken d.kind t d.message ∧
          t.start ≤ ((g.lexer text).pulled moment).place.offset ∧
          LexError.Divided read.errors result.diagnostics i
            ((g.lexer text).pulled moment).place.offset := by
  intro p hresult hroom stream read
  obtain ⟨hhalt, rfl⟩ := ParseReport.result?_eq_ok.mp hresult
  obtain ⟨rule, span, hindex, hspan⟩ := Parser.exists_start hhalt
  let interp : Interpreter := ⟨g.network, g.vocabulary, hooks⟩
  let r : Run := Run.enterRule g.network rule span.stop 0 { stream := p.stream }
  have hparse (n : Nat) :
      p.parse hooks n start = p.report (interp.loop n r).1 (interp.loop n r).2 :=
    Parser.parse_eq hindex hspan
  have hstream : stream = (interp.loop steps r).2.stream :=
    congrArg (fun report => report.parser.stream) (hparse steps)
  rw [hparse] at hhalt hroom ⊢
  rw [Parser.diagnostics_of_room hroom]
  have hgenuine : Genuine (g.tokenize text).1 := (g.supplies_tokenize text).numbered.genuine
  have hbegin : r.Logged (g.lexer text) 0 [] (g.tokenize text).1 := .begin g text rule span.stop
  obtain ⟨hfinal, hpulls⟩ := hbegin.finished hgenuine hhalt
  rw [← hstream] at hpulls
  have hcount : stream.buffer.size ≤ (g.lexer text).tokenize.1.length := by
    obtain ⟨i, hat⟩ := hfinal.placed
    have hle := hat.shows.size_le
    rw [← hstream] at hle
    exact hle.trans (Nat.le_of_eq List.length_mapIdx)
  have hlexical : Diagnostic.lexical (interp.loop steps r).2.diagnostics =
      read.errors.map .ofLexError := by
    obtain ⟨taken, htaken, hlexical⟩ := hfinal.log.told
    rw [← hstream] at htaken
    rw [hlexical, htaken.unique hpulls]
  refine ⟨hpulls.source_eq, Lexer.errors_pulled_eq_filter hcount, hlexical,
    Lexer.errors_pulled_pairwise g.lexRules text _, fun i d hd hkind => ?_⟩
  have hempty : r.diagnostics = [] := (Run.enterRule_rest _ _ _ _ _).2.2.2
  obtain ⟨n, moment, hbefore, hbehind, hfetched, hfetching, hmoment, hmade⟩ :=
    hbegin.exists_step hgenuine hhalt hd hkind (hempty ▸ Nat.zero_le i)
  rw [← hstream] at hmoment
  have hreports : p.ReportsIn hooks start i n moment := by
    refine ⟨?_, ?_, ?_, ?_⟩ <;> rw [hparse]
    exacts [hbefore, hbehind, hfetched, hfetching]
  obtain ⟨place, hplace, hoffending⟩ := hmade.offending
  have hmem := Array.getElem?_eq_getElem (hplace.trans_le hmoment)
  refine ⟨n, moment, place, _, hreports, hplace, hmoment, hmem, ?_, ?_,
    hmade.divided hd hkind hmoment hlexical⟩
  · rw [hpulls.tokens place _ hmem]
    exact hoffending
  · rw [hpulls.tokens place _ hmem]
    exact Lexer.start_le_pulled (Lexer.placed_ofText g.lexRules text) hplace

theorem isOk_build_assignments : assignments.build.isOk = true := by decide +kernel

/-- Unmatched text in front of a mismatch is told before it, and the text that is
met while tokens are skipped behind it is told at the end. -/
theorem parse_log_ordered_assignments :
    let g := assignments.grammar isOk_build_assignments
    let p := Parser.ofText g "a ?b c d ?e"
    let log := (p.parse .permissive 60 "s").result.diagnostics
    log.map Diagnostic.kind = [.tokenRecognition, .mismatchedInput, .tokenRecognition] ∧
      Diagnostic.lexical log = ((g.lexer "a ?b c d ?e").pulled 6).errors.map .ofLexError ∧
      ∃ (n moment : Nat) (t : Token) (message : String),
        p.ReportsIn .permissive "s" 1 n moment ∧
        log[1]? = some (.atToken .mismatchedInput t message) ∧
        t.start ≤ ((g.lexer "a ?b c d ?e").pulled moment).place.offset ∧
        LexError.Divided ((g.lexer "a ?b c d ?e").pulled 6).errors log 1
          ((g.lexer "a ?b c d ?e").pulled moment).place.offset := by
  have hplain (g : Grammar) (text : String) :
      { Parser.ofText g text with options := {}, listeners := [] } = Parser.ofText g text := rfl
  intro g p log
  have hkinds : log.map Diagnostic.kind =
    [.tokenRecognition, .mismatchedInput, .tokenRecognition] := by decide +kernel
  have hresult : (p.parse .permissive 60 "s").result? =
      some (.ok (p.parse .permissive 60 "s").result) :=
    ParseReport.result?_eq_ok.mpr ⟨by decide +kernel, rfl⟩
  have hlength : log.length < 100 := by
    rw [← List.length_map, hkinds]
    decide
  have hsize : (p.parse .permissive 60 "s").parser.stream.buffer.size = 6 := by decide +kernel
  have hordered := g.parse_log_ordered "a ?b c d ?e" {} [] .permissive 60 "s" (by
    rw [hplain]
    exact hresult) hlength
  rw [hplain] at hordered
  obtain ⟨_, _, hlexical, _, hreports⟩ := hordered
  obtain ⟨d, hd, hkind⟩ : ∃ d, log[1]? = some d ∧ d.kind = .mismatchedInput := by
    have hsecond := congrArg (fun kinds : List DiagnosticKind => kinds[1]?) hkinds
    simpa using hsecond
  obtain ⟨n, moment, _, t, hreported, _, _, _, hat, hstart, hdivided⟩ :=
    hreports 1 d hd (by rw [hkind]; decide)
  rw [hat, hkind] at hd
  refine ⟨hkinds, ?_, n, moment, t, d.message, hreported, hd, hstart, ?_⟩
  · rw [← hsize]
    exact hlexical
  · rw [← hsize]
    exact hdivided

end AdaptiveLL
