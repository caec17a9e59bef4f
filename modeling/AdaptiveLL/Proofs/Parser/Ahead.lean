/-
Parsing a text that was cut into tokens before.

The tokens of a text can be listed first and then be parsed, or be fetched by the
parse when it looks at them.  Both parses take one course and come to one tree.
What they tell differs in the reports of unmatched text: these are made when the
text is met, so they are missing where a list is read.
-/
import AdaptiveLL.Proofs.Parser.Course

namespace AdaptiveLL

def Note.isLexical : Note → Bool
  | .event _ => false
  | .diagnostic d => d.kind == .tokenRecognition

/-- The second record lacks reports of unmatched text, and nothing else, of the
first one. -/
structure Note.Lacks (ns ns' : List Note) : Prop where
  sublist : ns'.Sublist ns
  rest : ns.filter (fun n => !n.isLexical) = ns'.filter fun n => !n.isLexical

namespace Note.Lacks

variable {ns ns' : List Note}

theorem push (h : Note.Lacks ns ns') (n : Note) : Note.Lacks (ns ++ [n]) (ns' ++ [n]) where
  sublist := h.sublist.append (.refl _)
  rest := by rw [List.filter_append, List.filter_append, h.rest]

theorem lexical (h : Note.Lacks ns ns') (errors : List LexError) :
    Note.Lacks (ns ++ errors.map fun e => .diagnostic (.ofLexError e)) ns' where
  sublist := List.sublist_append_of_sublist_left h.sublist
  rest := by
    have hnone : (errors.map fun e => Note.diagnostic (.ofLexError e)).filter
        (fun n => !n.isLexical) = [] := by
      simp [Note.isLexical, Diagnostic.ofLexError]
    rw [List.filter_append, hnone, List.append_nil, h.rest]

/-- What is read off the other notes is the same. -/
theorem filterMap_eq (h : Note.Lacks ns ns') {β : Type} {f : Note → Option β}
    (hf : ∀ n, n.isLexical = true → f n = none) : ns.filterMap f = ns'.filterMap f := by
  have hskip (ns : List Note) : (ns.filter fun n => !n.isLexical).filterMap f = ns.filterMap f := by
    rw [List.filterMap_filter]
    refine List.filterMap_congr fun n _ => ?_
    cases hn : n.isLexical with
    | true => exact (hf n hn).symm
    | false => rfl
  rw [← hskip ns, h.rest, hskip ns']

end Note.Lacks

namespace Run

variable {r r' : Run}

theorem events_of_lacks (h : Note.Lacks r.notes.toList r'.notes.toList) : r.events = r'.events :=
  h.filterMap_eq fun n hn => by
    cases n with
    | event => cases hn
    | diagnostic => rfl

/-- Both records have the same diagnostics, except for unmatched text. -/
theorem diagnostics_of_lacks (h : Note.Lacks r.notes.toList r'.notes.toList) :
    (r.diagnostics.filter fun d => d.kind != .tokenRecognition) =
      r'.diagnostics.filter fun d => d.kind != .tokenRecognition := by
  rw [diagnostics, diagnostics, List.filter_filterMap, List.filter_filterMap]
  refine h.filterMap_eq fun n hn => ?_
  cases n with
  | event => rfl
  | diagnostic d => simpa [Option.filter, Note.isLexical] using hn

/-- With room for all diagnostics of the longer record, nothing is cut off from
either. -/
theorem take_diagnostics_of_lacks (h : Note.Lacks r.notes.toList r'.notes.toList) {limit : Nat}
    (hroom : (r.diagnostics.take limit).length < limit) :
    ((r.diagnostics.take limit).filter fun d => d.kind != .tokenRecognition) =
      (r'.diagnostics.take limit).filter fun d => d.kind != .tokenRecognition := by
  have hshorter : r'.diagnostics.length ≤ r.diagnostics.length :=
    (h.sublist.filterMap _).length_le
  rw [List.length_take] at hroom
  rw [List.take_of_length_le (by omega), List.take_of_length_le (by omega)]
  exact diagnostics_of_lacks h

end Run

/-- Two parses of some tokens, the second of which reads them from a list. -/
def Likeness.ahead (ts : List Token) (hnumbered : Numbered ts) : Likeness where
  tokens := ts
  numbered := hnumbered
  supply := .listed
  oneTree := True
  notes ns ns' := Note.Lacks ns.toList ns'.toList
  push n h := by
    rw [Array.toList_push, Array.toList_push]
    exact h.push n
  lexical {ns ns' errors errors'} herrors h := by
    obtain rfl : errors' = [] := herrors
    rw [List.foldl_push_eq_append, Array.toList_append]
    exact h.lexical errors

/-- Whether the tokens of a text are fetched by the parse or listed before it, the
parse ends in one way and has the same events, counts, calls of the host program,
and tree.  The diagnostics are the same up to the reports of unmatched text, if
there is room for all of them. -/
theorem Grammar.parse_tokenize (g : Grammar) (text : String) (options : ParserOptions)
    (listeners : List String) (hooks : Hooks) (steps : Nat) (start : String) :
    let lexing : Parser := { Parser.ofText g text with options, listeners }
    let listed : Parser := { Parser.ofTokens g (g.tokenize text).1 with options, listeners }
    let demand := lexing.parse hooks steps start
    let ahead := listed.parse hooks steps start
    demand.SameCourse ahead ∧ demand.result.tree = ahead.result.tree ∧
      (demand.result.diagnostics.length < options.maxErrors →
        (demand.result.diagnostics.filter fun d => d.kind != .tokenRecognition) =
          ahead.result.diagnostics.filter fun d => d.kind != .tokenRecognition) := by
  intro lexing listed demand ahead
  have hdemanded := g.supplies_tokenize text
  have hlisted : Supplies (.ofList (g.tokenize text).1) 0 (g.tokenize text).1 :=
    hdemanded.listed rfl
  have hstream : (Likeness.ahead _ hdemanded.numbered).Streams lexing.stream listed.stream :=
    ⟨⟨_, TokenStream.at_ofSource hdemanded, TokenStream.at_ofSource hlisted⟩, _, _, rfl⟩
  have hnotes : Note.Lacks [] [] := ⟨.refl _, rfl⟩
  obtain ⟨hhalt, hruns⟩ : demand.halt = ahead.halt ∧
      (Likeness.ahead _ hdemanded.numbered).Runs demand.run ahead.run :=
    Parser.parse_alike lexing listed rfl hstream hnotes hooks steps start
  have hdemand : demand.result = ⟨if options.buildTree then demand.run.tree.map ParseTree.asRoot
      else none, demand.run.diagnostics.take options.maxErrors, demand.run.metrics⟩ :=
    lexing.result_parse hooks steps start
  have hahead : ahead.result = ⟨if options.buildTree then ahead.run.tree.map ParseTree.asRoot
      else none, ahead.run.diagnostics.take options.maxErrors, ahead.run.metrics⟩ :=
    listed.result_parse hooks steps start
  have htold : Note.Lacks demand.run.notes.toList ahead.run.notes.toList := hruns.notes
  have htree : demand.run.tree = ahead.run.tree := hruns.tree trivial
  rw [hdemand, hahead, htree]
  refine ⟨⟨hhalt, ?_, Run.events_of_lacks htold, hruns.calls⟩, rfl,
    Run.take_diagnostics_of_lacks htold⟩
  rw [hdemand, hahead]
  exact hruns.metrics

/-- Names that are set to each other, with blanks that are skipped and marks that
are hidden. -/
def assignments : Definition where
  name := "Assignments"
  rules := [{ name := "s", body := .seq [.token "ID",
    .star (.seq [.literal "=", .token "ID", .action "set"]), .eof] }]
  lexer := [⟨"ID", .plus (.between 'a' 'z'), .rule .emit⟩,
    ⟨"BLANK", .plus (.oneOf .space), .rule .skip⟩, ⟨"MARK", .literal "#", .rule .hide⟩]

/-- One text is not matched by the lexer, and one token too many is dropped by the
parser. -/
theorem parse_tokenize_assignments :
    let g := assignments.grammar (by decide +kernel)
    let demand := Parser.parse (.ofText g "a #?= b b") .permissive 40 "s"
    let ahead := Parser.parse (.ofTokens g (g.tokenize "a #?= b b").1) .permissive 40 "s"
    demand.halt = .finished ∧
      demand.result.diagnostics.map Diagnostic.kind = [.tokenRecognition, .extraneousInput] ∧
      demand.SameCourse ahead ∧ demand.result.tree = ahead.result.tree ∧
      (demand.result.diagnostics.filter fun d => d.kind != .tokenRecognition) =
        ahead.result.diagnostics.filter fun d => d.kind != .tokenRecognition := by
  -- stated of any grammar: for this one its tables would be evaluated
  have hlexing (g : Grammar) (text : String) :
      { Parser.ofText g text with options := {}, listeners := [] } = Parser.ofText g text := rfl
  have hlisted (g : Grammar) (ts : List Token) :
      { Parser.ofTokens g ts with options := {}, listeners := [] } = Parser.ofTokens g ts := rfl
  intro g
  have hkinds : (Parser.parse (.ofText g "a #?= b b") .permissive 40 "s").result.diagnostics.map
      Diagnostic.kind = [.tokenRecognition, .extraneousInput] := by decide +kernel
  have hsame := g.parse_tokenize "a #?= b b" {} [] .permissive 40 "s"
  simp only [hlexing, hlisted] at hsame
  obtain ⟨hcourse, htree, hdiagnostics⟩ := hsame
  refine ⟨by decide +kernel, hkinds, hcourse, htree, hdiagnostics ?_⟩
  have hlength := congrArg List.length hkinds
  rw [List.length_map] at hlength
  exact hlength.trans_lt (by decide)

end AdaptiveLL
