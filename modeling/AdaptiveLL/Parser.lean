/-
Parsing with a grammar.

A parser owns a token stream, so that a second parse goes on where the first one
ended.  The options and the listeners only select from the record of a run:
whether its tree is handed out, how many of its diagnostics, and to whom.
-/
import AdaptiveLL.Parser.Step

namespace AdaptiveLL

structure ParserOptions where
  /-- Whether results have a tree. -/
  buildTree : Bool := true
  /-- How many diagnostics of a parse are recorded. -/
  maxErrors : Nat := 100
deriving DecidableEq

/-- A parser, with the names of those who listen to its diagnostics. -/
structure Parser where
  grammar : Grammar
  stream : TokenStream
  options : ParserOptions := {}
  listeners : List String := []

structure ParseResult where
  tree : Option ParseTree
  diagnostics : List Diagnostic
  metrics : Metrics

namespace ParseResult

def isClean (r : ParseResult) : Bool :=
  r.diagnostics.isEmpty

def lines (r : ParseResult) : List String :=
  r.diagnostics.map Diagnostic.render

end ParseResult

inductive Halt where
  | finished
  | defect (d : NetworkDefect)
  /-- The steps that were granted are used up. -/
  | outOfSteps
deriving DecidableEq

def Interpreter.loop (interp : Interpreter) : (steps : Nat) → Run → Halt × Run
  | 0, r => (.outOfSteps, r)
  | steps + 1, r =>
    match interp.step.run r with
    | (.running, r) => loop interp steps r
    | (.finished, r) => (.finished, r.flushLexErrors)
    | (.defect d, r) => (.defect d, r)

/-- Parse a rule as the outermost one. -/
def Interpreter.parseRule (interp : Interpreter) (rule : RuleIndex) (info : RuleSpan)
    (steps : Nat) (stream : TokenStream) : Halt × Run :=
  interp.loop steps (Run.enterRule interp.network rule info.stop 0 { stream })

/-- Everything about a parse: how it ended, its record, what listeners were told,
and the parser behind it. -/
structure ParseReport where
  halt : Halt
  run : Run
  delivered : List (String × Diagnostic)
  parser : Parser

namespace Parser

def ofText (g : Grammar) (text : String) : Parser :=
  { grammar := g, stream := .ofSource (.lexed (g.lexer text)) }

/-- A parser for tokens made elsewhere. -/
def ofTokens (g : Grammar) (tokens : List Token) : Parser :=
  { grammar := g, stream := .ofSource (.ofList tokens) }

def addListener (p : Parser) (name : String) : Parser :=
  { p with listeners := p.listeners ++ [name] }

def removeListeners (p : Parser) : Parser :=
  { p with listeners := [] }

/-- The diagnostics of a run that are recorded. -/
def recorded (p : Parser) (r : Run) : List Diagnostic :=
  r.diagnostics.take p.options.maxErrors

/-- The report on a run: every listener is told of every recorded diagnostic. -/
def report (p : Parser) (halt : Halt) (run : Run) : ParseReport where
  halt
  run
  delivered := (p.recorded run).flatMap fun d => p.listeners.map fun name => (name, d)
  parser := { p with stream := run.stream }

/-- Parse the input from a start rule, in at most `steps` steps. -/
def parse (p : Parser) (hooks : Hooks) (steps : Nat) (start : String) : ParseReport :=
  let network := p.grammar.network
  match (network.ruleIndex? start).bind fun i => (network.rule? i).map fun info => (i, info) with
  | none => p.report (.defect (.unknownRule start)) { stream := p.stream }
  | some (rule, info) =>
    let interp : Interpreter := ⟨network, p.grammar.vocabulary, hooks⟩
    let (halt, run) := interp.parseRule rule info steps p.stream
    p.report halt run

end Parser

namespace ParseReport

def result (r : ParseReport) : ParseResult where
  tree := if r.parser.options.buildTree then r.run.tree.map ParseTree.asRoot else none
  diagnostics := r.parser.recorded r.run
  metrics := r.run.metrics

/-- The result of a parse, or the defect that ended it; none if it ran out of
steps. -/
def result? (r : ParseReport) : Option (Except NetworkDefect ParseResult) :=
  match r.halt with
  | .finished => some (.ok r.result)
  | .defect d => some (.error d)
  | .outOfSteps => none

end ParseReport

end AdaptiveLL
