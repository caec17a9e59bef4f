/-
Parsing many texts with one grammar.
-/
import AdaptiveLL.Parser

namespace AdaptiveLL

/-- The parse of one text of a batch. -/
structure BatchEntry where
  id : String
  report : ParseReport

namespace BatchEntry

/-- Whether the text was parsed without a report. -/
def isClean (e : BatchEntry) : Bool :=
  match e.report.result? with
  | some (.ok result) => result.isClean
  | _ => false

/-- The counts of the parse, nothing for one that did not finish. -/
def metrics (e : BatchEntry) : Metrics :=
  match e.report.result? with
  | some (.ok result) => result.metrics
  | _ => {}

end BatchEntry

/-- Parse each of several texts by itself, in order. -/
def parseAll (g : Grammar) (start : String) (options : ParserOptions) (steps : Nat)
    (texts : List (String × String)) : List BatchEntry :=
  texts.map fun (id, text) =>
    ⟨id, { Parser.ofText g text with options }.parse .permissive steps start⟩

def totalMetrics (entries : List BatchEntry) : Metrics :=
  (entries.map BatchEntry.metrics).foldl Metrics.merge {}

end AdaptiveLL
