import LateBinding.Scenario.Run
import LateBinding.Document.Json

/-!
# LateBinding.Scenario.Render

The results of a scenario as text and as JSON.  In the text, every call has a
line of its own, its trace is indented beneath it, and a result that is not as
expected is flagged.
-/

namespace LateBinding

namespace RunEntry

/-- The line that flags a result that is not as expected. -/
def mismatchLine (e : RunEntry) : List String :=
  match e.expected with
  | some text => if e.meetsExpectation then [] else ["    MISMATCH: expected " ++ text]
  | none => []

/-- The lines of one result. -/
def lines (e : RunEntry) : List String :=
  e.report.line :: e.trace.map ("    " ++ ·) ++ e.mismatchLine

/-- The result as a document; what is absent is left out. -/
def document (e : RunEntry) : Document :=
  .table <|
    e.report.entries ++
      (match e.expected with
        | some text => [("expected", .string text)]
        | none => []) ++
      (if e.trace.isEmpty then [] else [("trace", .words e.trace)])

end RunEntry

namespace Run

/-- The results as text, each line ended by a line break. -/
def text (r : Run) : String := String.join ((r.entries.flatMap (·.lines)).map (· ++ "\n"))

/-- A one-line tally. -/
def summary (r : Run) : String :=
  toString r.entries.length ++ " calls, " ++
    toString (r.entries.countP (·.expected.isSome)) ++ " with expectations, " ++
    toString r.unmet.length ++ " unmet"

/-- The results as a document. -/
def document (r : Run) : Document := .table [("entries", .array (r.entries.map (·.document)))]

/-- The results as JSON text. -/
def json (r : Run) : String := r.document.jsonText

end Run

end LateBinding
