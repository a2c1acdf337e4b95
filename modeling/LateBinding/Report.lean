import LateBinding.Execution
import LateBinding.Document.Basic

/-!
# LateBinding.Report

The outcome of a call in printable form: as a line of text, and as the fields of
a document.
-/

namespace LateBinding

/-- The outcome of one call. -/
inductive Outcome where
  | resolved (className method : String) (signature : Signature) (dynamic : Bool)
  | failed (kind message : String)
  deriving DecidableEq, Repr, Inhabited

/-- A call as written, and its outcome. -/
structure CallReport where
  call : String
  outcome : Outcome
  deriving DecidableEq, Repr, Inhabited

namespace CallReport

/-- The executed method written `Class.name(parameters)`, or the kind of failure.
Expectations are compared with this text. -/
def resultText (r : CallReport) : String :=
  match r.outcome with
  | .resolved className method signature _ => className ++ "." ++ method ++ signature.text
  | .failed kind _ => kind

/-- The report as one line. -/
def line (r : CallReport) : String :=
  match r.outcome with
  | .resolved _ _ _ dynamic =>
    r.call ++ " -> " ++ r.resultText ++ (if dynamic then " [dynamic]" else " [static]")
  | .failed kind message => r.call ++ " -> error " ++ kind ++ ": " ++ message

/-- The report as the entries of a table. -/
def entries (r : CallReport) : List (String × Document) :=
  ("call", .string r.call) ::
    match r.outcome with
    | .resolved className method signature dynamic =>
      [ ("outcome", .string "resolved"), ("class", .string className),
        ("method", .string method), ("signature", .words (signature.params.map (·.name))),
        ("dynamic", .bool dynamic) ]
    | .failed kind message =>
      [("outcome", .string "failed"), ("kind", .string kind), ("message", .string message)]

/-- The report as a document. -/
def document (r : CallReport) : Document := .table r.entries

end CallReport

namespace Hierarchy

/-- The printable form of the result of resolving a call. -/
def outcome (h : Hierarchy) : Except LookupError Resolution → Outcome
  | .ok r =>
    .resolved (h.className r.declaringClass) r.method.name r.method.signature r.binding.isDynamic
  | .error e => .failed e.kind e.message

/-- Resolve a call and describe it with its outcome. -/
def report (h : Hierarchy) (rule : LookupRule) (site : CallSite) : CallReport :=
  ⟨site.describe h, h.outcome (h.resolve rule site)⟩

end Hierarchy

end LateBinding
