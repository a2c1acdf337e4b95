import LateBinding.Hierarchy.Declare
import LateBinding.Report
import LateBinding.Scenario.Basic

/-!
# LateBinding.Scenario.Run

Running a scenario: declare its classes and methods in order, make its call
sites, then report every call and execute those that ask for a trace.  A rejected
declaration, or a call that cannot be made, is the result of the whole run.
-/

namespace LateBinding

/-! ## building the hierarchy -/

/-- A rejected declaration with the warnings that came up before it. -/
structure Rejection where
  cause : DeclarationError
  warnings : List Warning
  deriving DecidableEq, Repr

namespace Grown

/-- Declare methods in a class, in order. -/
def declareMethods (g : Grown) (c : ClassId) : List MethodDecl → Except Rejection Grown
  | [] => .ok g
  | d :: rest =>
    match g.hierarchy.declareMethod c d with
    | .error cause => .error ⟨cause, g.warnings⟩
    | .ok a => declareMethods ⟨a.hierarchy, g.warnings ++ a.warnings⟩ c rest

/-- Declare classes, in order, each with its methods. -/
def declareClasses (g : Grown) : List ClassEntry → Except Rejection Grown
  | [] => .ok g
  | entry :: rest =>
    match g.hierarchy.declareClass entry.name entry.parent with
    | .error cause => .error ⟨cause, g.warnings⟩
    | .ok (c, h) =>
      match declareMethods ⟨h, g.warnings⟩ c entry.methods with
      | .error r => .error r
      | .ok g' => declareClasses g' rest

end Grown

/-! ## results -/

/-- Why a scenario cannot be run. -/
inductive ScenarioError where
  | declaration (cause : DeclarationError)
  | callSite (index : Nat) (cause : CallSiteError)
  deriving DecidableEq, Repr

namespace ScenarioError

/-- What to say about a scenario that cannot be run. -/
def message : ScenarioError → String
  | declaration cause => "declaration rejected: " ++ cause.message
  | callSite index cause => "call #" ++ toString index ++ ": " ++ cause.message

end ScenarioError

/-- The result of one call of a scenario. -/
structure RunEntry where
  report : CallReport
  expected : Option String
  /-- The lines of the trace, or the one line of its failure; empty if no trace
  was asked for. -/
  trace : List String
  deriving DecidableEq, Repr, Inhabited

/-- Whether the result is as expected, if anything is expected. -/
def RunEntry.meetsExpectation (e : RunEntry) : Bool :=
  match e.expected with
  | some text => text == e.report.resultText
  | none => true

/-- The results of a scenario, call by call. -/
structure Run where
  entries : List RunEntry := []
  deriving DecidableEq, Repr, Inhabited

namespace Run

/-- The entries whose result is not as expected. -/
def unmet (r : Run) : List RunEntry := r.entries.filter fun e => !e.meetsExpectation

/-- Whether every result is as expected. -/
def allMet (r : Run) : Bool := r.unmet.isEmpty

end Run

/-! ## running -/

namespace Hierarchy

/-- The lines of the trace of a call; a failing execution is one line. -/
def tracedLines (h : Hierarchy) (config : Config) (site : CallSite) : List String :=
  match h.execute config site with
  | .ok t => h.traceLines t
  | .error e => ["error: " ++ e.message]

/-- The result of one call. -/
def runEntry (h : Hierarchy) (config : Config) (call : CallEntry) (site : CallSite) : RunEntry where
  report := h.report config.lookup site
  expected := call.expect
  trace := if call.trace then h.tracedLines config site else []

end Hierarchy

/-- The call site of a call entry. -/
def CallEntry.site (call : CallEntry) (h : Hierarchy) : Except CallSiteError CallSite :=
  CallSite.ofNames h call.static (call.runtime.getD call.static) call.method call.args

/-- The call sites of calls that are numbered from `index` on. -/
def callSites (h : Hierarchy) (index : Nat) : List CallEntry → Except ScenarioError (List CallSite)
  | [] => .ok []
  | call :: rest =>
    match call.site h with
    | .error cause => .error (.callSite index cause)
    | .ok site =>
      match callSites h (index + 1) rest with
      | .error e => .error e
      | .ok sites => .ok (site :: sites)

namespace Scenario

/-- Declare the classes and methods in order. -/
def build (s : Scenario) : Except Rejection Grown := Grown.declareClasses {} s.classes

/-- The hierarchy that the declarations make. -/
def hierarchy (s : Scenario) : Except DeclarationError Hierarchy :=
  match s.build with
  | .ok g => .ok g.hierarchy
  | .error r => .error r.cause

/-- The warnings that come up while the declarations are made. -/
def warnings (s : Scenario) : List Warning :=
  match s.build with
  | .ok g => g.warnings
  | .error r => r.warnings

/-- Run every call under the given settings. -/
def run (s : Scenario) (config : Config) : Except ScenarioError Run :=
  match s.hierarchy with
  | .error cause => .error (.declaration cause)
  | .ok h =>
    match callSites h 0 s.calls with
    | .error e => .error e
    | .ok sites => .ok ⟨List.zipWith (h.runEntry config) s.calls sites⟩

end Scenario

end LateBinding
