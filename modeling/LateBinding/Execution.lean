import LateBinding.Resolution

/-!
# LateBinding.Execution

Running a call.  The body of the method that a call resolves to is a list of
calls on the same receiver, each typed with the class that declares the running
method.  Running them in turn, and the calls they make, gives a trace: every
method body in the order in which it starts, with its depth below the first call.
A body that would run deeper than the limit allows ends the execution.
-/

namespace LateBinding

/-- One method body that ran: how deep, and by which resolved call. -/
structure TraceEntry where
  depth : Nat
  call : Resolution
  deriving DecidableEq, Repr, Inhabited

/-- The method bodies that a call runs, in the order in which they start. -/
abbrev Trace := List TraceEntry

/-- Why an execution ends early. -/
inductive ExecutionError where
  | unresolved (call : String) (cause : LookupError)
  | callSite (cause : CallSiteError)
  | depthExceeded (limit : Nat) (method : String)
  deriving DecidableEq, Repr

namespace ExecutionError

/-- What to say about an execution that ended early. -/
def message : ExecutionError → String
  | unresolved call cause => call ++ ": " ++ cause.message
  | callSite cause => cause.message
  | depthExceeded limit method =>
    "call depth limit of " ++ toString limit ++ " exceeded in `" ++ method ++ "`"

end ExecutionError

/-! ## running -/

/-- The traces of several calls one after the other; the first failure is the
failure of all. -/
def concatTraces (run : SelfCall → Except ExecutionError Trace) :
    List SelfCall → Except ExecutionError Trace
  | [] => .ok []
  | call :: rest =>
    match run call with
    | .error e => .error e
    | .ok first =>
      match concatTraces run rest with
      | .error e => .error e
      | .ok others => .ok (first ++ others)

namespace Hierarchy

/-- Run a call at a depth, with room for so many levels of calls below it.  What
is left of the limit and the depth reached always add up to the limit. -/
def executeFrom (h : Hierarchy) (rule : LookupRule) (room depth : Nat) (site : CallSite) :
    Except ExecutionError Trace :=
  match h.resolve rule site with
  | .error e => .error (.unresolved (site.describe h) e)
  | .ok r =>
    if r.method.body.isEmpty then
      .ok [⟨depth, r⟩]
    else
      match room with
      | 0 => .error (.depthExceeded depth (h.qualifiedName r.method))
      | room + 1 =>
        let runInner (call : SelfCall) : Except ExecutionError Trace :=
          match CallSite.make h r.method.owner site.runtime call.method call.args with
          | .error e => .error (.callSite e)
          | .ok inner => h.executeFrom rule room (depth + 1) inner
        match concatTraces runInner r.method.body with
        | .error e => .error e
        | .ok below => .ok (⟨depth, r⟩ :: below)

/-- Resolve a call and run the bodies that it reaches. -/
def execute (h : Hierarchy) (config : Config) (site : CallSite) : Except ExecutionError Trace :=
  h.executeFrom config.lookup config.maxCallDepth 0 site

/-! ## text -/

/-- Two blanks for every level of depth. -/
def indentation : Nat → String
  | 0 => ""
  | n + 1 => "  " ++ indentation n

/-- A trace as lines: each method that ran, indented by its depth. -/
def traceLines (h : Hierarchy) (t : Trace) : List String :=
  t.map fun e => indentation e.depth ++ h.qualifiedName e.call.method

end Hierarchy

end LateBinding
