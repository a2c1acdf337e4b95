import LateBinding.Execution

/-!
# LateBinding.Execution.InPlace

Executions as updates in place of one trace.

Each body that starts is written at the end of the one trace that there is.  The depth at which
it runs is a machine word of 64 bits, which is compared with the limit as it counts up to it.
An execution may end early; what it has written until then stays written.

`Hierarchy.executeFrom` has none of that: it puts together the traces of the calls of a body,
and counts down the levels that are left.
-/

namespace LateBinding

/-- An execution under way.  It may end early, and also then leaves a trace behind. -/
abbrev Executing := EStateM ExecutionError Trace

namespace Executing

/-- Write an entry at the end of the trace. -/
def write (e : TraceEntry) : Executing Unit := modify (· ++ [e])

end Executing

/-- A depth below the limit is not the last one that there is a word for. -/
theorem toNat_add_one_of_lt {depth limit : UInt64} (hlt : depth < limit) :
    (depth + 1).toNat = depth.toNat + 1 := by
  have hword := limit.toNat_lt
  rw [UInt64.lt_iff_toNat_lt] at hlt
  rw [UInt64.toNat_add, UInt64.toNat_one]
  omega

namespace Hierarchy

/-- Run a call of a body, given how call sites are run: the receiver is typed with the class that
declares the method. -/
def runSelfCall (h : Hierarchy) (m : Method) (runtime : ClassId)
    (run : CallSite → Executing Unit) (call : SelfCall) : Executing Unit :=
  match CallSite.make h m.owner runtime call.method call.args with
  | .error e => throw (.callSite e)
  | .ok inner => run inner

/-- Run a call at a depth.  A method is written to the trace before the limit is looked at, and
the limit does not matter to a method without calls. -/
def executeInto (h : Hierarchy) (rule : LookupRule) (limit depth : UInt64) (site : CallSite) :
    Executing Unit := do
  match h.resolve rule site with
  | .error e => throw (.unresolved (site.describe h) e)
  | .ok r =>
    Executing.write ⟨depth.toNat, r⟩
    if r.method.body.isEmpty then
      return
    if limit ≤ depth then
      throw (.depthExceeded limit.toNat (h.qualifiedName r.method))
    else
      forM r.method.body
        (h.runSelfCall r.method site.runtime fun inner =>
          h.executeInto rule limit (depth + 1) inner)
termination_by limit.toNat - depth.toNat
decreasing_by
  have hlt : depth < limit := UInt64.not_le.mp ‹_›
  have hnext := toNat_add_one_of_lt hlt
  rw [UInt64.lt_iff_toNat_lt] at hlt
  omega

/-- Resolve a call and run the bodies that it reaches, writing them to a trace that is empty at
first. -/
def executeInPlace (h : Hierarchy) (rule : LookupRule) (limit : UInt64) (site : CallSite) :
    Except ExecutionError Trace :=
  match (h.executeInto rule limit 0 site).run [] with
  | .ok _ t => .ok t
  | .error e _ => .error e

end Hierarchy

end LateBinding
