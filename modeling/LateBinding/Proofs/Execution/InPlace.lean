import LateBinding.Execution.InPlace
import LateBinding.Proofs.Execution.Steps

/-!
# LateBinding.Proofs.Execution.InPlace

An execution that writes to one trace comes to what `Hierarchy.executeFrom` says about it.

The levels that `Hierarchy.executeFrom` has left are what the depth still lacks of the limit.  So
the depth is below the limit whenever it is counted up, and the word that holds it never
overflows.
-/

namespace LateBinding

/-- What an execution that is under way makes of a trace, given the result of the execution that
makes a trace of its own: it ends in the same way, and it only adds to the trace; if it ends with
a trace, then that one. -/
inductive Appends (t : Trace) :
    Except ExecutionError Trace → EStateM.Result ExecutionError Trace Unit → Prop
  | ok (own : Trace) : Appends t (.ok own) (.ok () (t ++ own))
  | error (e : ExecutionError) (own : Trace) : Appends t (.error e) (.error e (t ++ own))

namespace Executing

variable {run : SelfCall → Except ExecutionError Trace} {exec : SelfCall → Executing Unit}
  {e : TraceEntry} {x : Except ExecutionError Trace}
  {y : EStateM.Result ExecutionError Trace Unit} {t : Trace}

@[simp] theorem run_write (e : TraceEntry) (t : Trace) :
    (write e).run t = .ok () (t ++ [e]) := rfl

@[simp] theorem run_throw (e : ExecutionError) (t : Trace) :
    (throw e : Executing Unit).run t = .error e t := rfl

/-- What ends early at once adds nothing. -/
theorem appends_throw (e : ExecutionError) (t : Trace) :
    Appends t (.error e) ((throw e : Executing Unit).run t) := by
  have herr := Appends.error (t := t) e []
  rwa [List.append_nil] at herr

/-- What is added after an entry is added with it. -/
theorem appends_after_entry (hxy : Appends (t ++ [e]) x y) : Appends t (x.map (e :: ·)) y := by
  cases hxy with
  | ok own =>
      rw [List.append_assoc]
      exact .ok (e :: own)
  | error cause own =>
      rw [List.append_assoc]
      exact .error cause (e :: own)

/-- Calls that each add their trace add the traces of all, one after the other. -/
theorem appends_forM (hcall : ∀ call t, Appends t (run call) ((exec call).run t))
    (calls : List SelfCall) (t : Trace) :
    Appends t (concatTraces run calls) ((forM calls exec).run t) := by
  induction calls generalizing t with
  | nil =>
      have hnone := Appends.ok (t := t) []
      rwa [List.append_nil] at hnone
  | cons call rest ih =>
      have hfirst := hcall call t
      rw [List.forM_cons, EStateM.run_bind, concatTraces]
      generalize run call = x, (exec call).run t = y at hfirst
      cases hfirst with
      | error e own => exact .error e own
      | ok first =>
          have hrest := ih (t ++ first)
          simp only
          generalize concatTraces run rest = x, (forM rest exec).run (t ++ first) = y at hrest
          cases hrest with
          | error e own =>
              rw [List.append_assoc]
              exact .error e (first ++ own)
          | ok others =>
              rw [List.append_assoc]
              exact .ok (first ++ others)

end Executing

namespace Hierarchy

open Executing

variable {h : Hierarchy} {rule : LookupRule} {limit depth : UInt64} {room : Nat} {site : CallSite}
  {r : Resolution}

/-! ## one level -/

/-- A call that does not resolve ends the execution before anything is written. -/
theorem run_executeInto_of_error {e : LookupError} (hres : h.resolve rule site = .error e)
    (t : Trace) : (h.executeInto rule limit depth site).run t =
      .error (.unresolved (site.describe h) e) t := by
  unfold executeInto
  simp only [hres, run_throw]

/-- A method without calls is written, and that is all. -/
theorem run_executeInto_of_nil (hres : h.resolve rule site = .ok r) (hbody : r.method.body = [])
    (t : Trace) :
    (h.executeInto rule limit depth site).run t = .ok () (t ++ [⟨depth.toNat, r⟩]) := by
  unfold executeInto
  simp [hres, hbody]

/-- At the limit, a method with calls is written before the execution ends. -/
theorem run_executeInto_of_le (hres : h.resolve rule site = .ok r) (hbody : r.method.body ≠ [])
    (hle : limit ≤ depth) (t : Trace) : (h.executeInto rule limit depth site).run t =
      .error (.depthExceeded limit.toNat (h.qualifiedName r.method))
        (t ++ [⟨depth.toNat, r⟩]) := by
  unfold executeInto
  simp [hres, hbody, hle]

/-- Below the limit, a method is written before its calls run one level deeper. -/
theorem run_executeInto_of_lt (hres : h.resolve rule site = .ok r) (hbody : r.method.body ≠ [])
    (hlt : depth < limit) (t : Trace) : (h.executeInto rule limit depth site).run t =
      (forM r.method.body
        (h.runSelfCall r.method site.runtime (h.executeInto rule limit (depth + 1)))).run
      (t ++ [⟨depth.toNat, r⟩]) := by
  rw [executeInto]
  simp [hres, hbody, UInt64.not_le.mpr hlt]

/-! ## all levels -/

/-- An execution adds its trace to the one that there is, if the levels left and the depth make up
the limit. -/
theorem appends_executeInto (hlimit : depth.toNat + room = limit.toNat) (site : CallSite)
    (t : Trace) :
    Appends t (h.executeFrom rule room depth.toNat site)
      ((h.executeInto rule limit depth site).run t) := by
  induction room generalizing depth site t with
  | zero =>
      have hle : limit ≤ depth := by
        rw [UInt64.le_iff_toNat_le]
        omega
      cases hres : h.resolve rule site with
      | error e =>
          rw [executeFrom_of_error hres, run_executeInto_of_error hres]
          exact appends_throw _ t
      | ok r =>
          rw [executeFrom_zero hres]
          by_cases hbody : r.method.body = []
          · rw [run_executeInto_of_nil hres hbody, hbody]
            exact .ok _
          · rw [run_executeInto_of_le hres hbody hle, ← hlimit]
            simp only [List.isEmpty_iff, hbody, if_false]
            exact .error _ _
  | succ room ih =>
      have hlt : depth < limit := by
        rw [UInt64.lt_iff_toNat_lt]
        omega
      have hnext := toNat_add_one_of_lt hlt
      cases hres : h.resolve rule site with
      | error e =>
          rw [executeFrom_of_error hres, run_executeInto_of_error hres]
          exact appends_throw _ t
      | ok r =>
          by_cases hbody : r.method.body = []
          · rw [executeFrom_of_nil hres hbody, run_executeInto_of_nil hres hbody]
            exact .ok _
          · rw [run_executeInto_of_lt hres hbody hlt, executeFrom_of_ok hres]
            refine appends_after_entry (appends_forM (fun call t => ?_) _ _)
            unfold runSelfCall
            cases CallSite.make h r.method.owner site.runtime call.method call.args with
            | error e => exact appends_throw _ t
            | ok inner =>
                rw [← hnext]
                exact ih (by omega) inner t

/-- **An execution in place is the execution**, for every limit that there is a word for: writing
to one trace and counting in machine words changes no result. -/
theorem executeInPlace_eq (h : Hierarchy) (rule : LookupRule) (limit : UInt64) (site : CallSite) :
    h.executeInPlace rule limit site = h.execute ⟨rule, limit.toNat⟩ site := by
  have happends : Appends [] (h.executeFrom rule limit.toNat (0 : UInt64).toNat site)
      ((h.executeInto rule limit 0 site).run []) :=
    appends_executeInto (Nat.zero_add limit.toNat) site []
  rw [UInt64.toNat_zero] at happends
  rw [executeInPlace, execute]
  generalize h.executeFrom rule limit.toNat 0 site = x,
    (h.executeInto rule limit 0 site).run [] = y at happends
  cases happends with
  | ok own => rfl
  | error e own => rfl

end Hierarchy

end LateBinding
