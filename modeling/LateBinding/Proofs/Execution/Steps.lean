import LateBinding.Execution
import LateBinding.Proofs.Resolution.Redirection

/-!
# LateBinding.Proofs.Execution.Steps

An execution one level at a time: what the body of the resolved method makes of the
executions of its calls.

The calls of a body are always possible, because the class of the running method is above
the runtime type of the receiver; so an execution ends with a trace, at a call that does
not resolve, or at the limit.  The depth at which it starts is only added to the depths that
it reports.
-/

namespace LateBinding

/-! ## one body after the other -/

/-- The traces of several calls fail as the first call that fails: those before it have
traces, and those after it do not matter. -/
theorem concatTraces_eq_error_iff {run : SelfCall → Except ExecutionError Trace}
    {calls : List SelfCall} {e : ExecutionError} :
    concatTraces run calls = .error e ↔ ∃ before call after, calls = before ++ call :: after ∧
      (∀ b ∈ before, ∃ t, run b = .ok t) ∧ run call = .error e := by
  constructor
  · intro herr
    induction calls with
    | nil => simp [concatTraces] at herr
    | cons call rest ih =>
        simp only [concatTraces] at herr
        cases hcall : run call with
        | error e' =>
            simp only [hcall] at herr
            exact ⟨[], call, rest, rfl, by simp, hcall.trans herr⟩
        | ok first =>
            cases hrest : concatTraces run rest with
            | error e' =>
                simp only [hcall, hrest] at herr
                obtain ⟨before, c, after, rfl, hbefore, hc⟩ := ih (hrest.trans herr)
                exact ⟨call :: before, c, after, rfl,
                  List.forall_mem_cons.mpr ⟨⟨first, hcall⟩, hbefore⟩, hc⟩
            | ok others => simp [hcall, hrest] at herr
  · rintro ⟨before, call, after, rfl, hbefore, hcall⟩
    induction before with
    | nil => simp only [List.nil_append, concatTraces, hcall]
    | cons b before ih =>
        obtain ⟨⟨t, ht⟩, hbefore⟩ := List.forall_mem_cons.mp hbefore
        simp only [List.cons_append, concatTraces, ht, ih hbefore]

/-! ## deeper starts -/

/-- The entry of a body that runs so much deeper. -/
def TraceEntry.deepen (k : Nat) (e : TraceEntry) : TraceEntry := { e with depth := e.depth + k }

/-- The end of an execution that starts so much deeper, with a limit so much higher. -/
def ExecutionError.deepen (k : Nat) : ExecutionError → ExecutionError
  | .depthExceeded limit method => .depthExceeded (limit + k) method
  | e => e

/-- The result of an execution that starts so much deeper, with a limit so much higher. -/
def deepen (k : Nat) : Except ExecutionError Trace → Except ExecutionError Trace
  | .ok t => .ok (t.map (·.deepen k))
  | .error e => .error (e.deepen k)

theorem deepen_eq_ok_iff {k : Nat} {x : Except ExecutionError Trace} :
    (∃ t, deepen k x = .ok t) ↔ ∃ t, x = .ok t := by
  cases x <;> simp [deepen]

theorem concatTraces_deepen (k : Nat) (run : SelfCall → Except ExecutionError Trace)
    (calls : List SelfCall) :
    concatTraces (fun call => deepen k (run call)) calls = deepen k (concatTraces run calls) := by
  induction calls with
  | nil => rfl
  | cons call rest ih =>
      simp only [concatTraces, ih]
      cases run call with
      | error e => rfl
      | ok first =>
          cases concatTraces run rest with
          | error e => rfl
          | ok others => simp [deepen]

/-! ## one level -/

/-- The call site of a call in the body of a method that runs on a receiver. -/
def SelfCall.site (call : SelfCall) (m : Method) (runtime : ClassId) : CallSite :=
  ⟨m.owner, runtime, call.method, call.args⟩

namespace Hierarchy

variable {h : Hierarchy} {rule : LookupRule} {site : CallSite} {r : Resolution}
  {room depth : Nat}

/-- A call that does not resolve ends its execution, whatever the room. -/
theorem executeFrom_of_error {e : LookupError} (hres : h.resolve rule site = .error e) :
    h.executeFrom rule room depth site = .error (.unresolved (site.describe h) e) := by
  unfold executeFrom
  simp only [hres]

/-- A method without calls runs whatever the room. -/
theorem executeFrom_of_nil (hres : h.resolve rule site = .ok r) (hbody : r.method.body = []) :
    h.executeFrom rule room depth site = .ok [⟨depth, r⟩] := by
  unfold executeFrom
  simp only [hres, hbody, List.isEmpty_nil, if_true]

/-- Without room, only a method without calls runs. -/
theorem executeFrom_zero (hres : h.resolve rule site = .ok r) :
    h.executeFrom rule 0 depth site = if r.method.body.isEmpty then .ok [⟨depth, r⟩]
      else .error (.depthExceeded depth (h.qualifiedName r.method)) := by
  unfold executeFrom
  simp only [hres]

/-- With room, a method runs before the calls of its body, unless one of those is not possible. -/
theorem executeFrom_of_ok (hres : h.resolve rule site = .ok r) :
    h.executeFrom rule (room + 1) depth site =
      (concatTraces
        (fun call =>
          match CallSite.make h r.method.owner site.runtime call.method call.args with
          | .error e => .error (.callSite e)
          | .ok inner => h.executeFrom rule room (depth + 1) inner)
        r.method.body).map (⟨depth, r⟩ :: ·) := by
  rw [executeFrom]
  simp only [hres]
  cases hbody : r.method.body with
  | nil => rfl
  | cons call rest =>
      simp only [List.isEmpty_cons]
      cases concatTraces _ (call :: rest) <;> rfl

/-- A trace starts with the method that the call resolves to. -/
theorem exists_of_executeFrom {t : Trace} (ht : h.executeFrom rule room depth site = .ok t) :
    ∃ r below, h.resolve rule site = .ok r ∧ t = ⟨depth, r⟩ :: below := by
  cases hres : h.resolve rule site with
  | error e =>
      rw [executeFrom_of_error hres] at ht
      contradiction
  | ok r =>
      refine ⟨r, ?_⟩
      cases room with
      | zero =>
          rw [executeFrom_zero hres] at ht
          split at ht
          · exact ⟨[], rfl, (Except.ok.inj ht).symm⟩
          · contradiction
      | succ room =>
          rw [executeFrom_of_ok hres] at ht
          generalize concatTraces _ r.method.body = x at ht
          cases x with
          | error e => contradiction
          | ok below => exact ⟨below, rfl, (Except.ok.inj ht).symm⟩

namespace WellFormed

variable (hwf : h.WellFormed) (habove : site.static ∈ h.ancestors site.runtime)

include hwf habove

/-- The calls of the body that a call runs are on the same receiver, and possible. -/
theorem inner_above (hres : h.resolve rule site = .ok r) (call : SelfCall) :
    (call.site r.method site.runtime).static ∈
      h.ancestors (call.site r.method site.runtime).runtime :=
  (hwf.runs_above habove hres).2

/-- With room, a method runs before the calls of its body, and those run one level deeper with
one level less of room. -/
theorem executeFrom_succ (hres : h.resolve rule site = .ok r) :
    h.executeFrom rule (room + 1) depth site =
      (concatTraces
        (fun call => h.executeFrom rule room (depth + 1) (call.site r.method site.runtime))
        r.method.body).map (⟨depth, r⟩ :: ·) := by
  have hmake : ∀ call : SelfCall,
      CallSite.make h r.method.owner site.runtime call.method call.args =
        .ok (call.site r.method site.runtime) :=
    fun call => CallSite.make_of_mem (hwf.runs_above habove hres).2
  rw [executeFrom_of_ok hres]
  simp only [hmake]

/-- An execution that starts deeper differs only in the depths that it reports. -/
theorem executeFrom_add (k : Nat) :
    h.executeFrom rule room (depth + k) site = deepen k (h.executeFrom rule room depth site) := by
  induction room generalizing depth site with
  | zero =>
      cases hres : h.resolve rule site with
      | error e => rw [executeFrom_of_error hres, executeFrom_of_error hres]; rfl
      | ok r =>
          rw [executeFrom_zero hres, executeFrom_zero hres]
          split <;> rfl
  | succ room ih =>
      cases hres : h.resolve rule site with
      | error e => rw [executeFrom_of_error hres, executeFrom_of_error hres]; rfl
      | ok r =>
          have hinner : ∀ call : SelfCall,
              h.executeFrom rule room (depth + k + 1) (call.site r.method site.runtime) =
                deepen k (h.executeFrom rule room (depth + 1)
                  (call.site r.method site.runtime)) := by
            intro call
            rw [Nat.add_right_comm]
            exact ih (hwf.inner_above habove hres call)
          rw [hwf.executeFrom_succ habove hres, hwf.executeFrom_succ habove hres]
          simp only [hinner, concatTraces_deepen]
          cases concatTraces _ r.method.body <;> rfl

/-- An execution is the one that starts at the top, with its depths moved. -/
theorem executeFrom_eq_deepen :
    h.executeFrom rule room depth site = deepen depth (h.executeFrom rule room 0 site) := by
  have hadd : h.executeFrom rule room (0 + depth) site = _ := hwf.executeFrom_add habove depth
  rwa [Nat.zero_add] at hadd

/-- **An execution ends in one of three ways**: with a trace, at a call that does not resolve,
or at the limit, which the room and the depth make up together. -/
theorem executeFrom_cases :
    (∃ t, h.executeFrom rule room depth site = .ok t) ∨
    (∃ call cause, h.executeFrom rule room depth site = .error (.unresolved call cause)) ∨
    ∃ m ∈ h.methods, h.executeFrom rule room depth site =
      .error (.depthExceeded (depth + room) (h.qualifiedName m)) := by
  induction room generalizing depth site with
  | zero =>
      cases hres : h.resolve rule site with
      | error e => exact .inr (.inl ⟨_, _, executeFrom_of_error hres⟩)
      | ok r =>
          rw [executeFrom_zero hres]
          split
          · exact .inl ⟨_, rfl⟩
          · exact .inr (.inr ⟨_, (hwf.runs_above habove hres).1, rfl⟩)
  | succ room ih =>
      cases hres : h.resolve rule site with
      | error e => exact .inr (.inl ⟨_, _, executeFrom_of_error hres⟩)
      | ok r =>
          rw [hwf.executeFrom_succ habove hres]
          generalize hbelow : concatTraces
            (fun call => h.executeFrom rule room (depth + 1) (call.site r.method site.runtime))
            r.method.body = below
          cases below with
          | ok below => exact .inl ⟨_, rfl⟩
          | error e =>
              obtain ⟨-, call, -, -, -, hcall⟩ := concatTraces_eq_error_iff.mp hbelow
              have hends := @ih _ (depth + 1) (hwf.inner_above habove hres call)
              rw [hcall, Nat.add_right_comm, Nat.add_assoc] at hends
              rcases hends with ⟨t, ht⟩ | ⟨text, cause, he⟩ | ⟨m, hm, he⟩
              · contradiction
              · exact .inr (.inl ⟨text, cause, by rw [Except.error.inj he]; rfl⟩)
              · exact .inr (.inr ⟨m, hm, by rw [Except.error.inj he]; rfl⟩)

theorem execute_cases (limit : Nat) :
    (∃ t, h.execute ⟨rule, limit⟩ site = .ok t) ∨
    (∃ call cause, h.execute ⟨rule, limit⟩ site = .error (.unresolved call cause)) ∨
    ∃ m ∈ h.methods,
      h.execute ⟨rule, limit⟩ site = .error (.depthExceeded limit (h.qualifiedName m)) := by
  rcases hwf.executeFrom_cases habove with ht | he | ⟨m, hm, he⟩
  · exact .inl ht
  · exact .inr (.inl he)
  · exact .inr (.inr ⟨m, hm, by rw [execute, he, Nat.zero_add]⟩)

end WellFormed

end Hierarchy

end LateBinding
