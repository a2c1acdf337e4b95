import Mathlib.Data.List.Chain
import LateBinding.Proofs.Execution.InPlace

/-!
# LateBinding.Proofs.Execution.Preorder

The trace of a call is the preorder of the calls that it makes: first the method that runs, then
the traces of the calls of its body, one after the other and one level deeper.

A call has a trace under a limit exactly if the calls of its body have traces under the limit
below, and the limit matters only if there are such calls.  What holds of a trace whenever it
holds of the traces of the body holds of every trace (`trace_induction`); so no entry is deeper
than the limit, and none is more than one level deeper than the one before it.
-/

namespace LateBinding

/-! ## traces of several calls -/

/-- The trace of a call, if it has one. -/
def traceOf (run : SelfCall → Except ExecutionError Trace) (call : SelfCall) : Trace :=
  (run call).toOption.getD []

theorem traceOf_eq {run : SelfCall → Except ExecutionError Trace} {call : SelfCall} {t : Trace}
    (hcall : run call = .ok t) : traceOf run call = t := by
  rw [traceOf, hcall]
  rfl

/-- Several calls have traces together if each has one, and then these follow one another. -/
theorem concatTraces_eq_ok_iff {run : SelfCall → Except ExecutionError Trace}
    {calls : List SelfCall} {t : Trace} :
    concatTraces run calls = .ok t ↔
      ∃ own : SelfCall → Trace, (∀ call ∈ calls, run call = .ok (own call)) ∧
        t = calls.flatMap own := by
  constructor
  · intro hrun
    refine ⟨traceOf run, ?_⟩
    induction calls generalizing t with
    | nil => simpa [concatTraces, eq_comm] using hrun
    | cons call rest ih =>
        simp only [concatTraces] at hrun
        cases hcall : run call with
        | error e => simp [hcall] at hrun
        | ok first =>
            cases hrest : concatTraces run rest with
            | error e => simp [hcall, hrest] at hrun
            | ok others =>
                obtain ⟨hown, rfl⟩ := ih hrest
                have hfirst := traceOf_eq hcall
                simp only [hcall, hrest, Except.ok.injEq] at hrun
                refine ⟨List.forall_mem_cons.mpr ⟨by rw [hfirst, hcall], hown⟩, ?_⟩
                rw [List.flatMap_cons, hfirst, hrun]
  · rintro ⟨own, hown, rfl⟩
    induction calls with
    | nil => rfl
    | cons call rest ih =>
        obtain ⟨hcall, hrest⟩ := List.forall_mem_cons.mp hown
        simp only [concatTraces, hcall, ih hrest, List.flatMap_cons]

/-- A resolved call and the traces of the calls of its body, one level deeper. -/
def Trace.node (r : Resolution) (below : Trace) : Trace := ⟨0, r⟩ :: below.map (·.deepen 1)

/-! ## depths from entry to entry -/

/-- A trace starts at the top, and each entry is at most one level deeper than the one before
it. -/
structure Trace.Gradual (t : Trace) : Prop where
  top : ∀ e ∈ t.head?, e.depth = 0
  steps : t.IsChain fun e e' => e'.depth ≤ e.depth + 1

namespace Trace.Gradual

theorem append {t t' : Trace} (ht : t.Gradual) (ht' : t'.Gradual) : Gradual (t ++ t') where
  top := by
    intro e he
    rw [List.head?_append, Option.mem_def, Option.or_eq_some_iff] at he
    rcases he with he | ⟨-, he⟩
    · exact ht.top e he
    · exact ht'.top e he
  steps := by
    refine ht.steps.append ht'.steps fun e _ e' he' => ?_
    rw [ht'.top e' he']
    exact Nat.zero_le _

theorem flatMap {own : SelfCall → Trace} {calls : List SelfCall}
    (hown : ∀ call ∈ calls, (own call).Gradual) : Gradual (calls.flatMap own) := by
  induction calls with
  | nil => exact ⟨by simp, .nil⟩
  | cons call rest ih =>
      obtain ⟨hcall, hrest⟩ := List.forall_mem_cons.mp hown
      rw [List.flatMap_cons]
      exact hcall.append (ih hrest)

/-- What is gradual is gradual one level below a method. -/
theorem node {below : Trace} (hbelow : below.Gradual) (r : Resolution) :
    (Trace.node r below).Gradual where
  top := by simp [Trace.node]
  steps := by
    refine List.isChain_cons.mpr ⟨fun e he => ?_, ?_⟩
    · rw [List.head?_map, Option.mem_def, Option.map_eq_some_iff] at he
      obtain ⟨e', he', rfl⟩ := he
      have htop := hbelow.top e' he'
      change e'.depth + 1 ≤ 0 + 1
      omega
    · refine List.isChain_map_of_isChain _ (fun e e' hle => ?_) hbelow.steps
      exact Nat.succ_le_succ hle

end Trace.Gradual

namespace Hierarchy

variable {h : Hierarchy} {rule : LookupRule} {site : CallSite} {r : Resolution} {room : Nat}
  {t : Trace}

/-! ## the trace of one call -/

namespace WellFormed

variable (hwf : h.WellFormed) (habove : site.static ∈ h.ancestors site.runtime)

include hwf habove

/-- With room, a call has a trace if the calls of the body have traces with one level less. -/
theorem executeFrom_succ_eq_ok_iff (hres : h.resolve rule site = .ok r) :
    h.executeFrom rule (room + 1) 0 site = .ok t ↔ ∃ own : SelfCall → Trace,
      (∀ call ∈ r.method.body,
        h.executeFrom rule room 0 (call.site r.method site.runtime) = .ok (own call)) ∧
      t = .node r (r.method.body.flatMap own) := by
  have hdeeper : ∀ call : SelfCall,
      h.executeFrom rule room (0 + 1) (call.site r.method site.runtime) =
        deepen 1 (h.executeFrom rule room 0 (call.site r.method site.runtime)) :=
    fun call => hwf.executeFrom_add (hwf.inner_above habove hres call) 1
  rw [hwf.executeFrom_succ habove hres]
  simp only [hdeeper, concatTraces_deepen]
  constructor
  · intro hrun
    generalize hbelow : concatTraces _ r.method.body = x at hrun
    cases x with
    | error e => contradiction
    | ok below =>
        obtain ⟨own, hown, rfl⟩ := concatTraces_eq_ok_iff.mp hbelow
        exact ⟨own, hown, (Except.ok.inj hrun).symm⟩
  · rintro ⟨own, hown, rfl⟩
    rw [concatTraces_eq_ok_iff.mpr ⟨own, hown, rfl⟩]
    rfl

/-- **A call has a trace** exactly if it resolves, and either the method that runs has no calls or
there is room and its calls have traces with one level less; and then the trace is the method with
these traces below. -/
theorem executeFrom_eq_ok_iff :
    h.executeFrom rule room 0 site = .ok t ↔ ∃ r, ∃ own : SelfCall → Trace,
      h.resolve rule site = .ok r ∧ (r.method.body = [] ∨ 0 < room) ∧
      (∀ call ∈ r.method.body,
        h.executeFrom rule (room - 1) 0 (call.site r.method site.runtime) = .ok (own call)) ∧
      t = .node r (r.method.body.flatMap own) := by
  cases hres : h.resolve rule site with
  | error e =>
      rw [executeFrom_of_error hres]
      simp
  | ok r =>
      simp only [Except.ok.injEq, exists_and_left, exists_eq_left']
      cases room with
      | succ room =>
          rw [hwf.executeFrom_succ_eq_ok_iff habove hres]
          simp
      | zero =>
          rw [executeFrom_zero hres]
          cases hbody : r.method.body with
          | nil => simp [Trace.node, eq_comm]
          | cons call rest => simp

/-- **What holds of a trace whenever it holds of the traces below** holds of the trace of every
call that has one. -/
theorem trace_induction {P : Nat → CallSite → Trace → Prop}
    (node : ∀ room site r own, site.static ∈ h.ancestors site.runtime →
      h.resolve rule site = .ok r → (r.method.body = [] ∨ 0 < room) →
      (∀ call ∈ r.method.body, P (room - 1) (call.site r.method site.runtime) (own call)) →
      P room site (.node r (r.method.body.flatMap own)))
    (ht : h.executeFrom rule room 0 site = .ok t) : P room site t := by
  induction room generalizing site t with
  | zero =>
      obtain ⟨r, own, hres, hbody, -, rfl⟩ := (hwf.executeFrom_eq_ok_iff habove).mp ht
      have hbody := hbody.resolve_right (Nat.lt_irrefl 0)
      exact node 0 site r own habove hres (.inl hbody) (by simp [hbody])
  | succ room ih =>
      obtain ⟨r, own, hres, hroom, hown, rfl⟩ := (hwf.executeFrom_eq_ok_iff habove).mp ht
      refine node (room + 1) site r own habove hres hroom fun call hcall => ?_
      exact ih (hwf.inner_above habove hres call) (hown call hcall)

/-! ## depths -/

/-- No entry of a trace is deeper than the limit. -/
theorem depth_le_of_mem (ht : h.executeFrom rule room 0 site = .ok t) :
    ∀ e ∈ t, e.depth ≤ room := by
  refine hwf.trace_induction habove (P := fun room _ t => ∀ e ∈ t, e.depth ≤ room) ?_ ht
  intro room site r own _ _ hroom hbelow
  refine List.forall_mem_cons.mpr ⟨Nat.zero_le room, ?_⟩
  simp only [List.mem_map, List.mem_flatMap]
  rintro _ ⟨e, ⟨call, hcall, he⟩, rfl⟩
  have hpos : 0 < room := hroom.resolve_left (List.ne_nil_of_mem hcall)
  have hle := hbelow call hcall e he
  change e.depth + 1 ≤ room
  omega

/-- A trace starts at the top and goes down one level at a time. -/
theorem gradual (ht : h.executeFrom rule room 0 site = .ok t) : t.Gradual :=
  hwf.trace_induction habove (P := fun _ _ t => t.Gradual)
    (fun _ _ r _ _ _ _ hbelow => (Trace.Gradual.flatMap hbelow).node r) ht

end WellFormed

/-! ## every execution -/

/-- What the executions of a call under a limit have to do with those of the calls that it
makes. -/
structure RunsInPreorder (h : Hierarchy) (rule : LookupRule) (limit : Nat) (site : CallSite) :
    Prop where
  /-- A call has a trace exactly if it resolves and either its method has no calls, or the limit is
  not zero and the calls of the method can be made and have traces under the limit below; and
  then it is the method, followed by these traces one level deeper. -/
  ok_iff : ∀ t, h.execute ⟨rule, limit⟩ site = .ok t ↔ ∃ r, ∃ own : SelfCall → Trace,
    h.resolve rule site = .ok r ∧
    (r.method.body = [] ∨ 0 < limit ∧ ∀ call ∈ r.method.body, ∃ inner,
      CallSite.make h r.declaringClass site.runtime call.method call.args = .ok inner ∧
        h.execute ⟨rule, limit - 1⟩ inner = .ok (own call)) ∧
    t = .node r (r.method.body.flatMap own)
  depth_le : ∀ t, h.execute ⟨rule, limit⟩ site = .ok t → ∀ e ∈ t, e.depth ≤ limit
  gradual : ∀ t, h.execute ⟨rule, limit⟩ site = .ok t → t.Gradual
  /-- Counting the depth in a machine word, and writing to one trace, comes to the same. -/
  inPlace : limit < UInt64.size →
    h.executeInPlace rule (.ofNat limit) site = h.execute ⟨rule, limit⟩ site

/-- **A trace is the preorder of the calls that are made**, in every hierarchy that declarations
make, for every call that can be made, under both lookup rules and every limit. -/
theorem execute_preorder (hr : h.Reachable) {static runtime : ClassId} {name : String}
    {args : List Primitive} (hsite : CallSite.make h static runtime name args = .ok site)
    (rule : LookupRule) (limit : Nat) : h.RunsInPreorder rule limit site := by
  have hwf := hr.wellFormed
  have habove := (CallSite.of_make hsite).2
  refine ⟨fun t => ?_, fun t ht => hwf.depth_le_of_mem habove ht,
    fun t ht => hwf.gradual habove ht, fun hword => ?_⟩
  · rw [execute, hwf.executeFrom_eq_ok_iff habove]
    refine exists_congr fun r => exists_congr fun own => and_congr_right fun hres => ?_
    have hmake : ∀ call : SelfCall,
        CallSite.make h r.declaringClass site.runtime call.method call.args =
          .ok (call.site r.method site.runtime) := by
      intro call
      rw [declaringClass_of_resolve hres]
      exact CallSite.make_of_mem (hwf.runs_above habove hres).2
    simp only [hmake, Except.ok.injEq, exists_eq_left']
    rw [← and_assoc, and_congr_left_iff]
    intro _
    constructor
    · rintro ⟨hbody | hpos, hown⟩
      · exact .inl hbody
      · exact .inr ⟨hpos, hown⟩
    · rintro (hbody | ⟨hpos, hown⟩)
      · exact ⟨.inl hbody, by simp [hbody]⟩
      · exact ⟨.inr hpos, hown⟩
  · rw [executeInPlace_eq, UInt64.toNat_ofNat_of_lt' hword]

/-- A class whose `f()` calls `g()` and then `h()`, where `g()` calls `h()` as well; and a class
below it that overrides `h()`. -/
def nestedCalls : Hierarchy :=
  empty.afterAll
    [ .newClass "A" none, .newClass "B" (some "A"),
      .newMethod ⟨0⟩
        { name := "f", signature := ⟨[]⟩, kind := .plain, body := [⟨"g", []⟩, ⟨"h", []⟩] },
      .newMethod ⟨0⟩ { name := "g", signature := ⟨[]⟩, kind := .plain, body := [⟨"h", []⟩] },
      .newMethod ⟨0⟩ { name := "h", signature := ⟨[]⟩, kind := .virtual },
      .newMethod ⟨1⟩ { name := "h", signature := ⟨[]⟩, kind := .override } ]

/-- A limit of two levels is just enough for `f()`: its trace is `f()`, then that of `g()` and that
of `h()` below. -/
theorem execute_preorder_nestedCalls :
    ∃ site t, CallSite.make nestedCalls ⟨0⟩ ⟨1⟩ "f" [] = .ok site ∧
      nestedCalls.execute ⟨.atOverride, 2⟩ site = .ok t ∧
      t.map (fun e => (e.depth, e.call.method.name, e.call.declaringClass)) =
        [(0, "f", ⟨0⟩), (1, "g", ⟨0⟩), (2, "h", ⟨1⟩), (1, "h", ⟨1⟩)] ∧
      nestedCalls.RunsInPreorder .atOverride 2 site ∧
      nestedCalls.executeInPlace .atOverride 2 site = .ok t ∧
      ¬ ∃ t, nestedCalls.execute ⟨.atOverride, 1⟩ site = .ok t := by
  have hr : nestedCalls.Reachable := ⟨_, rfl⟩
  have hsite : CallSite.make nestedCalls ⟨0⟩ ⟨1⟩ "f" [] = .ok ⟨⟨0⟩, ⟨1⟩, "f", []⟩ := rfl
  have hpreorder := execute_preorder hr hsite .atOverride 2
  refine ⟨_, _, hsite, rfl, by decide, hpreorder, hpreorder.inPlace (by decide), ?_⟩
  rintro ⟨t, ht⟩
  contradiction

end Hierarchy

end LateBinding
