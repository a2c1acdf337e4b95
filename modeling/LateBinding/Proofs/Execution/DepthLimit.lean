import Mathlib.Logic.Function.Iterate
import LateBinding.Proofs.Execution.Steps

/-!
# LateBinding.Proofs.Execution.DepthLimit

What the limit on the depth of calls does to an execution.

The limit only cuts off: an execution that it does not end is the same under every higher
limit.  And it is exact as soon as it reaches the number of methods.  Whether a method is
cut off on a receiver depends on nothing but the room that is left, so each method has at
most one room that is the last to be too small for it.  A method whose last room is `n + 1`
calls one whose last room is `n`, which makes `n + 2` different methods.  So no method has a
last room of as many levels as there are methods, and one that is cut off there is cut off
everywhere: its execution runs through an endless chain of calls.
-/

namespace LateBinding

/-! ## executions that are cut off -/

/-- The execution ended at the limit on the depth of calls. -/
def CutOff (x : Except ExecutionError Trace) : Prop :=
  ∃ limit method, x = .error (.depthExceeded limit method)

section CutOff

variable {x : Except ExecutionError Trace} {run run' : SelfCall → Except ExecutionError Trace}
  {calls : List SelfCall}

theorem not_cutOff_of_ok {t : Trace} (hx : x = .ok t) : ¬ CutOff x := by simp [CutOff, hx]

theorem not_cutOff_of_unresolved {call : String} {cause : LookupError}
    (hx : x = .error (.unresolved call cause)) : ¬ CutOff x := by simp [CutOff, hx]

@[simp] theorem cutOff_depthExceeded (limit : Nat) (method : String) :
    CutOff (.error (.depthExceeded limit method)) := ⟨limit, method, rfl⟩

/-- A body that starts before others does not change whether they are cut off. -/
@[simp] theorem cutOff_map_cons (e : TraceEntry) : CutOff (x.map (e :: ·)) ↔ CutOff x := by
  cases x <;> simp [CutOff, Except.map]

@[simp] theorem cutOff_deepen (k : Nat) : CutOff (deepen k x) ↔ CutOff x := by
  rcases x with (_ | _ | _) | _ <;> simp [CutOff, deepen, ExecutionError.deepen]

/-- Several calls are cut off at the first that has no trace. -/
theorem cutOff_concatTraces_iff :
    CutOff (concatTraces run calls) ↔ ∃ before call after, calls = before ++ call :: after ∧
      (∀ b ∈ before, ∃ t, run b = .ok t) ∧ CutOff (run call) := by
  constructor
  · rintro ⟨limit, method, herr⟩
    obtain ⟨before, call, after, hcalls, hbefore, hcall⟩ := concatTraces_eq_error_iff.mp herr
    exact ⟨before, call, after, hcalls, hbefore, limit, method, hcall⟩
  · rintro ⟨before, call, after, hcalls, hbefore, limit, method, hcall⟩
    exact ⟨limit, method,
      concatTraces_eq_error_iff.mpr ⟨before, call, after, hcalls, hbefore, hcall⟩⟩

/-- Calls that have traces or are cut off, and one that is cut off after them, are cut off
together. -/
theorem cutOff_concatTraces_of_before {before after : List SelfCall} {call : SelfCall}
    (hbefore : ∀ b ∈ before, (∃ t, run b = .ok t) ∨ CutOff (run b)) (hcall : CutOff (run call)) :
    CutOff (concatTraces run (before ++ call :: after)) := by
  induction before with
  | nil => exact cutOff_concatTraces_iff.mpr ⟨[], call, after, rfl, by simp, hcall⟩
  | cons b before ih =>
      obtain ⟨hb, hbefore⟩ := List.forall_mem_cons.mp hbefore
      rcases hb with ⟨t, ht⟩ | hb
      · obtain ⟨first, c, rest, hsplit, hfirst, hc⟩ := cutOff_concatTraces_iff.mp (ih hbefore)
        refine cutOff_concatTraces_iff.mpr ⟨b :: first, c, rest, ?_,
          List.forall_mem_cons.mpr ⟨⟨t, ht⟩, hfirst⟩, hc⟩
        rw [List.cons_append, hsplit, List.cons_append]
      · exact cutOff_concatTraces_iff.mpr ⟨[], b, before ++ call :: after, rfl, by simp, hb⟩

section Extends

variable (hext : ∀ call, ¬ CutOff (run call) → run' call = run call)

include hext

/-- If the calls that are not cut off stay as they are, several calls that are not cut off
do. -/
theorem concatTraces_extends (hcut : ¬ CutOff (concatTraces run calls)) :
    concatTraces run' calls = concatTraces run calls := by
  induction calls with
  | nil => rfl
  | cons call rest ih =>
      simp only [concatTraces] at hcut ⊢
      cases hcall : run call with
      | error e =>
          simp only [hcall] at hcut
          rw [hext call (by rwa [hcall]), hcall]
      | ok first =>
          rw [hext call (not_cutOff_of_ok hcall), hcall]
          have hrest : ¬ CutOff (concatTraces run rest) := by
            rintro ⟨limit, method, hrest⟩
            simp [hcall, hrest] at hcut
          simp only [ih hrest]

/-- If several calls are no longer cut off, there is one among them that is no longer cut
off. -/
theorem exists_of_no_longer_cutOff (hcut : CutOff (concatTraces run calls))
    (hcut' : ¬ CutOff (concatTraces run' calls)) :
    ∃ call, CutOff (run call) ∧ ¬ CutOff (run' call) := by
  obtain ⟨before, call, after, rfl, hbefore, hcall⟩ := cutOff_concatTraces_iff.mp hcut
  refine ⟨call, hcall, fun hcall' => hcut' (cutOff_concatTraces_iff.mpr
    ⟨before, call, after, rfl, fun b hb => ?_, hcall'⟩)⟩
  obtain ⟨t, ht⟩ := hbefore b hb
  exact ⟨t, (hext b (not_cutOff_of_ok ht)).trans ht⟩

end Extends

end CutOff

namespace Hierarchy

variable {h : Hierarchy} {rule : LookupRule} {site site' : CallSite} {r r' : Resolution}
  {room room' depth limit : Nat} {m : Method} {runtime : ClassId}

/-! ## more room -/

namespace WellFormed

variable (hwf : h.WellFormed) (habove : site.static ∈ h.ancestors site.runtime)

include hwf habove

/-- With room, a method is cut off if the calls of its body are. -/
theorem cutOff_succ_iff (hres : h.resolve rule site = .ok r) :
    CutOff (h.executeFrom rule (room + 1) depth site) ↔ CutOff (concatTraces
      (fun call => h.executeFrom rule room (depth + 1) (call.site r.method site.runtime))
      r.method.body) := by
  rw [hwf.executeFrom_succ habove hres, cutOff_map_cons]

/-- **The limit only cuts off**: an execution that is not cut off is the same with more
room. -/
theorem executeFrom_mono (hcut : ¬ CutOff (h.executeFrom rule room depth site))
    (hle : room ≤ room') :
    h.executeFrom rule room' depth site = h.executeFrom rule room depth site := by
  induction room generalizing depth site room' with
  | zero =>
      cases hres : h.resolve rule site with
      | error e => rw [executeFrom_of_error hres, executeFrom_of_error hres]
      | ok r =>
          cases hbody : r.method.body with
          | nil => rw [executeFrom_of_nil hres hbody, executeFrom_of_nil hres hbody]
          | cons call rest => simp [executeFrom_zero hres, hbody] at hcut
  | succ room ih =>
      cases hres : h.resolve rule site with
      | error e => rw [executeFrom_of_error hres, executeFrom_of_error hres]
      | ok r =>
          obtain ⟨room', rfl⟩ : ∃ n, room' = n + 1 := ⟨room' - 1, by omega⟩
          rw [hwf.cutOff_succ_iff habove hres] at hcut
          rw [hwf.executeFrom_succ habove hres, hwf.executeFrom_succ habove hres]
          rw [concatTraces_extends (fun call hcall =>
            ih (hwf.inner_above habove hres call) hcall (Nat.le_of_succ_le_succ hle)) hcut]

/-- Under limits that do not cut it off, an execution is the same. -/
theorem executeFrom_unique (hcut : ¬ CutOff (h.executeFrom rule room depth site))
    (hcut' : ¬ CutOff (h.executeFrom rule room' depth site)) :
    h.executeFrom rule room depth site = h.executeFrom rule room' depth site := by
  rcases Nat.le_total room room' with hle | hle
  · exact (hwf.executeFrom_mono habove hcut hle).symm
  · exact hwf.executeFrom_mono habove hcut' hle

/-- What is cut off is cut off with less room. -/
theorem cutOff_of_le (hcut : CutOff (h.executeFrom rule room' depth site)) (hle : room ≤ room') :
    CutOff (h.executeFrom rule room depth site) := by
  refine Classical.byContradiction fun hnot => hnot ?_
  rwa [hwf.executeFrom_mono habove hnot hle] at hcut

/-- Whether an execution is cut off does not depend on the depth at which it starts. -/
theorem cutOff_depth_iff :
    CutOff (h.executeFrom rule room depth site) ↔ CutOff (h.executeFrom rule room 0 site) := by
  rw [hwf.executeFrom_eq_deepen habove, cutOff_deepen]

/-- Whether an execution is cut off depends only on the method that runs, on the receiver and
on the room. -/
theorem cutOff_iff_of_same_method (habove' : site'.static ∈ h.ancestors site'.runtime)
    (hres : h.resolve rule site = .ok r) (hres' : h.resolve rule site' = .ok r')
    (hruntime : site'.runtime = site.runtime) (hmethod : r'.method = r.method) :
    CutOff (h.executeFrom rule room depth site') ↔ CutOff (h.executeFrom rule room depth site) := by
  cases room with
  | zero =>
      rw [executeFrom_zero hres, executeFrom_zero hres', hmethod]
      split
      · exact iff_of_false (not_cutOff_of_ok rfl) (not_cutOff_of_ok rfl)
      · exact Iff.rfl
  | succ room =>
      rw [hwf.cutOff_succ_iff habove hres, hwf.cutOff_succ_iff habove' hres', hruntime, hmethod]

end WellFormed

/-! ## the last room that is too small -/

/-- On a receiver, so many levels are the last that are too few for a method. -/
def LastTooSmall (h : Hierarchy) (rule : LookupRule) (runtime : ClassId) (room : Nat)
    (m : Method) : Prop :=
  ∃ site r, site.static ∈ h.ancestors site.runtime ∧ site.runtime = runtime ∧
    h.resolve rule site = .ok r ∧ r.method = m ∧ CutOff (h.executeFrom rule room 0 site) ∧
    ¬ CutOff (h.executeFrom rule (room + 1) 0 site)

/-- Only for a call that resolves there is a last room that is too small. -/
theorem LastTooSmall.of_cutOff (habove : site.static ∈ h.ancestors site.runtime)
    (hcut : CutOff (h.executeFrom rule room 0 site))
    (henough : ¬ CutOff (h.executeFrom rule (room + 1) 0 site)) :
    ∃ m, h.LastTooSmall rule site.runtime room m := by
  cases hres : h.resolve rule site with
  | error e => exact absurd hcut (not_cutOff_of_unresolved (executeFrom_of_error hres))
  | ok r => exact ⟨r.method, site, r, habove, rfl, hres, rfl, hcut, henough⟩

namespace WellFormed

variable (hwf : h.WellFormed)

include hwf

/-- A method has at most one last room that is too small. -/
theorem lastTooSmall_le (hlast : h.LastTooSmall rule runtime room m)
    (hlast' : h.LastTooSmall rule runtime room' m) : room ≤ room' := by
  obtain ⟨site, r, habove, hruntime, hres, hm, hcut, -⟩ := hlast
  obtain ⟨site', r', habove', hruntime', hres', hm', -, henough'⟩ := hlast'
  have hsame : CutOff (h.executeFrom rule room 0 site) ↔ CutOff (h.executeFrom rule room 0 site') :=
    hwf.cutOff_iff_of_same_method habove' habove hres' hres (hruntime.trans hruntime'.symm)
      (hm.trans hm'.symm)
  exact Nat.le_of_not_lt fun hlt => henough' (hwf.cutOff_of_le habove' (hsame.mp hcut) hlt)

/-- A method for which at least one level is too few makes a call that runs one whose last
room is one level smaller. -/
theorem exists_lastTooSmall (hlast : h.LastTooSmall rule runtime (room + 1) m) :
    ∃ m', h.LastTooSmall rule runtime room m' := by
  obtain ⟨site, r, habove, rfl, hres, -, hcut, henough⟩ := hlast
  rw [hwf.cutOff_succ_iff habove hres] at hcut henough
  obtain ⟨call, hcall, hcall'⟩ := exists_of_no_longer_cutOff (fun call hcall =>
    hwf.executeFrom_mono (hwf.inner_above habove hres call) hcall (Nat.le_succ room)) hcut henough
  have hinner := hwf.inner_above habove hres call
  rw [hwf.cutOff_depth_iff hinner] at hcall hcall'
  have hlast' := LastTooSmall.of_cutOff hinner hcall hcall'
  exact hlast'

/-- Together with the methods that it calls, a method with a last room of `n` levels makes
`n + 1` different ones. -/
theorem exists_methods_of_lastTooSmall (hlast : h.LastTooSmall rule runtime room m) :
    ∃ ms : List Method, ms.length = room + 1 ∧ ms.Nodup ∧
      ∀ x ∈ ms, ∃ n ≤ room, h.LastTooSmall rule runtime n x := by
  induction room generalizing m with
  | zero => exact ⟨[m], rfl, by simp, by simpa using hlast⟩
  | succ room ih =>
      obtain ⟨m', hm'⟩ := hwf.exists_lastTooSmall hlast
      obtain ⟨ms, hlength, hnodup, hms⟩ := ih hm'
      refine ⟨m :: ms, by rw [List.length_cons, hlength],
        List.nodup_cons.mpr ⟨fun hmem => ?_, hnodup⟩,
        List.forall_mem_cons.mpr ⟨⟨room + 1, Nat.le_refl _, hlast⟩, fun x hx => ?_⟩⟩
      · obtain ⟨n, hn, hlast'⟩ := hms m hmem
        have hle := hwf.lastTooSmall_le hlast hlast'
        omega
      · obtain ⟨n, hn, hx⟩ := hms x hx
        exact ⟨n, Nat.le_succ_of_le hn, hx⟩

/-- A last room that is too small is smaller than the number of methods. -/
theorem room_lt_of_lastTooSmall (hlast : h.LastTooSmall rule runtime room m) :
    room < h.methods.length := by
  obtain ⟨ms, hlength, hnodup, hms⟩ := hwf.exists_methods_of_lastTooSmall hlast
  have hknown : ms ⊆ h.methods := by
    intro x hx
    obtain ⟨n, -, site, r, habove, -, hres, rfl, -⟩ := hms x hx
    exact (hwf.runs_above habove hres).1
  have hle := hnodup.length_le_of_subset hknown
  omega

variable (habove : site.static ∈ h.ancestors site.runtime)

include habove

/-- **The limit is exact from the number of methods on**: what is cut off there is cut off
under every limit. -/
theorem cutOff_of_length_le (hcut : CutOff (h.executeFrom rule room 0 site))
    (hlength : h.methods.length ≤ room) : CutOff (h.executeFrom rule room' 0 site) := by
  induction room' with
  | zero => exact hwf.cutOff_of_le habove hcut (Nat.zero_le room)
  | succ room' ih =>
      -- the first level that is enough would follow a last one that is not
      refine Classical.byContradiction fun henough => ?_
      obtain ⟨m, hlast⟩ := LastTooSmall.of_cutOff habove ih henough
      have hlt := hwf.room_lt_of_lastTooSmall hlast
      exact henough (hwf.cutOff_of_le habove hcut (by omega))

end WellFormed

/-! ## executions that never end -/

/-- A call runs into another one: the body of its method makes that call on the receiver,
after calls that all end with a trace. -/
def RunsInto (h : Hierarchy) (rule : LookupRule) (site inner : CallSite) : Prop :=
  ∃ r before call after, h.resolve rule site = .ok r ∧ r.method.body = before ++ call :: after ∧
    (∀ b ∈ before, ∃ limit t, h.execute ⟨rule, limit⟩ (b.site r.method site.runtime) = .ok t) ∧
    inner = call.site r.method site.runtime

/-- The execution of a call never ends: it runs from call into call without end. -/
def NeverEnds (h : Hierarchy) (rule : LookupRule) (site : CallSite) : Prop :=
  ∃ chain : Nat → CallSite, chain 0 = site ∧ ∀ i, h.RunsInto rule (chain i) (chain (i + 1))

/-- If from every element with a property a step leads to another one with it, then so does a
chain of steps without end. -/
theorem exists_chain {α : Type} {P : α → Prop} {R : α → α → Prop} {a : α}
    (hstep : ∀ a, P a → ∃ b, R a b ∧ P b) (ha : P a) :
    ∃ chain : Nat → α, chain 0 = a ∧ ∀ i, R (chain i) (chain (i + 1)) := by
  have hnext : ∀ a : { a // P a }, ∃ b : { a // P a }, R a.1 b.1 := by
    rintro ⟨a, ha⟩
    obtain ⟨b, hab, hb⟩ := hstep a ha
    exact ⟨⟨b, hb⟩, hab⟩
  obtain ⟨next, hnext⟩ := Classical.axiomOfChoice hnext
  refine ⟨fun i => (next^[i] ⟨a, ha⟩).1, rfl, fun i => ?_⟩
  show R (next^[i] _).1 (next^[i + 1] _).1
  rw [Function.iterate_succ_apply']
  exact hnext _

/-- A call that runs into another one resolves to a method with calls. -/
theorem RunsInto.cutOff_zero {inner : CallSite} (hinto : h.RunsInto rule site inner) :
    CutOff (h.executeFrom rule 0 0 site) := by
  obtain ⟨r, before, call, after, hres, hbody, -, -⟩ := hinto
  simp [executeFrom_zero hres, hbody]

namespace WellFormed

variable (hwf : h.WellFormed) (habove : site.static ∈ h.ancestors site.runtime)

include hwf habove

/-- What is cut off with as many levels as there are methods runs into such a call. -/
theorem exists_runsInto (hcut : CutOff (h.execute ⟨rule, h.methods.length⟩ site)) :
    ∃ inner, h.RunsInto rule site inner ∧ inner.static ∈ h.ancestors inner.runtime ∧
      CutOff (h.execute ⟨rule, h.methods.length⟩ inner) := by
  have hmore : CutOff (h.executeFrom rule (h.methods.length + 1) 0 site) :=
    hwf.cutOff_of_length_le habove hcut (Nat.le_refl _)
  cases hres : h.resolve rule site with
  | error e => exact absurd hmore (not_cutOff_of_unresolved (executeFrom_of_error hres))
  | ok r =>
      rw [hwf.cutOff_succ_iff habove hres] at hmore
      obtain ⟨before, call, after, hbody, hbefore, hcall⟩ := cutOff_concatTraces_iff.mp hmore
      have hinner := hwf.inner_above habove hres
      refine ⟨_, ⟨r, before, call, after, hres, hbody, fun b hb => ?_, rfl⟩, hinner call,
        (hwf.cutOff_depth_iff (hinner call)).mp hcall⟩
      obtain ⟨t, ht⟩ := hbefore b hb
      rw [hwf.executeFrom_eq_deepen (hinner b)] at ht
      exact ⟨h.methods.length, deepen_eq_ok_iff.mp ⟨t, ht⟩⟩

/-- A call that runs into one that is cut off is cut off one level higher. -/
theorem cutOff_of_runsInto {inner : CallSite} (hinto : h.RunsInto rule site inner)
    (hcut : CutOff (h.executeFrom rule room 0 inner)) :
    CutOff (h.executeFrom rule (room + 1) 0 site) := by
  obtain ⟨r, before, call, after, hres, hbody, hbefore, rfl⟩ := hinto
  have hinner := hwf.inner_above habove hres
  rw [hwf.cutOff_succ_iff habove hres, hbody]
  refine cutOff_concatTraces_of_before (fun b hb => ?_)
    ((hwf.cutOff_depth_iff (hinner call)).mpr hcut)
  by_cases hb' : CutOff (h.executeFrom rule room 0 (b.site r.method site.runtime))
  · exact .inr ((hwf.cutOff_depth_iff (hinner b)).mpr hb')
  · -- under some limit it ends with a trace, so under every one that does not cut it off
    obtain ⟨limit, t, ht⟩ := hbefore b hb
    have ht : h.executeFrom rule limit 0 (b.site r.method site.runtime) = .ok t := ht
    have hsame := hwf.executeFrom_unique (hinner b) hb' (not_cutOff_of_ok ht)
    rw [hwf.executeFrom_eq_deepen (hinner b)]
    exact .inl (deepen_eq_ok_iff.mpr ⟨t, hsame.trans ht⟩)

/-- A call that runs into another one leads to a class above the runtime type. -/
theorem above_of_runsInto {inner : CallSite} (hinto : h.RunsInto rule site inner) :
    inner.static ∈ h.ancestors inner.runtime := by
  obtain ⟨r, before, call, after, hres, -, -, rfl⟩ := hinto
  exact hwf.inner_above habove hres call

/-- What never ends is cut off under every limit. -/
theorem cutOff_of_neverEnds (hnever : h.NeverEnds rule site) :
    CutOff (h.executeFrom rule room 0 site) := by
  obtain ⟨chain, rfl, hchain⟩ := hnever
  have habove' : ∀ i, (chain i).static ∈ h.ancestors (chain i).runtime := by
    intro i
    induction i with
    | zero => exact habove
    | succ i ih => exact hwf.above_of_runsInto ih (hchain i)
  have hcut : ∀ i, CutOff (h.executeFrom rule room 0 (chain i)) := by
    induction room with
    | zero => exact fun i => (hchain i).cutOff_zero
    | succ room ih => exact fun i => hwf.cutOff_of_runsInto (habove' i) (hchain i) (ih (i + 1))
  exact hcut 0

/-- What is cut off with as many levels as there are methods never ends. -/
theorem neverEnds_of_cutOff (hcut : CutOff (h.execute ⟨rule, h.methods.length⟩ site)) :
    h.NeverEnds rule site := by
  refine exists_chain (P := fun site => site.static ∈ h.ancestors site.runtime ∧
    CutOff (h.execute ⟨rule, h.methods.length⟩ site)) ?_ ⟨habove, hcut⟩
  rintro site ⟨habove, hcut⟩
  exact hwf.exists_runsInto habove hcut

end WellFormed

/-! ## limits -/

/-- What the limit on the depth of calls does to the execution of a call. -/
structure LimitCutsOff (h : Hierarchy) (rule : LookupRule) (site : CallSite) : Prop where
  /-- An execution that is not cut off ends with a trace or at a call that does not resolve. -/
  ends : ∀ limit, ¬ CutOff (h.execute ⟨rule, limit⟩ site) →
    (∃ t, h.execute ⟨rule, limit⟩ site = .ok t) ∨
      ∃ call cause, h.execute ⟨rule, limit⟩ site = .error (.unresolved call cause)
  /-- One that is cut off names the limit and the method that would run too deep. -/
  exceeded : ∀ limit, CutOff (h.execute ⟨rule, limit⟩ site) → ∃ m ∈ h.methods,
    h.execute ⟨rule, limit⟩ site = .error (.depthExceeded limit (h.qualifiedName m))
  /-- A higher limit changes nothing about an execution that is not cut off. -/
  stable : ∀ limit limit', ¬ CutOff (h.execute ⟨rule, limit⟩ site) → limit ≤ limit' →
    h.execute ⟨rule, limit'⟩ site = h.execute ⟨rule, limit⟩ site
  /-- A limit of the number of methods cuts off only what every limit cuts off. -/
  exact : ∀ limit, h.methods.length ≤ limit → CutOff (h.execute ⟨rule, limit⟩ site) →
    ∀ limit', CutOff (h.execute ⟨rule, limit'⟩ site)
  /-- A limit of the number of methods cuts off exactly what never ends. -/
  endless : ∀ limit, h.methods.length ≤ limit →
    (CutOff (h.execute ⟨rule, limit⟩ site) ↔ h.NeverEnds rule site)

/-- **The limit only cuts off, and is exact from the number of methods on**, in every
hierarchy that declarations make, for every call that can be made. -/
theorem execute_limit (hr : h.Reachable) {static runtime : ClassId} {name : String}
    {args : List Primitive} (hsite : CallSite.make h static runtime name args = .ok site) :
    h.LimitCutsOff rule site := by
  have hwf := hr.wellFormed
  have habove := (CallSite.of_make hsite).2
  constructor
  · intro limit hcut
    rcases hwf.execute_cases habove limit with ht | he | ⟨m, -, he⟩
    · exact .inl ht
    · exact .inr he
    · exact absurd ⟨limit, _, he⟩ hcut
  · intro limit hcut
    rcases hwf.execute_cases habove limit with ⟨t, ht⟩ | ⟨_, _, he⟩ | he
    · exact absurd hcut (not_cutOff_of_ok ht)
    · exact absurd hcut (not_cutOff_of_unresolved he)
    · exact he
  · exact fun limit limit' hcut hle => hwf.executeFrom_mono habove hcut hle
  · exact fun limit hlength hcut limit' => hwf.cutOff_of_length_le habove hcut hlength
  · intro limit hlength
    constructor
    · exact fun hcut => hwf.neverEnds_of_cutOff habove
        (hwf.cutOff_of_length_le habove hcut hlength)
    · exact fun hnever => hwf.cutOff_of_neverEnds habove hnever

/-- Two classes.  The first has a `run()` that calls its `step()`, and the second overrides
`step()` by a method that calls `stop()` and then `run()` again. -/
def runAndStep : Hierarchy :=
  empty.afterAll
    [ .newClass "A" none, .newClass "B" (some "A"),
      .newMethod ⟨0⟩ { name := "step", signature := ⟨[]⟩, kind := .virtual },
      .newMethod ⟨0⟩ { name := "run", signature := ⟨[]⟩, kind := .plain, body := [⟨"step", []⟩] },
      .newMethod ⟨1⟩ { name := "stop", signature := ⟨[]⟩, kind := .plain },
      .newMethod ⟨1⟩
        { name := "step", signature := ⟨[]⟩, kind := .override,
          body := [⟨"stop", []⟩, ⟨"run", []⟩] } ]

/-- On an object of the first class `run()` ends under every limit but the lowest, and on one
of the second it never ends. -/
theorem execute_limit_runAndStep :
    runAndStep.Reachable ∧
      (∃ t, ∀ limit, 1 ≤ limit →
        runAndStep.execute ⟨.atOverride, limit⟩ ⟨⟨0⟩, ⟨0⟩, "run", []⟩ = .ok t) ∧
      runAndStep.NeverEnds .atOverride ⟨⟨0⟩, ⟨1⟩, "run", []⟩ ∧
      ∀ limit, CutOff (runAndStep.execute ⟨.atOverride, limit⟩ ⟨⟨0⟩, ⟨1⟩, "run", []⟩) := by
  have hr : runAndStep.Reachable := ⟨_, rfl⟩
  have hfirst : CallSite.make runAndStep ⟨0⟩ ⟨0⟩ "run" [] = .ok ⟨⟨0⟩, ⟨0⟩, "run", []⟩ := rfl
  have hsecond : CallSite.make runAndStep ⟨0⟩ ⟨1⟩ "run" [] = .ok ⟨⟨0⟩, ⟨1⟩, "run", []⟩ := rfl
  have hcut : CutOff (runAndStep.execute ⟨.atOverride, 4⟩ ⟨⟨0⟩, ⟨1⟩, "run", []⟩) := ⟨_, _, rfl⟩
  obtain ⟨t, ht⟩ : ∃ t, runAndStep.execute ⟨.atOverride, 1⟩ ⟨⟨0⟩, ⟨0⟩, "run", []⟩ = .ok t :=
    ⟨_, rfl⟩
  refine ⟨hr, ⟨t, fun limit hle => ?_⟩, ((execute_limit hr hsecond).endless 4 (by decide)).mp hcut,
    (execute_limit hr hsecond).exact 4 (by decide) hcut⟩
  rw [(execute_limit hr hfirst).stable 1 limit (not_cutOff_of_ok ht) hle, ht]

end Hierarchy

end LateBinding
