import Mathlib.Data.List.Forall2
import LateBinding.Proofs.CallSite
import LateBinding.Proofs.Execution.Steps
import LateBinding.Proofs.Scenario.Declarations

/-!
# LateBinding.Proofs.Scenario.Results

What the run of a scenario comes to: the cause of its first rejected declaration, or else the error
of its first call that cannot be made, or else one entry for each call.

The calls, their sites and their reports are put together by position, and a traced call is resolved
twice, for its report and for its trace.  So each entry is compared with the run of its call alone,
and its trace with its report.
-/

namespace LateBinding

variable {h : Hierarchy} {calls rest : List CallEntry} {call : CallEntry} {i n : Nat}
  {cause : CallSiteError} {e : ScenarioError}

/-! ## the calls that can be made -/

/-- The first call that is invalid: its place, and the cause. -/
structure LeastInvalid (h : Hierarchy) (calls : List CallEntry) (i : Nat) (cause : CallSiteError) :
    Prop where
  invalid : ∃ call, calls[i]? = some call ∧ call.Invalid h cause
  least : ∀ j < i, ∀ call, calls[j]? = some call → ∀ cause, ¬ call.Invalid h cause

theorem leastInvalid_zero_iff :
    LeastInvalid h (call :: rest) 0 cause ↔ call.Invalid h cause := by
  constructor
  · rintro ⟨⟨c, hc, hinvalid⟩, -⟩
    obtain rfl : call = c := Option.some.inj hc
    exact hinvalid
  · intro hinvalid
    exact ⟨⟨call, rfl, hinvalid⟩, fun j hj => absurd hj (Nat.not_lt_zero j)⟩

theorem leastInvalid_succ_iff :
    LeastInvalid h (call :: rest) (i + 1) cause ↔
      (∀ cause, ¬ call.Invalid h cause) ∧ LeastInvalid h rest i cause := by
  constructor
  · rintro ⟨hinvalid, hleast⟩
    exact ⟨hleast 0 (Nat.succ_pos i) call rfl, hinvalid,
      fun j hj => hleast (j + 1) (Nat.succ_lt_succ hj)⟩
  · rintro ⟨hvalid, hinvalid, hleast⟩
    refine ⟨hinvalid, fun j hj c hc => ?_⟩
    cases j with
    | zero =>
        obtain rfl : call = c := Option.some.inj hc
        exact hvalid
    | succ j => exact hleast j (Nat.lt_of_succ_lt_succ hj) c hc

/-- The first invalid call is the first of all; or that one is valid, and it is the first invalid
one of the others. -/
theorem exists_leastInvalid_cons_iff :
    (∃ i cause, LeastInvalid h (call :: rest) i cause ∧ e = .callSite (n + i) cause) ↔
      (∃ cause, call.Invalid h cause ∧ e = .callSite n cause) ∨
        (∀ cause, ¬ call.Invalid h cause) ∧
          ∃ i cause, LeastInvalid h rest i cause ∧ e = .callSite (n + 1 + i) cause := by
  constructor
  · rintro ⟨i, cause, hleast, rfl⟩
    cases i with
    | zero => exact .inl ⟨cause, leastInvalid_zero_iff.mp hleast, rfl⟩
    | succ i =>
        obtain ⟨hvalid, hrest⟩ := leastInvalid_succ_iff.mp hleast
        exact .inr ⟨hvalid, i, cause, hrest, by rw [Nat.add_right_comm]; rfl⟩
  · rintro (⟨cause, hinvalid, rfl⟩ | ⟨hvalid, i, cause, hrest, rfl⟩)
    · exact ⟨0, cause, leastInvalid_zero_iff.mpr hinvalid, rfl⟩
    · exact ⟨i + 1, cause, leastInvalid_succ_iff.mpr ⟨hvalid, hrest⟩,
        by rw [Nat.add_right_comm]; rfl⟩

/-- Call sites fail at the first invalid call. -/
theorem callSites_eq_error_iff (hwf : h.WellFormed) :
    callSites h n calls = .error e ↔
      ∃ i cause, LeastInvalid h calls i cause ∧ e = .callSite (n + i) cause := by
  induction calls generalizing n with
  | nil =>
      constructor
      · intro herr
        contradiction
      · rintro ⟨i, cause, ⟨⟨call, hcall, -⟩, -⟩, -⟩
        contradiction
  | cons call rest ih =>
      simp only [exists_leastInvalid_cons_iff, ← ih, ← CallEntry.site_eq_error_iff hwf, callSites]
      cases call.site h with
      | error cause => simp [eq_comm]
      | ok site => cases callSites h (n + 1) rest <;> simp

/-! ## results by position -/

namespace Hierarchy

/-- The reports of call sites: all are resolved first, then each site is put to the result in its
place. -/
def reports (h : Hierarchy) (rule : LookupRule) (sites : List CallSite) : List CallReport :=
  List.zipWith (fun site result => ⟨site.describe h, h.outcome result⟩) sites
    (sites.map (h.resolve rule))

/-- The entries of calls, put together from three lists: the calls, their sites and the reports. -/
def assembledEntries (h : Hierarchy) (config : Config) (calls : List CallEntry)
    (sites : List CallSite) : List RunEntry :=
  List.zipWith
    (fun call report =>
      ⟨report, call.1.expect, if call.1.trace then h.tracedLines config call.2 else []⟩)
    (calls.zip sites) (h.reports config.lookup sites)

/-- Put together from three lists, each entry is that of a call and its own site. -/
theorem assembledEntries_eq (h : Hierarchy) (config : Config) (calls : List CallEntry)
    (sites : List CallSite) :
    h.assembledEntries config calls sites = List.zipWith (h.runEntry config) calls sites := by
  induction calls generalizing sites with
  | nil => rfl
  | cons call rest ih =>
      cases sites with
      | nil => rfl
      | cons site sites => exact congrArg (h.runEntry config call site :: ·) (ih sites)

/-- The entry is what this call comes to, and the call can be made. -/
def Yields (h : Hierarchy) (config : Config) (call : CallEntry) (entry : RunEntry) : Prop :=
  ∃ site, call.site h = .ok site ∧ entry = h.runEntry config call site

/-- The entries of calls that can all be made are the entries of each. -/
theorem zipWith_callSites_eq_ok_iff {config : Config} {entries : List RunEntry} :
    (callSites h n calls).map (List.zipWith (h.runEntry config) calls) = .ok entries ↔
      List.Forall₂ (h.Yields config) calls entries := by
  induction calls generalizing n entries with
  | nil => simp [callSites, Except.map, eq_comm]
  | cons call rest ih =>
      rw [List.forall₂_cons_left_iff]
      simp only [callSites, ← @ih (n + 1), Yields]
      cases hsite : call.site h with
      | error cause => simp [Except.map]
      | ok site => cases callSites h (n + 1) rest <;> simp [Except.map, eq_comm]

end Hierarchy

/-! ## the result of a run -/

namespace Scenario

variable {s : Scenario} {config : Config} {r : Run} {entry : RunEntry}

theorem run_of_hierarchy (hbuild : s.hierarchy = .ok h) :
    s.run config = (callSites h 0 s.calls).map
      fun sites => ⟨List.zipWith (h.runEntry config) s.calls sites⟩ := by
  simp only [run, hbuild]
  cases callSites h 0 s.calls <;> rfl

/-- A run is stopped by a declaration if the hierarchy is. -/
theorem run_eq_declaration_iff {cause : DeclarationError} :
    s.run config = .error (.declaration cause) ↔ s.hierarchy = .error cause := by
  cases hbuild : s.hierarchy with
  | error e => simp [run, hbuild]
  | ok h =>
      rw [run_of_hierarchy hbuild]
      cases hsites : callSites h 0 s.calls with
      | ok sites => simp [Except.map]
      | error e =>
          have hwf := (reachable_of_hierarchy hbuild).wellFormed
          obtain ⟨i, cause, -, rfl⟩ := (callSites_eq_error_iff hwf).mp hsites
          simp [Except.map]

/-- A run is stopped by the first invalid call, once there is a hierarchy. -/
theorem run_eq_callSite_iff :
    s.run config = .error (.callSite i cause) ↔
      ∃ h, s.hierarchy = .ok h ∧ LeastInvalid h s.calls i cause := by
  cases hbuild : s.hierarchy with
  | error e => simp [run, hbuild]
  | ok h =>
      have hsites : s.run config = .error (.callSite i cause) ↔
          callSites h 0 s.calls = .error (.callSite i cause) := by
        rw [run_of_hierarchy hbuild]
        cases callSites h 0 s.calls <;> simp [Except.map]
      rw [hsites, callSites_eq_error_iff (reachable_of_hierarchy hbuild).wellFormed]
      simp

/-- A run comes to an end if there is a hierarchy and every call can be made, with the entry of each
call. -/
theorem run_eq_ok_iff :
    s.run config = .ok r ↔
      ∃ h, s.hierarchy = .ok h ∧ List.Forall₂ (h.Yields config) s.calls r.entries := by
  cases hbuild : s.hierarchy with
  | error e => simp [run, hbuild]
  | ok h =>
      obtain ⟨entries⟩ := r
      rw [run_of_hierarchy hbuild]
      simp only [Except.ok.injEq, exists_eq_left', ← Hierarchy.zipWith_callSites_eq_ok_iff (n := 0)]
      cases callSites h 0 s.calls <;> simp [Except.map]

/-- The entry at a place is that of the call at this place. -/
theorem yields_of_run (hrun : s.run config = .ok r) (hcall : s.calls[i]? = some call)
    (hentry : r.entries[i]? = some entry) :
    ∃ h, s.hierarchy = .ok h ∧ h.Yields config call entry := by
  obtain ⟨h, hbuild, hall⟩ := run_eq_ok_iff.mp hrun
  obtain ⟨hi, rfl⟩ := List.getElem?_eq_some_iff.mp hcall
  obtain ⟨hj, rfl⟩ := List.getElem?_eq_some_iff.mp hentry
  exact ⟨h, hbuild, hall.get hi hj⟩

/-- A run comes to an end exactly if there is a hierarchy in which no call is invalid. -/
theorem exists_run_eq_ok_iff :
    (∃ r, s.run config = .ok r) ↔
      ∃ h, s.hierarchy = .ok h ∧ ∀ call ∈ s.calls, ∀ cause, ¬ call.Invalid h cause := by
  simp only [run_eq_ok_iff]
  constructor
  · rintro ⟨r, h, hbuild, hall⟩
    refine ⟨h, hbuild, fun call hcall => ?_⟩
    rw [← CallEntry.exists_site_iff (reachable_of_hierarchy hbuild).wellFormed]
    obtain ⟨i, hi, rfl⟩ := List.getElem_of_mem hcall
    obtain ⟨site, hsite, -⟩ := hall.get hi (hall.length_eq ▸ hi)
    exact ⟨site, hsite⟩
  · rintro ⟨h, hbuild, hall⟩
    cases hrun : s.run config with
    | ok r => exact ⟨r, run_eq_ok_iff.mp hrun⟩
    | error e =>
        exfalso
        cases e with
        | declaration cause =>
            rw [run_eq_declaration_iff, hbuild] at hrun
            contradiction
        | callSite i cause =>
            obtain ⟨h', hbuild', ⟨call, hcall, hinvalid⟩, -⟩ := run_eq_callSite_iff.mp hrun
            obtain rfl := Except.ok.inj (hbuild.symm.trans hbuild')
            exact hall call (List.mem_of_getElem? hcall) cause hinvalid

end Scenario

/-! ## the trace of an entry -/

/-- The trace of an entry fits its call and its report: there is one if the call asks for it; it is
the failure of the call if the report is; and otherwise it starts with the method that the report
names, unless the execution fails further down, which is one line again. -/
structure RunEntry.TraceFits (call : CallEntry) (entry : RunEntry) : Prop where
  asked : entry.trace ≠ [] ↔ call.trace = true
  failed : ∀ kind message, entry.report.outcome = .failed kind message → call.trace = true →
    entry.trace = ["error: " ++ entry.report.call ++ ": " ++ message]
  resolved : ∀ className method signature dynamic,
    entry.report.outcome = .resolved className method signature dynamic → call.trace = true →
    (∃ below, entry.trace = entry.report.resultText :: below) ∨
      ∃ text, entry.trace = ["error: " ++ text]

namespace Hierarchy

variable {config : Config} {site : CallSite}

/-- A call that resolves has the name of the method that it runs as its result. -/
theorem resultText_of_resolve {rule : LookupRule} {r : Resolution}
    (hres : h.resolve rule site = .ok r) :
    (h.report rule site).resultText = h.qualifiedName r.method := by
  rw [report, hres]
  change h.className r.declaringClass ++ "." ++ r.method.name ++ r.method.signature.text = _
  rw [declaringClass_of_resolve hres, qualifiedName]

/-- The lines of a trace: of the failure of the call, of the failure further down, or of the method
that runs and then of those below. -/
theorem tracedLines_cases (h : Hierarchy) (config : Config) (site : CallSite) :
    (∃ e, h.resolve config.lookup site = .error e ∧
      h.tracedLines config site = ["error: " ++ (site.describe h ++ ": " ++ e.message)]) ∨
    ∃ r, h.resolve config.lookup site = .ok r ∧
      ((∃ below, h.tracedLines config site = h.qualifiedName r.method :: below) ∨
        ∃ text, h.tracedLines config site = ["error: " ++ text]) := by
  cases hres : h.resolve config.lookup site with
  | error e =>
      refine .inl ⟨e, rfl, ?_⟩
      rw [tracedLines, execute, executeFrom_of_error hres]
      rfl
  | ok r =>
      refine .inr ⟨r, rfl, ?_⟩
      cases hrun : h.execute config site with
      | error e => exact .inr ⟨e.message, by rw [tracedLines, hrun]⟩
      | ok t =>
          obtain ⟨r', below, hres', rfl⟩ := exists_of_executeFrom hrun
          obtain rfl : r = r' := Except.ok.inj (hres.symm.trans hres')
          exact .inl ⟨h.traceLines below, by rw [tracedLines, hrun]; rfl⟩

theorem trace_runEntry {call : CallEntry} (hasked : call.trace = true) :
    (h.runEntry config call site).trace = h.tracedLines config site := if_pos hasked

theorem traceFits_runEntry (h : Hierarchy) (config : Config) (call : CallEntry) (site : CallSite) :
    RunEntry.TraceFits call (h.runEntry config call site) where
  asked := by
    cases hasked : call.trace with
    | false => simp [runEntry, hasked]
    | true =>
        rw [trace_runEntry hasked]
        rcases h.tracedLines_cases config site with
          ⟨e, -, hline⟩ | ⟨r, -, ⟨below, hline⟩ | ⟨text, hline⟩⟩ <;> simp [hline]
  failed kind message houtcome hasked := by
    change h.outcome (h.resolve config.lookup site) = .failed kind message at houtcome
    rw [trace_runEntry hasked]
    rcases h.tracedLines_cases config site with ⟨e, hres, hline⟩ | ⟨r, hres, -⟩
    · rw [hres] at houtcome
      obtain ⟨-, rfl⟩ := Outcome.failed.inj houtcome
      rw [hline, String.append_assoc, String.append_assoc]
      rfl
    · rw [hres] at houtcome
      contradiction
  resolved className method signature dynamic houtcome hasked := by
    change h.outcome (h.resolve config.lookup site) = _ at houtcome
    rw [trace_runEntry hasked]
    rcases h.tracedLines_cases config site with ⟨e, hres, -⟩ | ⟨r, hres, hlines⟩
    · rw [hres] at houtcome
      contradiction
    · have htext : (h.runEntry config call site).report.resultText = h.qualifiedName r.method :=
        resultText_of_resolve hres
      rwa [htext]

end Hierarchy

/-! ## all or nothing -/

namespace Scenario

/-- The scenario with one of its calls alone. -/
def only (s : Scenario) (call : CallEntry) : Scenario := { s with calls := [call] }

/-- A run gives all results or none: the cause of the first rejected declaration if there is one, or
else the error of the first call that is invalid, or else an entry for each call, in order, the
same as if the call were the only one, with a trace that fits it.  Putting the entries together from
lists by position comes to the same. -/
structure AllOrNothing (s : Scenario) (config : Config) : Prop where
  rejected : ∀ cause, s.run config = .error (.declaration cause) ↔
    Hierarchy.empty.FirstRejects s.declarations cause
  invalid : ∀ i cause, s.run config = .error (.callSite i cause) ↔
    ∃ h, Hierarchy.empty.AcceptsAll s.declarations h ∧ LeastInvalid h s.calls i cause
  succeeds : (∃ r, s.run config = .ok r) ↔
    ∃ h, Hierarchy.empty.AcceptsAll s.declarations h ∧
      ∀ call ∈ s.calls, ∀ cause, ¬ call.Invalid h cause
  length_eq : ∀ r, s.run config = .ok r → r.entries.length = s.calls.length
  entries : ∀ r : Run, s.run config = .ok r → ∀ (i : Nat) call entry, s.calls[i]? = some call →
    r.entries[i]? = some entry →
    (s.only call).run config = .ok ⟨[entry]⟩ ∧ RunEntry.TraceFits call entry
  assembled : ∀ h sites, s.hierarchy = .ok h → callSites h 0 s.calls = .ok sites →
    s.run config = .ok ⟨h.assembledEntries config s.calls sites⟩

/-- **The run of a scenario is all or nothing**, and each of its entries is that of its own call. -/
theorem run_all_or_nothing (s : Scenario) (config : Config) : s.AllOrNothing config where
  rejected cause := run_eq_declaration_iff.trans hierarchy_eq_error_iff
  invalid i cause := by simp only [run_eq_callSite_iff, hierarchy_eq_ok_iff]
  succeeds := by simp only [exists_run_eq_ok_iff, hierarchy_eq_ok_iff]
  length_eq r hrun := by
    obtain ⟨h, -, hall⟩ := run_eq_ok_iff.mp hrun
    exact hall.length_eq.symm
  entries r hrun i call entry hcall hentry := by
    obtain ⟨h, hbuild, hyields⟩ := yields_of_run hrun hcall hentry
    refine ⟨run_eq_ok_iff.mpr ⟨h, hbuild, .cons hyields .nil⟩, ?_⟩
    obtain ⟨site, -, rfl⟩ := hyields
    exact h.traceFits_runEntry config call site
  assembled h sites hbuild hsites := by
    rw [run_of_hierarchy hbuild, hsites, Hierarchy.assembledEntries_eq]
    rfl

end Scenario

end LateBinding
