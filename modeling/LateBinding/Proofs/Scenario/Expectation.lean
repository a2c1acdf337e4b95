import LateBinding.Proofs.Execution.BodyCalls
import LateBinding.Proofs.Hierarchy.Names
import LateBinding.Proofs.Scenario.Results

/-!
# LateBinding.Proofs.Scenario.Expectation

Which methods meet an expectation.  The text that a call is expected to come to is compared with its
result text, and that is the qualified name of the method that runs.  So an expectation that names a
method is met by this one, and by the others that have the same qualified name; no failure meets it.
-/

namespace LateBinding

theorem LookupError.dot_notMem_kind (e : LookupError) : '.' ∉ e.kind.toList := by
  cases e with
  | noApplicable => exact (by decide : '.' ∉ "NoApplicableMethod".toList)
  | ambiguous => exact (by decide : '.' ∉ "AmbiguousOverload".toList)

/-- An expectation is met if it is the result text. -/
theorem RunEntry.meetsExpectation_iff {entry : RunEntry} {text : String}
    (hexpected : entry.expected = some text) :
    entry.meetsExpectation = true ↔ entry.report.resultText = text := by
  rw [meetsExpectation, hexpected]
  exact beq_iff_eq.trans eq_comm

namespace Hierarchy

variable {h : Hierarchy} {rule : LookupRule} {config : Config} {call : CallEntry}
  {site : CallSite} {entry : RunEntry} {m : Method}

/-! ## what a result text tells -/

/-- The result texts of a hierarchy tell its methods apart, as far as qualified names have one
reading, and from every failure. -/
structure ResultsIdentify (h : Hierarchy) : Prop where
  qualifiedName_eq_iff : ∀ m ∈ h.methods, ∀ m' ∈ h.methods,
    h.qualifiedName m = h.qualifiedName m' ↔ m = m' ∨ h.ReadsAlike m m'
  eq_of_dot_notMem :
    ((∀ c, '.' ∉ (h.className c).toList) ∨ ∀ m ∈ h.methods, '.' ∉ m.name.toList) →
    ∀ m ∈ h.methods, ∀ m' ∈ h.methods, h.qualifiedName m = h.qualifiedName m' → m = m'
  resultText_ne_kind : ∀ rule site r (e : LookupError), h.resolve rule site = .ok r →
    (h.report rule site).resultText ≠ e.kind

theorem Indexed.resultsIdentify (hix : h.Indexed) : h.ResultsIdentify where
  qualifiedName_eq_iff m hm m' hm' := hix.qualifiedName_eq_iff hm hm'
  eq_of_dot_notMem hdot m hm m' hm' heq :=
    ((hix.qualifiedName_eq_iff hm hm').mp heq).resolve_right
      (not_readsAlike_of_dot_notMem hdot hm hm')
  resultText_ne_kind rule site r e hres heq := by
    rw [resultText_of_resolve hres] at heq
    exact e.dot_notMem_kind (heq ▸ h.dot_mem_qualifiedName r.method)

/-! ## what meets an expectation -/

/-- This is the method that a call runs. -/
def Executes (h : Hierarchy) (rule : LookupRule) (call : CallEntry) (m : Method) : Prop :=
  ∃ site r, call.site h = .ok site ∧ h.resolve rule site = .ok r ∧ r.method = m

theorem executes_iff (hsite : call.site h = .ok site) :
    h.Executes rule call m ↔ ∃ r, h.resolve rule site = .ok r ∧ r.method = m := by
  simp [Executes, hsite]

/-- A call that is expected to come to the qualified name of a method meets this if it runs the
method, or another reading of the name. -/
structure MetAsExecuted (h : Hierarchy) (config : Config) (call : CallEntry) (entry : RunEntry) :
    Prop where
  met_iff : ∀ m ∈ h.methods, entry.expected = some (h.qualifiedName m) →
    (entry.meetsExpectation = true ↔
      ∃ x ∈ h.methods, h.Executes config.lookup call x ∧ (x = m ∨ h.ReadsAlike x m))
  met_iff_executes : ∀ m ∈ h.methods, entry.expected = some (h.qualifiedName m) →
    (∀ x ∈ h.methods, ¬ h.ReadsAlike x m) →
    (entry.meetsExpectation = true ↔ h.Executes config.lookup call m)

theorem WellFormed.meetsExpectation_iff (hwf : h.WellFormed) (hyields : h.Yields config call entry)
    (hm : m ∈ h.methods) (hexpected : entry.expected = some (h.qualifiedName m)) :
    entry.meetsExpectation = true ↔
      ∃ x ∈ h.methods, h.Executes config.lookup call x ∧ (x = m ∨ h.ReadsAlike x m) := by
  obtain ⟨site, hsite, rfl⟩ := hyields
  have habove := CallSite.Made.above (.ofNames hsite)
  rw [RunEntry.meetsExpectation_iff hexpected]
  simp only [executes_iff hsite]
  change (h.report config.lookup site).resultText = _ ↔ _
  cases hres : h.resolve config.lookup site with
  | error e =>
      have hkind : (h.report config.lookup site).resultText = e.kind := by rw [report, hres]; rfl
      have hne : e.kind ≠ h.qualifiedName m :=
        fun heq => e.dot_notMem_kind (heq ▸ h.dot_mem_qualifiedName m)
      simp [hkind, hne]
  | ok r =>
      have hr := (hwf.runs_above habove hres).1
      rw [resultText_of_resolve hres, hwf.indexed.qualifiedName_eq_iff hr hm]
      constructor
      · intro hreads
        exact ⟨r.method, hr, ⟨r, rfl, rfl⟩, hreads⟩
      · rintro ⟨x, -, ⟨r', hr', rfl⟩, hreads⟩
        obtain rfl := Except.ok.inj hr'
        exact hreads

theorem WellFormed.metAsExecuted (hwf : h.WellFormed) (hyields : h.Yields config call entry) :
    h.MetAsExecuted config call entry where
  met_iff m hm hexpected := hwf.meetsExpectation_iff hyields hm hexpected
  met_iff_executes m hm hexpected hunlike := by
    rw [hwf.meetsExpectation_iff hyields hm hexpected]
    constructor
    · rintro ⟨x, hx, hexecutes, rfl | halike⟩
      · exact hexecutes
      · exact absurd halike (hunlike x hx)
    · intro hexecutes
      exact ⟨m, hm, hexecutes, .inl rfl⟩

end Hierarchy

/-! ## every hierarchy and every run -/

/-- **A result text identifies the outcome, up to dots in names.**  In every hierarchy that
declarations make, different methods have different qualified names unless these are two readings
of one text, and no result of a call that resolves is a kind of failure.  So in every run of a
scenario, an expectation that is the qualified name of a method is met if this method runs, or
another reading of the name, and in no other case. -/
theorem results_identify :
    (∀ h : Hierarchy, h.Reachable → h.ResultsIdentify) ∧
      ∀ (s : Scenario) (config : Config) (r : Run), s.run config = .ok r →
        ∃ h, s.hierarchy = .ok h ∧ List.Forall₂ (h.MetAsExecuted config) s.calls r.entries := by
  refine ⟨fun h hr => hr.wellFormed.indexed.resultsIdentify, fun s config r hrun => ?_⟩
  obtain ⟨h, hbuild, hall⟩ := Scenario.run_eq_ok_iff.mp hrun
  have hwf := (Scenario.reachable_of_hierarchy hbuild).wellFormed
  exact ⟨h, hbuild, hall.imp fun call entry hyields => hwf.metAsExecuted hyields⟩

/-- Two classes, the second with a dot in its name and the first with a dot in the name of one of
its methods. -/
def Scenario.dottedNames : Scenario where
  classes :=
    [ { name := "A"
        methods :=
          [ { name := "B.f", signature := ⟨[]⟩, kind := .plain },
            { name := "f", signature := ⟨[]⟩, kind := .plain } ] },
      { name := "A.B"
        methods := [{ name := "f", signature := ⟨[]⟩, kind := .plain }] } ]
  calls :=
    [ { static := "A", method := "B.f", expect := some "A.B.f()" },
      { static := "A", method := "f", expect := some "A.f()" } ]

/-- What the scenario declares. -/
def Hierarchy.dottedNames : Hierarchy := Hierarchy.empty.afterAll Scenario.dottedNames.declarations

/-- The method without dots is the one that runs, as its qualified name tells. -/
theorem results_identify_dottedNames :
    Hierarchy.dottedNames.Reachable ∧ Hierarchy.dottedNames.ResultsIdentify ∧
      Scenario.dottedNames.hierarchy = .ok Hierarchy.dottedNames ∧
      ∃ r, Scenario.dottedNames.run {} = .ok r ∧
        ∃ call entry m, Scenario.dottedNames.calls[1]? = some call ∧ r.entries[1]? = some entry ∧
          m ∈ Hierarchy.dottedNames.methods ∧
          entry.expected = some (Hierarchy.dottedNames.qualifiedName m) ∧
          (∀ x ∈ Hierarchy.dottedNames.methods, ¬ Hierarchy.dottedNames.ReadsAlike x m) ∧
          entry.meetsExpectation = true ∧ Hierarchy.dottedNames.Executes .atOverride call m := by
  have hr : Hierarchy.dottedNames.Reachable := ⟨_, rfl⟩
  have hbuild : Scenario.dottedNames.hierarchy = .ok Hierarchy.dottedNames := rfl
  have hrun : Scenario.dottedNames.run {} = .ok _ := rfl
  obtain ⟨h, hbuild', hall⟩ := results_identify.2 Scenario.dottedNames {} _ hrun
  obtain rfl := Except.ok.inj (hbuild.symm.trans hbuild')
  have hm : (⟨{ name := "f", signature := ⟨[]⟩, kind := .plain }, ⟨1⟩, ⟨0⟩, none, none⟩ : Method) ∈
      Hierarchy.dottedNames.methods := by decide
  have hunlike : ∀ x ∈ Hierarchy.dottedNames.methods, ¬ Hierarchy.dottedNames.ReadsAlike x
      ⟨{ name := "f", signature := ⟨[]⟩, kind := .plain }, ⟨1⟩, ⟨0⟩, none, none⟩ := by
    intro x _ halike
    rcases halike.dot_mem with hclass | hname
    · exact absurd hclass (by decide)
    · exact absurd hname (by decide)
  have hlength : 1 < Scenario.dottedNames.calls.length := by decide
  have hentry := hall.get hlength (hall.length_eq ▸ hlength)
  exact ⟨hr, results_identify.1 _ hr, hbuild, _, hrun, _, _, _, rfl, rfl, hm, rfl, hunlike, rfl,
    (hentry.met_iff_executes _ hm rfl hunlike).mp rfl⟩

/-- **An expectation can be met by another method** that has the same qualified name, as in the run
of the call of the method with a dot in its name. -/
theorem met_by_other_dottedNames :
    Hierarchy.dottedNames.Reachable ∧
      Scenario.dottedNames.hierarchy = .ok Hierarchy.dottedNames ∧
      ∃ m ∈ Hierarchy.dottedNames.methods, ∃ m' ∈ Hierarchy.dottedNames.methods, m ≠ m' ∧
        Hierarchy.dottedNames.qualifiedName m = Hierarchy.dottedNames.qualifiedName m' ∧
        ∃ r call entry, Scenario.dottedNames.run {} = .ok r ∧
          Scenario.dottedNames.calls[0]? = some call ∧ r.entries[0]? = some entry ∧
          entry.expected = some (Hierarchy.dottedNames.qualifiedName m') ∧
          entry.meetsExpectation = true ∧ Hierarchy.dottedNames.Executes .atOverride call m ∧
          ¬ Hierarchy.dottedNames.Executes .atOverride call m' := by
  refine ⟨⟨_, rfl⟩, rfl,
    ⟨{ name := "B.f", signature := ⟨[]⟩, kind := .plain }, ⟨0⟩, ⟨0⟩, none, none⟩, by decide,
    ⟨{ name := "f", signature := ⟨[]⟩, kind := .plain }, ⟨2⟩, ⟨1⟩, none, none⟩, by decide,
    by decide, by decide, _, _, _, rfl, rfl, rfl, rfl, rfl, ⟨_, _, rfl, rfl, rfl⟩, ?_⟩
  rintro ⟨site, r, hsite, hres, hmethod⟩
  obtain rfl := Except.ok.inj hsite
  obtain rfl := Except.ok.inj hres
  contradiction

end LateBinding
