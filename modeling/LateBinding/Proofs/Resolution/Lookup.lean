import LateBinding.Resolution
import LateBinding.Proofs.Hierarchy.WellFormed

/-!
# LateBinding.Proofs.Resolution.Lookup

The first step of a resolution: the candidates of a class, the overload set that
is visible from a class, and what static lookup picks from it.
-/

namespace LateBinding

/-! ## selection -/

namespace Overload

variable {name : String} {args : List Primitive} {candidates : List Method} {m : Method}

theorem mem_of_mem_maximal {among : List Method} (hm : m ∈ maximal among) : m ∈ among :=
  (List.mem_filter.mp hm).1

/-- The maximal ones of the candidates that accept the arguments. -/
def contenders (args : List Primitive) (candidates : List Method) : List Method :=
  maximal (candidates.filter (·.isApplicable args))

/-- A contender is a candidate that accepts the arguments. -/
theorem of_mem_contenders (hm : m ∈ contenders args candidates) :
    m ∈ candidates ∧ m.isApplicable args = true :=
  List.mem_filter.mp (mem_of_mem_maximal hm)

/-- What is picked is the only contender. -/
theorem contenders_of_select (hsel : select name args candidates = .ok m) :
    contenders args candidates = [m] := by
  simp only [select] at hsel
  split at hsel
  · contradiction
  · split at hsel
    · next m' hmax => rw [contenders, hmax, Except.ok.inj hsel]
    · contradiction

/-- What is picked is a candidate that accepts the arguments. -/
theorem applicable_of_select (hsel : select name args candidates = .ok m) :
    m ∈ candidates ∧ m.isApplicable args = true :=
  of_mem_contenders (by simp [contenders_of_select hsel])

/-- A single candidate is picked exactly if it accepts the arguments. -/
theorem select_singleton (name : String) (args : List Primitive) (m : Method) :
    select name args [m] = if m.isApplicable args then .ok m
      else .error (.noApplicable name args (some m.owner) [m]) := by
  cases happ : m.isApplicable args with
  | false => simp [select, happ]
  | true => simp [select, happ, maximal, isBeaten]

end Overload

namespace Hierarchy

variable {h : Hierarchy} {rule : LookupRule} {c a : ClassId} {name : String}
  {args : List Primitive} {m : Method} {ms : List Method}

/-! ## visible overloads -/

theorem Indexed.mem_candidates_iff (hix : h.Indexed) :
    m ∈ h.candidates rule c name ↔ m ∈ h.members c ∧ m.name = name ∧ rule.admits m = true := by
  rw [candidates, List.mem_filter, hix.mem_membersNamed_iff, and_assoc]

/-- The visible overload set is that of the first class of the lineage with a
candidate of the name. -/
theorem visibleOverloads_eq_some_iff :
    h.visibleOverloads rule c name = some (a, ms) ↔
      ∃ below above, h.ancestors c = below ++ a :: above ∧
        (∀ b ∈ below, h.candidates rule b name = []) ∧ h.candidates rule a name = ms ∧ ms ≠ [] := by
  rw [visibleOverloads, List.findSome?_eq_some_iff]
  constructor
  · rintro ⟨below, a', above, hsplit, ha, hbelow⟩
    by_cases hnil : h.candidates rule a' name = []
    · simp [hnil] at ha
    · simp only [List.isEmpty_iff, hnil, if_false, Option.some.injEq, Prod.mk.injEq] at ha
      obtain ⟨rfl, rfl⟩ := ha
      refine ⟨below, above, hsplit, ?_, rfl, hnil⟩
      intro b hb
      simpa using hbelow b hb
  · rintro ⟨below, above, hsplit, hbelow, rfl, hnil⟩
    refine ⟨below, a, above, hsplit, ?_, ?_⟩
    · simp [hnil]
    · intro b hb
      simp [hbelow b hb]

/-! ## static lookup -/

/-- A method is declared in the first class at or above `c` that has a candidate of
the name, and is such a candidate itself. -/
structure NearestCandidate (h : Hierarchy) (rule : LookupRule) (c : ClassId) (name : String)
    (m : Method) : Prop where
  declared : m ∈ h.members m.owner
  name_eq : m.name = name
  admitted : rule.admits m = true
  nearest : ∃ below above, h.ancestors c = below ++ m.owner :: above ∧
    ∀ b ∈ below, ∀ m' ∈ h.members b, m'.name = name → rule.admits m' = false

/-- The members of the visible overload set are candidates of the nearest class that
has any. -/
theorem Indexed.nearestCandidate (hix : h.Indexed)
    (hv : h.visibleOverloads rule c name = some (a, ms)) (hm : m ∈ ms) :
    h.NearestCandidate rule c name m := by
  obtain ⟨below, above, hsplit, hbelow, rfl, -⟩ := visibleOverloads_eq_some_iff.mp hv
  obtain ⟨hmem, hname, hadmits⟩ := hix.mem_candidates_iff.mp hm
  obtain rfl : m.owner = a := (hix.mem_members_iff.mp hmem).2
  refine ⟨hmem, hname, hadmits, below, above, hsplit, ?_⟩
  intro b hb m' hm' hname'
  cases hadmits' : rule.admits m' with
  | false => rfl
  | true =>
      have hcand := hix.mem_candidates_iff.mpr ⟨hm', hname', hadmits'⟩
      simp [hbelow b hb] at hcand

/-- The class of a nearest candidate is in the lineage. -/
theorem NearestCandidate.owner_mem (hm : h.NearestCandidate rule c name m) :
    m.owner ∈ h.ancestors c := by
  obtain ⟨below, above, hsplit, -⟩ := hm.nearest
  rw [hsplit]
  exact List.mem_append_right below List.mem_cons_self

theorem lookupStatic_of_visible (hv : h.visibleOverloads rule c name = some (a, ms))
    (args : List Primitive) :
    h.lookupStatic rule c name args = Overload.select name args ms := by
  simp only [lookupStatic, hv]

/-- Static lookup picks from the visible overload set. -/
theorem exists_of_lookupStatic (hl : h.lookupStatic rule c name args = .ok m) :
    ∃ a ms, h.visibleOverloads rule c name = some (a, ms) ∧
      Overload.select name args ms = .ok m := by
  cases hv : h.visibleOverloads rule c name with
  | none => simp only [lookupStatic, hv] at hl; contradiction
  | some v =>
      rw [lookupStatic_of_visible hv] at hl
      exact ⟨v.1, v.2, rfl, hl⟩

/-- Static lookup picks an applicable candidate of the nearest class that has any. -/
theorem Indexed.of_lookupStatic (hix : h.Indexed) (hl : h.lookupStatic rule c name args = .ok m) :
    h.NearestCandidate rule c name m ∧ m.isApplicable args = true := by
  obtain ⟨a, ms, hv, hsel⟩ := exists_of_lookupStatic hl
  obtain ⟨hm, happ⟩ := Overload.applicable_of_select hsel
  exact ⟨hix.nearestCandidate hv hm, happ⟩

end Hierarchy

/-! ## call sites -/

/-- A call site is made for a runtime type at or below the static type. -/
theorem CallSite.of_make {h : Hierarchy} {static runtime : ClassId} {method : String}
    {args : List Primitive} {site : CallSite} (hok : make h static runtime method args = .ok site) :
    site = ⟨static, runtime, method, args⟩ ∧ site.static ∈ h.ancestors site.runtime := by
  unfold make at hok
  split at hok
  · contradiction
  · contradiction
  · split at hok
    · next hdesc =>
        obtain rfl : _ = site := Except.ok.inj hok
        exact ⟨rfl, Hierarchy.isSameOrDescendant_iff.mp hdesc⟩
    · contradiction

/-- A call site can be made for a runtime type at or below the static type. -/
theorem CallSite.make_of_mem {h : Hierarchy} {static runtime : ClassId} {method : String}
    {args : List Primitive} (habove : static ∈ h.ancestors runtime) :
    make h static runtime method args = .ok ⟨static, runtime, method, args⟩ := by
  obtain ⟨s, hs⟩ := Hierarchy.class?_of_mem_ancestors habove
  obtain ⟨r, hr⟩ := Hierarchy.class?_of_ancestors_mem habove
  simp only [make, hs, hr, Hierarchy.isSameOrDescendant_iff.mpr habove, if_true]

/-! ## both steps -/

namespace Hierarchy

variable {h : Hierarchy} {rule : LookupRule} {site : CallSite} {r : Resolution}

/-- A call resolves to what static lookup selects, redirected through the runtime type. -/
theorem exists_of_resolve (hres : h.resolve rule site = .ok r) :
    ∃ m, h.lookupStatic rule site.static site.method site.args = .ok m ∧
      r = h.redirect m site.runtime := by
  unfold resolve at hres
  cases hl : h.lookupStatic rule site.static site.method site.args with
  | error e => simp only [hl] at hres; contradiction
  | ok m =>
      simp only [hl, Except.ok.injEq] at hres
      exact ⟨m, rfl, hres.symm⟩

/-- What is redirected when a call site is resolved is an applicable candidate of the
nearest class that has one, and its class is above the runtime type. -/
theorem WellFormed.of_resolve (hwf : h.WellFormed) (habove : site.static ∈ h.ancestors site.runtime)
    (hres : h.resolve rule site = .ok r) :
    ∃ m, r = h.redirect m site.runtime ∧ h.NearestCandidate rule site.static site.method m ∧
      m.isApplicable site.args = true ∧ m.owner ∈ h.ancestors site.runtime := by
  obtain ⟨m, hl, rfl⟩ := exists_of_resolve hres
  obtain ⟨hnear, happ⟩ := hwf.indexed.of_lookupStatic hl
  exact ⟨m, rfl, hnear, happ, hwf.acyclic.mem_ancestors_trans hnear.owner_mem habove⟩

end Hierarchy

end LateBinding
