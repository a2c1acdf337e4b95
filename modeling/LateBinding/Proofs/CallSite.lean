import LateBinding.Proofs.Hierarchy.Rejection
import LateBinding.Proofs.Hierarchy.Tables
import LateBinding.Proofs.Resolution.Lookup
import LateBinding.Scenario.Run

/-!
# LateBinding.Proofs.CallSite

Which calls cannot be made, and for what cause.

`Impossible` lists the causes, each under the condition that the causes before it do not apply.
It speaks of classes and their parents alone: a name is unknown if no class has it, and an object is
not of the static type if the way up from its class does not meet that.  A call is refused for
exactly these causes.
-/

namespace LateBinding

variable {h : Hierarchy} {cause : CallSiteError}

namespace CallSite

/-- The causes for which there is no call on a receiver of these static and runtime types. -/
inductive Impossible (h : Hierarchy) : (static runtime : String) → CallSiteError → Prop
  | unknownStatic {static runtime : String} (unknown : ¬ h.HasClass static) :
      Impossible h static runtime (.unknownClass static)
  | unknownRuntime {static runtime : String} (known : h.HasClass static)
      (unknown : ¬ h.HasClass runtime) :
      Impossible h static runtime (.unknownClass runtime)
  | notADescendant {s r : ClassId} {ks kr : ClassInfo} {cs : List ClassId}
      (static : h.class? s = some ks) (runtime : h.class? r = some kr) (wayUp : h.WayUp r cs)
      (off : s ∉ cs) :
      Impossible h ks.name kr.name (.notADescendant ks.name kr.name)

variable {static runtime method : String} {args : List Primitive}

/-- A call on an object whose lineage is without the static type is refused. -/
theorem ofNames_of_not_mem (hwf : h.WellFormed) {s r : ClassId} {ks kr : ClassInfo}
    (hs : h.class? s = some ks) (hr : h.class? r = some kr) (hoff : s ∉ h.ancestors r) :
    ofNames h ks.name kr.name method args = .error (.notADescendant ks.name kr.name) := by
  have hnamed := hwf.indexed.namesAgree.classNamed?_iff
  have hdesc : ¬ h.isSameOrDescendant r s = true := hoff ∘ Hierarchy.isSameOrDescendant_iff.mp
  simp only [ofNames, make, (hnamed _ s).mpr ⟨ks, hs, rfl⟩, (hnamed _ r).mpr ⟨kr, hr, rfl⟩, hs, hr,
    if_neg hdesc]

/-- **A call is refused for exactly the causes that make it impossible.** -/
theorem ofNames_eq_error_iff (hwf : h.WellFormed) :
    ofNames h static runtime method args = .error cause ↔ Impossible h static runtime cause := by
  have hknown : ∀ name, h.HasClass name ↔ (h.classNamed? name).isSome = true :=
    fun _ => hwf.indexed.hasClass_iff
  constructor
  · intro herr
    cases hs : h.classNamed? static with
    | none =>
        simp only [ofNames, hs, Except.error.injEq] at herr
        exact herr ▸ .unknownStatic (by simp [hknown, hs])
    | some s =>
        cases hr : h.classNamed? runtime with
        | none =>
            simp only [ofNames, hs, hr, Except.error.injEq] at herr
            exact herr ▸ .unknownRuntime (by simp [hknown, hs]) (by simp [hknown, hr])
        | some r =>
            obtain ⟨ks, hks, rfl⟩ := (hwf.indexed.namesAgree.classNamed?_iff _ s).mp hs
            obtain ⟨kr, hkr, rfl⟩ := (hwf.indexed.namesAgree.classNamed?_iff _ r).mp hr
            by_cases hmem : s ∈ h.ancestors r
            · simp only [ofNames, hs, hr, make_of_mem hmem] at herr
              contradiction
            · rw [ofNames_of_not_mem hwf hks hkr hmem, Except.error.injEq] at herr
              exact herr ▸ .notADescendant hks hkr (hwf.acyclic.wayUp_ancestors hkr) hmem
  · intro himpossible
    cases himpossible with
    | unknownStatic unknown =>
        rw [hknown, Option.not_isSome_iff_eq_none] at unknown
        simp only [ofNames, unknown]
    | unknownRuntime known unknown =>
        rw [hknown, Option.isSome_iff_exists] at known
        rw [hknown, Option.not_isSome_iff_eq_none] at unknown
        obtain ⟨s, hs⟩ := known
        simp only [ofNames, hs, unknown]
    | notADescendant hs hr hup hoff =>
        rw [hwf.acyclic.eq_of_wayUp hup] at hoff
        exact ofNames_of_not_mem hwf hs hr hoff

end CallSite

namespace CallEntry

variable {call : CallEntry}

/-- The causes for which a call of a scenario is invalid. -/
def Invalid (call : CallEntry) (h : Hierarchy) (cause : CallSiteError) : Prop :=
  CallSite.Impossible h call.static (call.runtime.getD call.static) cause

/-- A call of a scenario has no site for exactly the causes for which it is invalid. -/
theorem site_eq_error_iff (hwf : h.WellFormed) : call.site h = .error cause ↔ call.Invalid h cause :=
  CallSite.ofNames_eq_error_iff hwf

/-- A call of a scenario has a site exactly if it is not invalid. -/
theorem exists_site_iff (hwf : h.WellFormed) :
    (∃ site, call.site h = .ok site) ↔ ∀ cause, ¬ call.Invalid h cause := by
  simp only [← site_eq_error_iff hwf]
  cases call.site h <;> simp

end CallEntry

end LateBinding
