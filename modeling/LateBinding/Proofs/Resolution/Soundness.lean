import LateBinding.Proofs.Resolution.Redirection

/-!
# LateBinding.Proofs.Resolution.Soundness

What a resolved call may be relied on for, in every hierarchy that declarations
make and under both lookup rules.

The selected method is an applicable candidate of the nearest class that has one.
The method that runs has its name and signature, and its class lies between the
runtime type and the class of the selected method.  A virtual or overriding choice is
bound through the one slot that both methods share, and that slot always has an
implementation for the runtime type.
-/

namespace LateBinding.Hierarchy

variable {h : Hierarchy} {rule : LookupRule} {site : CallSite} {r : Resolution}

/-- What a call site and its resolution have to do with one another. -/
structure Sound (h : Hierarchy) (rule : LookupRule) (site : CallSite) (r : Resolution) : Prop where
  selected_nearest : h.NearestCandidate rule site.static site.method r.selected
  selected_accepts : r.selected.signature.accepts site.args = true
  name_eq : r.method.name = r.selected.name
  signature_eq : r.method.signature = r.selected.signature
  declared : r.method ∈ h.members r.declaringClass
  above_runtime : h.isSameOrDescendant site.runtime r.declaringClass = true
  below_selected : h.isSameOrDescendant r.declaringClass r.selected.owner = true
  static_binding : r.selected.kind = .hide ∨ r.selected.kind = .plain →
    r.binding = .static ∧ r.method = r.selected
  dynamic_binding : r.selected.kind = .virtual ∨ r.selected.kind = .override →
    ∃ s, r.binding = .dynamic s ∧ r.selected.slot = some s ∧ r.method.slot = some s ∧
      h.mostDerived? site.runtime s = some r.method

/-- A statically bound choice runs as it is. -/
theorem WellFormed.sound_of_static (hwf : h.WellFormed) {m : Method}
    (hnear : h.NearestCandidate rule site.static site.method m)
    (happ : m.isApplicable site.args = true) (hmem : m.owner ∈ h.ancestors site.runtime)
    (hkind : m.kind.isDynamic = false) : h.Sound rule site (h.redirect m site.runtime) := by
  obtain ⟨k, hk⟩ := hwf.indexed.owner_known (hwf.indexed.mem_members_iff.mp hnear.declared).1
  rw [redirect_of_static hkind]
  refine ⟨hnear, happ, rfl, rfl, hnear.declared, isSameOrDescendant_iff.mpr hmem,
    isSameOrDescendant_iff.mpr (mem_ancestors_self hk), fun _ => ⟨rfl, rfl⟩, ?_⟩
  rintro (hvirtual | hoverride)
  · simp [show m.kind = .virtual from hvirtual, MethodKind.isDynamic] at hkind
  · simp [show m.kind = .override from hoverride, MethodKind.isDynamic] at hkind

/-- A dynamically dispatched choice runs the most derived implementation of its slot. -/
theorem WellFormed.sound_of_dynamic (hwf : h.WellFormed) {m : Method}
    (hnear : h.NearestCandidate rule site.static site.method m)
    (happ : m.isApplicable site.args = true) (hmem : m.owner ∈ h.ancestors site.runtime)
    (hkind : m.kind.isDynamic = true) : h.Sound rule site (h.redirect m site.runtime) := by
  obtain ⟨s, t, hs, ht, hbelow, heq⟩ := hwf.redirect_eq hnear.declared hkind hmem
  obtain ⟨htmem, hts, -⟩ := hwf.of_mostDerived? ht
  have hall := (hwf.indexed.mem_members_iff.mp htmem).1
  have hall' := (hwf.indexed.mem_members_iff.mp hnear.declared).1
  obtain ⟨hname, hsig⟩ := hwf.slotted.same_signature hall hall' hts hs
  rw [heq]
  refine ⟨hnear, happ, hname, hsig, htmem,
    isSameOrDescendant_iff.mpr (hwf.owner_mem_of_mostDerived? ht),
    isSameOrDescendant_iff.mpr hbelow, ?_, fun _ => ⟨s, rfl, hs, hts, ht⟩⟩
  rintro (hhide | hplain)
  · simp [show m.kind = .hide from hhide, MethodKind.isDynamic] at hkind
  · simp [show m.kind = .plain from hplain, MethodKind.isDynamic] at hkind

/-- **Soundness of resolution**: whenever a call site can be made and resolved, in a
hierarchy made by declarations in any order, its resolution is sound. -/
theorem resolve_sound (hr : h.Reachable) {static runtime : ClassId} {name : String}
    {args : List Primitive} (hsite : CallSite.make h static runtime name args = .ok site)
    (hres : h.resolve rule site = .ok r) : h.Sound rule site r := by
  have hwf := hr.wellFormed
  obtain ⟨m, rfl, hnear, happ, hmem⟩ := hwf.of_resolve (CallSite.of_make hsite).2 hres
  cases hkind : m.kind.isDynamic with
  | false => exact hwf.sound_of_static hnear happ hmem hkind
  | true => exact hwf.sound_of_dynamic hnear happ hmem hkind

/-- Called as an `A`, an object of `C` runs the override of `f(long)` in `C`. -/
theorem resolve_sound_threeGenerations :
    ∃ site r, CallSite.make threeGenerations ⟨0⟩ ⟨2⟩ "f" [.int] = .ok site ∧
      threeGenerations.resolve .atOverride site = .ok r ∧ r.method.owner = ⟨2⟩ ∧
      threeGenerations.Sound .atOverride site r :=
  have ⟨hsite, hres⟩ := resolve_threeGenerations
  ⟨_, _, hsite, hres, rfl, resolve_sound reachable_threeGenerations hsite hres⟩

end LateBinding.Hierarchy
