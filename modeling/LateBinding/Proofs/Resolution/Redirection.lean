import LateBinding.Proofs.Resolution.Lookup

/-!
# LateBinding.Proofs.Resolution.Redirection

The second step of a resolution: the most derived implementation of a slot, and
where redirection through a runtime type leads.
-/

namespace LateBinding.Hierarchy

variable {h : Hierarchy} {c p r : ClassId} {k : ClassInfo} {s : SlotId} {m t : Method}

/-! ## the most derived implementation -/

/-- A class implements a slot by its own declaration, or else as its parent does. -/
theorem Acyclic.mostDerived?_of_child (hac : h.Acyclic) (hk : h.class? c = some k)
    (hp : k.parent = some p) :
    h.mostDerived? c s = (h.implementation? c s).or (h.mostDerived? p s) := by
  rw [mostDerived?, hac.ancestors_of_child hk hp, List.findSome?_cons]
  cases h.implementation? c s <;> rfl

/-- The most derived implementation of a slot is declared in the lineage for that
slot, and no class below its own declares another. -/
theorem WellFormed.of_mostDerived? (hwf : h.WellFormed) (ht : h.mostDerived? r s = some t) :
    t ∈ h.members t.owner ∧ t.slot = some s ∧
      ∃ below above, h.ancestors r = below ++ t.owner :: above ∧
        ∀ b ∈ below, h.implementation? b s = none := by
  obtain ⟨below, a, above, hsplit, ha, hbelow⟩ := List.findSome?_eq_some_iff.mp ht
  obtain ⟨hmem, hslot⟩ := hwf.slotted.implementation?_iff.mp ha
  obtain rfl : t.owner = a := (hwf.indexed.mem_members_iff.mp hmem).2
  exact ⟨hmem, hslot, below, above, hsplit, hbelow⟩

/-- The class of the most derived implementation is in the lineage. -/
theorem WellFormed.owner_mem_of_mostDerived? (hwf : h.WellFormed)
    (ht : h.mostDerived? r s = some t) : t.owner ∈ h.ancestors r := by
  obtain ⟨-, -, below, above, hsplit, -⟩ := hwf.of_mostDerived? ht
  simp [hsplit]

/-- A slot of a method in the lineage has a most derived implementation, at or below
the class of that method. -/
theorem WellFormed.exists_mostDerived? (hwf : h.WellFormed) (hm : m ∈ h.members m.owner)
    (hs : m.slot = some s) (hr : m.owner ∈ h.ancestors r) :
    ∃ t, h.mostDerived? r s = some t ∧ m.owner ∈ h.ancestors t.owner := by
  have himpl : h.implementation? m.owner s = some m :=
    hwf.slotted.implementation?_iff.mpr ⟨hm, hs⟩
  cases ht : h.mostDerived? r s with
  | none =>
      rw [List.findSome?_eq_none_iff.mp ht m.owner hr] at himpl
      contradiction
  | some t =>
      obtain ⟨-, -, below, above, hsplit, hbelow⟩ := hwf.of_mostDerived? ht
      refine ⟨t, rfl, ?_⟩
      rw [hwf.acyclic.ancestors_eq_of_split hsplit]
      rw [hsplit, List.mem_append] at hr
      rcases hr with hr | hr
      · rw [hbelow m.owner hr] at himpl
        contradiction
      · exact hr

/-! ## redirection -/

/-- Redirection leaves the selected method in the result. -/
@[simp] theorem selected_redirect (m : Method) (r : ClassId) : (h.redirect m r).selected = m := by
  unfold redirect
  split
  · split <;> rfl
  · rfl

/-- Redirection notes the class of the method that runs. -/
@[simp] theorem declaringClass_redirect (m : Method) (r : ClassId) :
    (h.redirect m r).declaringClass = (h.redirect m r).method.owner := by
  unfold redirect
  split
  · split <;> rfl
  · rfl

/-- **The declaring class of a resolved call** is the class of the method that runs. -/
theorem declaringClass_of_resolve {rule : LookupRule} {site : CallSite} {res : Resolution}
    (hres : h.resolve rule site = .ok res) : res.declaringClass = res.method.owner := by
  obtain ⟨m, -, rfl⟩ := exists_of_resolve hres
  exact declaringClass_redirect m site.runtime

/-- A statically bound method is not redirected. -/
theorem redirect_of_static (hkind : m.kind.isDynamic = false) :
    h.redirect m r = ⟨m, m.owner, m, .static⟩ := by
  unfold redirect
  split
  · rw [if_neg (by simp [hkind])]
  · rfl

/-- A dynamically dispatched method is redirected through its slot. -/
theorem redirect_of_dynamic (hkind : m.kind.isDynamic = true) (hs : m.slot = some s) :
    h.redirect m r =
      ⟨(h.mostDerived? r s).getD m, ((h.mostDerived? r s).getD m).owner, m, .dynamic s⟩ := by
  unfold redirect
  simp only [hs, hkind, if_true]

/-- What is bound statically runs as it is. -/
theorem method_of_static_binding (hbinding : (h.redirect m r).binding = .static) :
    (h.redirect m r).method = m := by
  cases hkind : m.kind.isDynamic with
  | false => rw [redirect_of_static hkind]
  | true =>
      cases hs : m.slot with
      | none => simp only [redirect, hs]
      | some s =>
          rw [redirect_of_dynamic hkind hs] at hbinding
          contradiction

/-- What is bound dynamically goes through its own slot. -/
theorem slot_of_dynamic_binding (hbinding : (h.redirect m r).binding = .dynamic s) :
    m.slot = some s := by
  cases hkind : m.kind.isDynamic with
  | false =>
      rw [redirect_of_static hkind] at hbinding
      contradiction
  | true =>
      cases hs : m.slot with
      | none => simp [redirect, hs] at hbinding
      | some s' =>
          rw [redirect_of_dynamic hkind hs] at hbinding
          exact congrArg some (Binding.dynamic.inj hbinding)

/-- Redirecting a dynamically dispatched method of the lineage finds the most derived
implementation of its slot. -/
theorem WellFormed.redirect_eq (hwf : h.WellFormed) (hm : m ∈ h.members m.owner)
    (hkind : m.kind.isDynamic = true) (hr : m.owner ∈ h.ancestors r) :
    ∃ s t, m.slot = some s ∧ h.mostDerived? r s = some t ∧ m.owner ∈ h.ancestors t.owner ∧
      h.redirect m r = ⟨t, t.owner, m, .dynamic s⟩ := by
  have hisSome := hwf.slotted.isSome_slot (hwf.indexed.mem_members_iff.mp hm).1
  rw [hkind, Option.isSome_iff_exists] at hisSome
  obtain ⟨s, hs⟩ := hisSome
  obtain ⟨t, ht, hbelow⟩ := hwf.exists_mostDerived? hm hs hr
  refine ⟨s, t, hs, ht, hbelow, ?_⟩
  rw [redirect_of_dynamic hkind hs, ht, Option.getD_some]

/-- Methods of one slot are redirected to the same method, in the same way. -/
theorem WellFormed.redirect_eq_of_same_slot (hwf : h.WellFormed) (hm : m ∈ h.methods)
    {x : Method} (hx : x ∈ h.methods) (hms : m.slot = some s) (hxs : x.slot = some s)
    (habove : m.owner ∈ h.ancestors r) :
    (h.redirect x r).method = (h.redirect m r).method ∧
      (h.redirect x r).binding = (h.redirect m r).binding := by
  have hdynamic : ∀ {y : Method}, y ∈ h.methods → y.slot = some s → y.kind.isDynamic = true := by
    intro y hy hys
    rw [← hwf.slotted.isSome_slot hy, hys, Option.isSome_some]
  obtain ⟨t, ht, -⟩ :=
    hwf.exists_mostDerived? (hwf.indexed.mem_members_iff.mpr ⟨hm, rfl⟩) hms habove
  rw [redirect_of_dynamic (hdynamic hm hms) hms, redirect_of_dynamic (hdynamic hx hxs) hxs, ht]
  exact ⟨rfl, rfl⟩

/-- The method that a call runs is a known one, and its class is above the runtime type. -/
theorem WellFormed.runs_above (hwf : h.WellFormed) {rule : LookupRule} {site : CallSite}
    {res : Resolution} (habove : site.static ∈ h.ancestors site.runtime)
    (hres : h.resolve rule site = .ok res) :
    res.method ∈ h.methods ∧ res.method.owner ∈ h.ancestors site.runtime := by
  obtain ⟨m, rfl, hnear, -, hmem⟩ := hwf.of_resolve habove hres
  cases hkind : m.kind.isDynamic with
  | false =>
      rw [redirect_of_static hkind]
      exact ⟨(hwf.indexed.mem_members_iff.mp hnear.declared).1, hmem⟩
  | true =>
      obtain ⟨s, t, -, ht, -, heq⟩ := hwf.redirect_eq hnear.declared hkind hmem
      rw [heq]
      exact ⟨(hwf.indexed.mem_members_iff.mp (hwf.of_mostDerived? ht).1).1,
        hwf.owner_mem_of_mostDerived? ht⟩

/-- The class that a resolved call notes is above the runtime type. -/
theorem WellFormed.declaringClass_above (hwf : h.WellFormed) {rule : LookupRule} {site : CallSite}
    {res : Resolution} (habove : site.static ∈ h.ancestors site.runtime)
    (hres : h.resolve rule site = .ok res) : res.declaringClass ∈ h.ancestors site.runtime := by
  rw [declaringClass_of_resolve hres]
  exact (hwf.runs_above habove hres).2

/-- Called as an `A`, an object of the lowest of three classes is redirected through the
slot of `f(long)`. -/
theorem resolve_threeGenerations :
    CallSite.make threeGenerations ⟨0⟩ ⟨2⟩ "f" [.int] = .ok ⟨⟨0⟩, ⟨2⟩, "f", [.int]⟩ ∧
      threeGenerations.resolve .atOverride ⟨⟨0⟩, ⟨2⟩, "f", [.int]⟩ = .ok
        ⟨⟨{ name := "f", signature := ⟨[.long]⟩, kind := .override }, ⟨1⟩, ⟨2⟩, some ⟨0⟩, none⟩, ⟨2⟩,
          ⟨{ name := "f", signature := ⟨[.long]⟩, kind := .virtual }, ⟨0⟩, ⟨0⟩, some ⟨0⟩, none⟩,
          .dynamic ⟨0⟩⟩ :=
  ⟨rfl, rfl⟩

end LateBinding.Hierarchy
