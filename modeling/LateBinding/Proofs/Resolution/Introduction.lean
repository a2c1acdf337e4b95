import LateBinding.Proofs.Hierarchy.Slots
import LateBinding.Proofs.Resolution.Declaration

/-!
# LateBinding.Proofs.Resolution.Introduction

Static lookup at the introduction sees an override only through the virtual method that
introduced its slot.

Overrides are no candidates under this rule, so it never selects one, and a new one changes
nothing that it finds.  It is still not blind to any name: every override has the virtual method
that opened its slot at or above its own class, under the same name, and that method is a
candidate.
-/

namespace LateBinding.Hierarchy

variable {h : Hierarchy} {rule : LookupRule} {c r : ClassId} {m : Method} {s : SlotId}
  {name : String} {args : List Primitive}

theorem admits_atIntroduction_iff : LookupRule.admits .atIntroduction m = true ↔ m.kind ≠ .override :=
  bne_iff_ne

/-! ## what introduces a slot -/

/-- A method that has a slot has the origin of that slot at or above its class, under its own
name.  The origin is virtual and known, and it is the only virtual method of the slot. -/
structure IntroducedBy (h : Hierarchy) (m o : Method) : Prop where
  known : o ∈ h.methods
  kind_eq : o.kind = .virtual
  name_eq : m.name = o.name
  above : o.owner ∈ h.ancestors m.owner
  eq_of_virtual : m.kind = .virtual → m = o

theorem Reachable.introducedBy (hr : h.Reachable) (hm : m ∈ h.methods) (hs : m.slot = some s) :
    ∃ sl, h.slot? s = some sl ∧ h.IntroducedBy m sl.origin := by
  obtain ⟨o, ho, hshares⟩ := hr.wellFormed.slotted.shares hm hs
  obtain ⟨sl, hslot, rfl⟩ := Option.map_eq_some_iff.mp ho
  exact ⟨sl, hslot, (hr.origin_attached hslot).1, (hr.slotsRecorded hslot).origin_virtual,
    hshares.name_eq, hshares.owner_below, hshares.eq_origin⟩

/-- At or above every method, there is one of its name that is no override. -/
theorem Reachable.exists_not_override (hr : h.Reachable) (hm : m ∈ h.methods) :
    ∃ o ∈ h.methods, o.kind ≠ .override ∧ o.name = m.name ∧ o.owner ∈ h.ancestors m.owner := by
  have hwf := hr.wellFormed
  by_cases hkind : m.kind = .override
  · obtain ⟨s, hs⟩ := Option.isSome_iff_exists.mp
      ((hwf.slotted.isSome_slot_iff hm).mpr (.inr hkind))
    obtain ⟨sl, -, hintro⟩ := hr.introducedBy hm hs
    exact ⟨sl.origin, hintro.known, by simp [hintro.kind_eq], hintro.name_eq.symm, hintro.above⟩
  · obtain ⟨k, hk⟩ := hwf.indexed.owner_known hm
    exact ⟨m, hm, hkind, rfl, mem_ancestors_self hk⟩

/-! ## visible names -/

/-- Nothing of a name is visible from a class if the rule admits no method of the name at or above
it. -/
theorem Indexed.visibleOverloads_eq_none_iff (hix : h.Indexed) :
    h.visibleOverloads rule c name = none ↔
      ∀ m ∈ h.methods, m.owner ∈ h.ancestors c → m.name = name → rule.admits m = false := by
  have hnone : h.visibleOverloads rule c name = none ↔
      ∀ a ∈ h.ancestors c, h.candidates rule a name = [] := by
    rw [visibleOverloads, List.findSome?_eq_none_iff]
    simp
  rw [hnone]
  constructor
  · intro hempty m hm habove hname
    rw [Bool.eq_false_iff]
    intro hadmits
    have hcand : m ∈ h.candidates rule m.owner name :=
      hix.mem_candidates_iff.mpr ⟨hix.mem_members_iff.mpr ⟨hm, rfl⟩, hname, hadmits⟩
    rw [hempty m.owner habove] at hcand
    contradiction
  · intro hall a ha
    refine List.eq_nil_iff_forall_not_mem.mpr fun m hcand => ?_
    obtain ⟨hmem, hname, hadmits⟩ := hix.mem_candidates_iff.mp hcand
    obtain ⟨hm, rfl⟩ := hix.mem_members_iff.mp hmem
    rw [hall m hm ha hname] at hadmits
    contradiction

/-- The two rules see nothing of a name from the same classes. -/
theorem Reachable.visible_at_introduction_iff (hr : h.Reachable) (c : ClassId) (name : String) :
    h.visibleOverloads .atIntroduction c name = none ↔
      h.visibleOverloads .atOverride c name = none := by
  have hwf := hr.wellFormed
  rw [hwf.indexed.visibleOverloads_eq_none_iff, hwf.indexed.visibleOverloads_eq_none_iff]
  constructor
  · intro hnone m hm habove hname
    obtain ⟨o, ho, hkind, honame, hoabove⟩ := hr.exists_not_override hm
    have hhidden := hnone o ho (hwf.acyclic.mem_ancestors_trans hoabove habove) (honame.trans hname)
    rw [admits_atIntroduction_iff.mpr hkind] at hhidden
    contradiction
  · intro hnone m hm habove hname
    -- at the override, every method is admitted
    have hadmitted := hnone m hm habove hname
    contradiction

/-! ## selection and redirection -/

/-- What is selected at the introduction is no override. -/
theorem Indexed.kind_ne_override (hix : h.Indexed)
    (hl : h.lookupStatic .atIntroduction c name args = .ok m) : m.kind ≠ .override :=
  admits_atIntroduction_iff.mp (hix.of_lookupStatic hl).1.admitted

/-- A dynamically bound method that is no override is the origin of the slot that it goes
through. -/
theorem Reachable.eq_origin (hr : h.Reachable) (hm : m ∈ h.methods) (hkind : m.kind ≠ .override)
    (hbinding : (h.redirect m r).binding = .dynamic s) :
    ∃ sl, h.slot? s = some sl ∧ m = sl.origin := by
  have hs := slot_of_dynamic_binding hbinding
  obtain ⟨sl, hslot, hintro⟩ := hr.introducedBy hm hs
  have hvirtual := (hr.wellFormed.slotted.isSome_slot_iff hm).mp (by simp [hs])
  exact ⟨sl, hslot, hintro.eq_of_virtual (hvirtual.resolve_right hkind)⟩

/-- Static lookup at the introduction selects no override: it selects the origin of the slot that
a call goes through.  It sees something of a name exactly where the other rule does, and the same
before and after an override is declared. -/
structure SeesOrigins (h : Hierarchy) : Prop where
  never_override : ∀ c name args m, h.lookupStatic .atIntroduction c name args = .ok m →
    m.kind ≠ .override
  selects_origin : ∀ site r, h.resolve .atIntroduction site = .ok r →
    r.selected.kind ≠ .override ∧
      ∀ s, r.binding = .dynamic s → ∃ sl, h.slot? s = some sl ∧ r.selected = sl.origin
  visible_iff : ∀ c name, h.visibleOverloads .atIntroduction c name = none ↔
    h.visibleOverloads .atOverride c name = none
  after_override : ∀ c d a, h.declareMethod c d = .ok a → d.kind = .override →
    ∀ s name args, a.hierarchy.lookupStatic .atIntroduction s name args =
      h.lookupStatic .atIntroduction s name args

/-- **At the introduction, overrides are reached only through the methods that they override**, in
every hierarchy that declarations make. -/
theorem introduction_sees_origins (hr : h.Reachable) : h.SeesOrigins := by
  have hix := hr.wellFormed.indexed
  refine ⟨fun c name args m hl => hix.kind_ne_override hl, fun site r hres => ?_,
    hr.visible_at_introduction_iff, fun c d a hok hkind s name args => ?_⟩
  · obtain ⟨m, hl, rfl⟩ := exists_of_resolve hres
    have hkind := hix.kind_ne_override hl
    have hm := (hix.mem_members_iff.mp (hix.of_lookupStatic hl).1.declared).1
    rw [selected_redirect]
    exact ⟨hkind, fun s hbinding => hr.eq_origin hm hkind hbinding⟩
  · obtain ⟨⟨k, hacc⟩, rfl, rfl, heq⟩ := acceptsMethod_of_declareMethod hok
    rw [heq, lookupStatic, visibleOverloads_addMethod_of_unseen hacc.owner, lookupStatic]
    rintro ⟨-, -, hadmits⟩
    exact admits_atIntroduction_iff.mp hadmits hkind

/-- As an `A`, an object of the last of three classes has the `f(long)` of the first selected, and
runs its own override.  As an object of the second class it knows `f(int)` only, and an override of
`f(long)` there is found by the other rule alone. -/
theorem introduction_sees_origins_threeGenerations :
    ∃ r sl, threeGenerations.resolve .atIntroduction ⟨⟨0⟩, ⟨2⟩, "f", [.int]⟩ = .ok r ∧
      r.method.owner = ⟨2⟩ ∧ threeGenerations.slot? ⟨0⟩ = some sl ∧ r.selected = sl.origin ∧
      ∃ a e, threeGenerations.declareMethod ⟨1⟩
          { name := "f", signature := ⟨[.long]⟩, kind := .override } = .ok a ∧
        threeGenerations.lookupStatic .atIntroduction ⟨1⟩ "f" [.long] = .error e ∧
        a.hierarchy.lookupStatic .atIntroduction ⟨1⟩ "f" [.long] = .error e ∧
        a.hierarchy.lookupStatic .atOverride ⟨1⟩ "f" [.long] = .ok a.method := by
  have hsees := introduction_sees_origins reachable_threeGenerations
  obtain ⟨sl, hslot, horigin⟩ :=
    (hsees.selects_origin ⟨⟨0⟩, ⟨2⟩, "f", [.int]⟩ _ rfl).2 ⟨0⟩ rfl
  refine ⟨_, sl, rfl, rfl, hslot, horigin, _, _, rfl, rfl, ?_, rfl⟩
  exact hsees.after_override ⟨1⟩ { name := "f", signature := ⟨[.long]⟩, kind := .override } _ rfl
    rfl _ _ _

end LateBinding.Hierarchy
