import LateBinding.Proofs.Hierarchy.Slots
import LateBinding.Proofs.Hierarchy.Rejection
import LateBinding.Proofs.Resolution.SlotTable

/-!
# LateBinding.Proofs.Resolution.SlotChain

The chain of the slot that a name and signature stand for, and what it begins and ends with.

A chain is a part of the lineage, turned round, so its classes are strictly ordered from the top
down.  The origin of the slot is declared above all other methods of the slot, and so in the first
class of the chain.  All methods of a slot have its name and signature, so no class below that of
the nearest declaration has one, and that is the last class.  Its method is what dispatch finds,
and what the slot table holds.
-/

namespace LateBinding.Hierarchy

variable {h : Hierarchy} {a c : ClassId} {name : String} {sig : Signature} {m x : Method}
  {s : SlotId} {sl : Slot}

/-! ## ends of an ordered list -/

section Ordered

variable {α : Type} {R : α → α → Prop} {l : List α} {e : α}

/-- What is related to no earlier element of an ordered list is the first. -/
theorem head?_eq_some_of_pairwise (hl : l.Pairwise R) (he : e ∈ l) (hfirst : ∀ b ∈ l, ¬ R b e) :
    l.head? = some e := by
  cases l with
  | nil => contradiction
  | cons b l =>
      rcases List.mem_cons.mp he with rfl | he
      · rfl
      · exact absurd (List.rel_of_pairwise_cons hl he) (hfirst b List.mem_cons_self)

/-- What is related to no later element of an ordered list is the last. -/
theorem getLast?_eq_some_of_pairwise (hl : l.Pairwise R) (he : e ∈ l) (hlast : ∀ b ∈ l, ¬ R e b) :
    l.getLast? = some e := by
  rw [← List.head?_reverse]
  refine head?_eq_some_of_pairwise (R := fun b b' => R b' b) (List.pairwise_reverse.mpr hl)
    (List.mem_reverse.mpr he) fun b hb => ?_
  exact hlast b (List.mem_reverse.mp hb)

end Ordered

/-! ## the order of a chain -/

/-- No class is properly above one that is at or above it. -/
theorem Acyclic.not_properAncestor (hac : h.Acyclic) (hmem : c ∈ h.ancestors a) :
    ¬ h.ProperAncestor a c := by
  rintro ⟨hne, habove⟩
  exact hne (hac.eq_of_mem_ancestors (isSameOrDescendant_iff.mp habove) hmem)

/-- Along a lineage, each class is properly above those before it. -/
theorem Acyclic.pairwise_ancestors (hac : h.Acyclic) (c : ClassId) :
    (h.ancestors c).Pairwise fun d a => h.ProperAncestor a d := by
  cases hk : h.class? c with
  | none => rw [ancestors_of_unknown hk]; exact .nil
  | some k =>
      refine hac.induction (P := fun c => (h.ancestors c).Pairwise fun d a => h.ProperAncestor a d)
        ?_ ?_ hk
      · intro c k hk hp
        rw [ancestors_of_root hk hp]
        exact List.pairwise_singleton _ c
      · intro c k p hk hp ih
        rw [hac.ancestors_of_child hk hp, List.pairwise_cons]
        exact ⟨fun a ha => (hac.properAncestor_iff hk hp).mpr ha, ih⟩

/-- A chain is strictly ordered from the top down. -/
theorem Acyclic.pairwise_slotChain (hac : h.Acyclic) (c : ClassId) (s : SlotId) :
    (h.slotChain c s).Pairwise h.ProperAncestor :=
  List.pairwise_reverse.mpr ((hac.pairwise_ancestors c).filter _)

/-- A chain holds the classes at or above its own that declare a method of the slot. -/
theorem WellFormed.mem_slotChain_iff (hwf : h.WellFormed) :
    a ∈ h.slotChain c s ↔ a ∈ h.ancestors c ∧ ∃ m, (m ∈ h.methods ∧ m.slot = some s) ∧ m.owner = a := by
  rw [slotChain, List.mem_reverse, List.mem_filter, Option.isSome_iff_exists]
  simp only [hwf.slotted.implementation?_iff, hwf.indexed.mem_members_iff, and_right_comm]

/-- The first class of a chain is that of the origin of its slot, if any method of the slot is
declared at or above the class that the chain is seen from. -/
theorem Reachable.head?_slotChain (hr : h.Reachable) (hslot : h.slot? s = some sl)
    (hm : m ∈ h.methods) (hs : m.slot = some s) (hmem : m.owner ∈ h.ancestors c) :
    (h.slotChain c s).head? = some sl.origin.owner := by
  have hwf := hr.wellFormed
  have hmemo := hwf.acyclic.mem_ancestors_trans
    (hwf.slotted.shares_origin hslot hm hs).owner_below hmem
  refine head?_eq_some_of_pairwise (hwf.acyclic.pairwise_slotChain c s)
    (hwf.mem_slotChain_iff.mpr ⟨hmemo, sl.origin, hr.origin_attached hslot, rfl⟩) fun a ha => ?_
  obtain ⟨-, x, ⟨hx, hxs⟩, rfl⟩ := hwf.mem_slotChain_iff.mp ha
  exact hwf.acyclic.not_properAncestor (hwf.slotted.shares_origin hslot hx hxs).owner_below

/-! ## the nearest declaration -/

/-- The nearest declaration of a name and signature is the most derived implementation of its
slot. -/
theorem WellFormed.mostDerived?_of_nearest? (hwf : h.WellFormed)
    (hm : h.nearest? c name sig = some m) (hs : m.slot = some s) :
    h.mostDerived? c s = some m := by
  obtain ⟨hmem, hall, rfl, rfl⟩ := hwf.indexed.of_nearest? hm
  obtain ⟨t, ht, hbelow⟩ :=
    hwf.exists_mostDerived? (hwf.indexed.mem_members_iff.mpr ⟨hall, rfl⟩) hs hmem
  obtain ⟨htmem, hts, -⟩ := hwf.of_mostDerived? ht
  have htall := (hwf.indexed.mem_members_iff.mp htmem).1
  obtain ⟨hname, hsig⟩ := hwf.slotted.same_signature htall hall hts hs
  have habove := hwf.mem_ancestors_of_nearest? hm htall hname hsig (hwf.owner_mem_of_mostDerived? ht)
  rw [ht, hwf.eq_of_same_slot htall hall hts hs (hwf.acyclic.eq_of_mem_ancestors habove hbelow)]

/-- The last class of a chain is that of the nearest declaration, if this has the slot. -/
theorem WellFormed.getLast?_slotChain (hwf : h.WellFormed) (hm : h.nearest? c name sig = some m)
    (hs : m.slot = some s) : (h.slotChain c s).getLast? = some m.owner := by
  obtain ⟨hmem, hall, rfl, rfl⟩ := hwf.indexed.of_nearest? hm
  refine getLast?_eq_some_of_pairwise (hwf.acyclic.pairwise_slotChain c s)
    (hwf.mem_slotChain_iff.mpr ⟨hmem, m, ⟨hall, hs⟩, rfl⟩) fun a ha => ?_
  -- a method of the slot has the name and signature, so the nearest is not above its class
  obtain ⟨hamem, x, ⟨hx, hxs⟩, rfl⟩ := hwf.mem_slotChain_iff.mp ha
  obtain ⟨hname, hsig⟩ := hwf.slotted.same_signature hx hall hxs hs
  exact hwf.acyclic.not_properAncestor (hwf.mem_ancestors_of_nearest? hm hx hname hsig hamem)

/-- No slot is visible for a name and signature exactly if nothing at or above the class declares
them, or the nearest declaration is statically bound. -/
theorem WellFormed.visibleSlot?_eq_none_iff (hwf : h.WellFormed) :
    h.visibleSlot? c name sig = none ↔ (∀ a ∈ h.ancestors c, h.declared? a name sig = none) ∨
      ∃ m, h.nearest? c name sig = some m ∧ (m.kind = .hide ∨ m.kind = .plain) := by
  rw [visibleSlot?, ← List.findSome?_eq_none_iff, ← nearest?]
  cases hm : h.nearest? c name sig with
  | none => simp
  | some m =>
      have hkind := hwf.slotted.isSome_slot_iff (hwf.indexed.of_nearest? hm).2.1
      rw [Option.bind_some, ← Option.not_isSome_iff_eq_none, hkind]
      cases hm : m.kind <;> simp [hm]

/-! ## the visible chain -/

/-- What the chain of a slot, seen from a class, has to do with the nearest declaration: it is
strictly ordered from the top down, from the class that declares the origin of the slot to the one
of the nearest declaration, and holds the classes at or above that have a method in the slot.  The
nearest declaration is also what dispatch finds, and what the slot table holds. -/
structure Anchored (h : Hierarchy) (c : ClassId) (s : SlotId) (sl : Slot) (m : Method)
    (chain : List ClassId) : Prop where
  ordered : chain.Pairwise h.ProperAncestor
  first : chain.head? = some sl.origin.owner
  origin_declared : sl.origin ∈ h.members sl.origin.owner
  last : chain.getLast? = some m.owner
  nearest_declared : m ∈ h.members m.owner
  mem_iff : ∀ a, a ∈ chain ↔
    a ∈ sl.implementations.map (·.1) ∧ h.isSameOrDescendant c a = true
  implementation : h.implementation? m.owner s = some m
  mostDerived : h.mostDerived? c s = some m
  table : (h.slotTable c).get? s = some m

/-- The chain of the slot of the nearest declaration is anchored at the origin of the slot and at
that declaration. -/
theorem Reachable.anchored (hr : h.Reachable) (hm : h.nearest? c name sig = some m)
    (hs : m.slot = some s) (hslot : h.slot? s = some sl) :
    h.Anchored c s sl m (h.slotChain c s) := by
  have hwf := hr.wellFormed
  obtain ⟨hmem, hall, -, -⟩ := hwf.indexed.of_nearest? hm
  have hdeclared := hwf.indexed.mem_members_iff.mpr ⟨hall, rfl⟩
  have hmost := hwf.mostDerived?_of_nearest? hm hs
  refine ⟨hwf.acyclic.pairwise_slotChain c s, hr.head?_slotChain hslot hall hs hmem,
    hwf.indexed.mem_members_iff.mpr ⟨(hr.origin_attached hslot).1, rfl⟩,
    hwf.getLast?_slotChain hm hs, hdeclared, fun a => ?_,
    hwf.slotted.implementation?_iff.mpr ⟨hdeclared, hs⟩, hmost, ?_⟩
  · rw [hwf.mem_slotChain_iff, isSameOrDescendant_iff, (hr.slotsRecorded hslot).mem_classes_iff,
      and_comm]
  · rw [hwf.slotted.get?_slotTable, hmost]

/-- **Slot chains are complete and anchored at both ends**, in every hierarchy that declarations
make.  The chain of a name and signature, seen from a class, is empty exactly if nothing at or above
the class declares them or the nearest declaration is statically bound; otherwise it is anchored at
the origin of the slot and at the nearest declaration. -/
theorem slotChain_anchored (hr : h.Reachable) (c : ClassId) (name : String) (sig : Signature) :
    (h.visibleSlotChain c name sig = [] ↔ (∀ a ∈ h.ancestors c, h.declared? a name sig = none) ∨
      ∃ m, h.nearest? c name sig = some m ∧ (m.kind = .hide ∨ m.kind = .plain)) ∧
    (h.visibleSlotChain c name sig ≠ [] → ∃ m s sl, h.nearest? c name sig = some m ∧
      m.slot = some s ∧ h.slot? s = some sl ∧
      h.Anchored c s sl m (h.visibleSlotChain c name sig)) := by
  have hwf := hr.wellFormed
  rw [← hwf.visibleSlot?_eq_none_iff]
  cases hvisible : h.visibleSlot? c name sig with
  | none => simp [visibleSlotChain, hvisible]
  | some s =>
      obtain ⟨m, hm, hs⟩ := Option.bind_eq_some_iff.mp hvisible
      obtain ⟨sl, hslot⟩ := hwf.slotted.exists_slot? (hwf.indexed.of_nearest? hm).2.1 hs
      have hchain : h.visibleSlotChain c name sig = h.slotChain c s := by
        simp only [visibleSlotChain, hvisible]
      have hanchored := hr.anchored hm hs hslot
      rw [hchain]
      refine ⟨?_, fun _ => ⟨m, s, sl, hm, hs, hslot, hanchored⟩⟩
      have hne : h.slotChain c s ≠ [] := by
        intro hnil
        have hlast := hanchored.last
        rw [hnil] at hlast
        contradiction
      simp [hne]

/-- Seen from the last of three classes, the slot of `f(long)` has a chain from the virtual method
of the first to the override; the plain `f(int)` of the second has none. -/
theorem slotChain_anchored_threeGenerations :
    threeGenerations.Reachable ∧
      threeGenerations.visibleSlotChain ⟨2⟩ "f" ⟨[.long]⟩ = [⟨0⟩, ⟨2⟩] ∧
      (∃ m s sl, threeGenerations.slot? s = some sl ∧
        threeGenerations.Anchored ⟨2⟩ s sl m [⟨0⟩, ⟨2⟩]) ∧
      threeGenerations.visibleSlotChain ⟨2⟩ "f" ⟨[.int]⟩ = [] := by
  have hanchored := slotChain_anchored reachable_threeGenerations ⟨2⟩ "f"
  obtain ⟨m, s, sl, -, -, hslot, hlong⟩ := (hanchored ⟨[.long]⟩).2 (by decide)
  exact ⟨reachable_threeGenerations, rfl, ⟨m, s, sl, hslot, hlong⟩,
    (hanchored ⟨[.int]⟩).1.mpr (.inr ⟨_, rfl, .inr rfl⟩)⟩

end LateBinding.Hierarchy
