import LateBinding.Proofs.Hierarchy.WellFormed

/-!
# LateBinding.Proofs.Hierarchy.Slots

What the record of a slot says about the methods of the hierarchy.

A slot is entered in three places: in every method that has it, in the tables of the classes
of these methods, and in its own record, which lists them.  `Recorded` says that the record of
a slot is right about all methods that have it; every entry keeps it so.  With what
well-formedness says about the methods and the tables of the classes, the three agree, and they
hold one virtual method for each slot and its overrides below.
-/

namespace LateBinding.Hierarchy

variable {h : Hierarchy} {c : ClassId} {k : ClassInfo} {m m' : Method} {s : SlotId} {sl : Slot}

/-! ## the slot of a new method -/

/-- A new method has no slot, opens the next one, or joins a known one. -/
theorem AcceptsMethod.slot_cases (hacc : h.AcceptsMethod k m) (hwf : h.WellFormed) :
    m.slot = none ∨ m.kind = .virtual ∧ m.slot = some ⟨h.slots.length⟩ ∨
      ∃ s, m.slot = some s ∧ s.index < h.slots.length := by
  cases hkind : m.kind with
  | virtual => exact .inr (.inl ⟨rfl, hacc.slot_of_virtual hkind⟩)
  | override =>
      obtain ⟨p, o, s, -, hnear, hos, hms⟩ := hacc.slot_of_override hkind
      obtain ⟨-, ho, -, -⟩ := hwf.indexed.of_nearest? hnear
      obtain ⟨origin, horigin, -⟩ := hwf.slotted.shares ho hos
      exact .inr (.inr ⟨s, hms, index_lt_of_origin? horigin⟩)
  | hide | plain => exact .inl (hacc.slot_of_static (by rw [hkind]; rfl))

/-- The slots of known methods are known. -/
theorem Slotted.exists_slot? (hsl : h.Slotted) (hm : m ∈ h.methods) (hs : m.slot = some s) :
    ∃ sl, h.slot? s = some sl := by
  obtain ⟨o, ho, -⟩ := hsl.shares hm hs
  obtain ⟨sl, hslot, -⟩ := Option.map_eq_some_iff.mp ho
  exact ⟨sl, hslot⟩

theorem index_lt_of_slot? (hslot : h.slot? s = some sl) : s.index < h.slots.length :=
  (List.getElem?_eq_some_iff.mp hslot).1

/-! ## the record of a slot -/

/-- The methods that have a slot, in the order of their declaration. -/
def attached (h : Hierarchy) (s : SlotId) : List Method := h.methods.filter (·.slot = some s)

/-- A record is right about the methods that have the slot: it lists them with their classes,
from the virtual one that opened the slot on, and has the name and the signature of that one. -/
structure Recorded (h : Hierarchy) (s : SlotId) (sl : Slot) : Prop where
  name_eq : sl.name = sl.origin.name
  signature_eq : sl.signature = sl.origin.signature
  origin_virtual : sl.origin.kind = .virtual
  implementations_eq : sl.implementations = (h.attached s).map fun m => (m.owner, m)
  origin_first : sl.implementations.head? = some (sl.origin.owner, sl.origin)

theorem mem_attached_iff : m ∈ h.attached s ↔ m ∈ h.methods ∧ m.slot = some s := by
  rw [attached, List.mem_filter, decide_eq_true_eq]

theorem attached_addMethod (m : Method) (s : SlotId) :
    (h.addMethod m).attached s = h.attached s ++ if m.slot = some s then [m] else [] := by
  rw [attached, methods_addMethod, List.filter_append]
  by_cases hs : m.slot = some s <;> simp [hs, attached]

/-- A right record lists a method exactly if it has the slot, and lists it with its class. -/
theorem Recorded.mem_iff (hrec : h.Recorded s sl) :
    (c, m) ∈ sl.implementations ↔ m ∈ h.methods ∧ m.slot = some s ∧ m.owner = c := by
  rw [hrec.implementations_eq, List.mem_map, ← and_assoc, ← mem_attached_iff]
  constructor
  · rintro ⟨m', hm', heq⟩
    obtain ⟨howner, rfl⟩ := Prod.mk.inj heq
    exact ⟨hm', howner⟩
  · rintro ⟨hm, rfl⟩
    exact ⟨m, hm, rfl⟩

/-- The classes of a right record are those that declare a method of the slot. -/
theorem Recorded.mem_classes_iff (hrec : h.Recorded s sl) :
    c ∈ sl.implementations.map (·.1) ↔ ∃ m, (m ∈ h.methods ∧ m.slot = some s) ∧ m.owner = c := by
  rw [List.mem_map]
  constructor
  · rintro ⟨⟨c, m⟩, hm, rfl⟩
    exact ⟨m, and_assoc.mpr (hrec.mem_iff.mp hm)⟩
  · rintro ⟨m, hm⟩
    exact ⟨(c, m), hrec.mem_iff.mpr (and_assoc.mp hm), rfl⟩

/-- Nothing has the next slot yet. -/
theorem Slotted.attached_next (hsl : h.Slotted) : h.attached ⟨h.slots.length⟩ = [] := by
  refine List.eq_nil_iff_forall_not_mem.mpr fun m hm => ?_
  obtain ⟨hmem, hs⟩ := mem_attached_iff.mp hm
  obtain ⟨sl, hslot⟩ := hsl.exists_slot? hmem hs
  exact Nat.lt_irrefl _ (index_lt_of_slot? hslot)

/-- A method of another slot leaves a record right. -/
theorem Recorded.addMethod_of_ne (hrec : h.Recorded s sl) (hs : m.slot ≠ some s) :
    (h.addMethod m).Recorded s sl := by
  have hsame : (h.addMethod m).attached s = h.attached s := by simp [attached_addMethod, hs]
  exact { hrec with implementations_eq := hsame ▸ hrec.implementations_eq }

/-- A method that is attached to its slot leaves the record right. -/
theorem Recorded.attach (hrec : h.Recorded s sl) (hs : m.slot = some s) :
    (h.addMethod m).Recorded s (sl.attach m.owner m) where
  name_eq := hrec.name_eq
  signature_eq := hrec.signature_eq
  origin_virtual := hrec.origin_virtual
  implementations_eq := by
    rw [Slot.attach, hrec.implementations_eq, attached_addMethod, if_pos hs, List.map_append]
    rfl
  origin_first := by
    rw [Slot.attach, List.head?_append, hrec.origin_first, Option.some_or]

/-- The record of a slot that a virtual method opens is right. -/
theorem recorded_openedBy (hkind : m.kind = .virtual) (hs : m.slot = some s)
    (hnew : h.attached s = []) :
    (h.addMethod m).Recorded s ((Slot.openedBy m).attach m.owner m) where
  name_eq := rfl
  signature_eq := rfl
  origin_virtual := hkind
  implementations_eq := by
    rw [attached_addMethod, hnew, if_pos hs]
    rfl
  origin_first := rfl

/-- All records of slots are right. -/
def SlotsRecorded (h : Hierarchy) : Prop :=
  ∀ ⦃s : SlotId⦄ ⦃sl : Slot⦄, h.slot? s = some sl → h.Recorded s sl

/-- The entry of a class touches no record. -/
theorem SlotsRecorded.addClass (hrec : h.SlotsRecorded) (name : String) (parent : Option ClassId) :
    (h.addClass name parent).SlotsRecorded := fun _ _ hslot =>
  { hrec hslot with implementations_eq := (hrec hslot).implementations_eq }

/-- The entry of a method keeps all records right. -/
theorem SlotsRecorded.addMethod (hrec : h.SlotsRecorded) (hwf : h.WellFormed)
    (hacc : h.AcceptsMethod k m) : (h.addMethod m).SlotsRecorded := by
  intro s sl hslot
  rcases hacc.slot_cases hwf with hnone | ⟨hkind, hnext⟩ | ⟨s', hs', hlt⟩
  · rw [slot?_addMethod_of_none hnone] at hslot
    exact (hrec hslot).addMethod_of_ne (by simp [hnone])
  · rw [slot?_addMethod_of_eq hnext] at hslot
    by_cases hs : s = ⟨h.slots.length⟩
    · rw [if_pos hs, Option.some.injEq] at hslot
      subst hs hslot
      exact recorded_openedBy hkind hnext hwf.slotted.attached_next
    · rw [if_neg hs] at hslot
      exact (hrec hslot).addMethod_of_ne (by simp [hnext, Ne.symm hs])
  · rw [slot?_addMethod_of_lt hs' hlt] at hslot
    by_cases hs : s = s'
    · rw [if_pos hs, Option.map_eq_some_iff] at hslot
      obtain ⟨sl', hslot, rfl⟩ := hslot
      exact (hrec hslot).attach (hs ▸ hs')
    · rw [if_neg hs] at hslot
      exact (hrec hslot).addMethod_of_ne (by simp [hs', Ne.symm hs])

/-- All records of slots are right in every hierarchy that declarations make. -/
theorem Reachable.slotsRecorded (hr : h.Reachable) : h.SlotsRecorded := by
  have hboth : h.WellFormed ∧ h.SlotsRecorded := by
    refine hr.induction (P := fun h => h.WellFormed ∧ h.SlotsRecorded) ?_ ?_ ?_
    · exact ⟨wellFormed_empty, by simp [SlotsRecorded, slot?, empty]⟩
    · intro h name parentName parent hp hacc
      exact ⟨hp.1.addClass hacc, hp.2.addClass name parent⟩
    · intro h k m hp hacc
      exact ⟨hp.1.addMethod hacc, hp.2.addMethod hp.1 hacc⟩
  exact hboth.2

/-! ## the methods of a slot -/

/-- Exactly the virtual methods and the overrides have a slot. -/
theorem Slotted.isSome_slot_iff (hsl : h.Slotted) (hm : m ∈ h.methods) :
    m.slot.isSome = true ↔ m.kind = .virtual ∨ m.kind = .override := by
  rw [hsl.isSome_slot hm]
  cases m.kind <;> simp [MethodKind.isDynamic]

/-- The methods that have a slot share it with the origin that the slot names. -/
theorem Slotted.shares_origin (hsl : h.Slotted) (hslot : h.slot? s = some sl) (hm : m ∈ h.methods)
    (hs : m.slot = some s) : h.SharesSlot m sl.origin := by
  obtain ⟨o, ho, hshares⟩ := hsl.shares hm hs
  obtain rfl : sl.origin = o := by simpa [origin?, hslot] using ho
  exact hshares

/-- A class declares at most one method for a slot. -/
theorem WellFormed.eq_of_same_slot (hwf : h.WellFormed) (hm : m ∈ h.methods)
    (hm' : m' ∈ h.methods) (hs : m.slot = some s) (hs' : m'.slot = some s)
    (howner : m.owner = m'.owner) : m = m' := by
  obtain ⟨hname, hsig⟩ := hwf.slotted.same_signature hm hm' hs hs'
  exact hwf.indexed.eq_of_same_signature hm hm' howner hname hsig

/-- A virtual method that is declared below a method of some slot opens another slot. -/
theorem WellFormed.slot_ne_of_virtual_below (hwf : h.WellFormed) (hm : m ∈ h.methods)
    (hs : m.slot = some s) {m' : Method} (hm' : m' ∈ h.methods) (hkind : m'.kind = .virtual)
    (hnot : m'.owner ∉ h.ancestors m.owner) : m'.slot ≠ some s := by
  intro hs'
  obtain ⟨o, ho, hshares⟩ := hwf.slotted.shares hm hs
  obtain ⟨o', ho', hshares'⟩ := hwf.slotted.shares hm' hs'
  obtain rfl : o = o' := Option.some.inj (ho.symm.trans ho')
  rw [hshares'.eq_origin hkind] at hnot
  exact hnot hshares.owner_below

/-- The methods of a slot: they have its name and signature, one of them is virtual, and that
is the origin; the others are overrides in classes properly below that of the origin, and no
two of one class.  The slot lists exactly these methods, each with its class, in the order of
their numbers, the origin first. -/
structure HoldsMethods (h : Hierarchy) (s : SlotId) (sl : Slot) : Prop where
  mem_iff : ∀ c m, (c, m) ∈ sl.implementations ↔
    m ∈ h.methods ∧ m.slot = some s ∧ m.owner = c
  increasing : sl.implementations.Pairwise fun e e' => e.2.id.index < e'.2.id.index
  origin_first : sl.implementations.head? = some (sl.origin.owner, sl.origin)
  same_name : ∀ c m, (c, m) ∈ sl.implementations → m.name = sl.name ∧ m.signature = sl.signature
  virtual_iff : ∀ c m, (c, m) ∈ sl.implementations → (m.kind = .virtual ↔ m = sl.origin)
  overrides_below : ∀ c m, (c, m) ∈ sl.implementations → m ≠ sl.origin → m.kind = .override ∧
    c ≠ sl.origin.owner ∧ h.isSameOrDescendant c sl.origin.owner = true
  one_per_class : ∀ c m m', (c, m) ∈ sl.implementations → (c, m') ∈ sl.implementations → m = m'

theorem Recorded.holdsMethods (hrec : h.Recorded s sl) (hwf : h.WellFormed)
    (hslot : h.slot? s = some sl) : h.HoldsMethods s sl := by
  have horigin : (sl.origin.owner, sl.origin) ∈ sl.implementations :=
    List.mem_of_mem_head? hrec.origin_first
  have hshares : ∀ {c m}, (c, m) ∈ sl.implementations → h.SharesSlot m sl.origin := by
    intro c m hm
    obtain ⟨hall, hs, -⟩ := hrec.mem_iff.mp hm
    exact hwf.slotted.shares_origin hslot hall hs
  have hone : ∀ c m m', (c, m) ∈ sl.implementations → (c, m') ∈ sl.implementations → m = m' := by
    intro c m m' hm hm'
    obtain ⟨hall, hs, howner⟩ := hrec.mem_iff.mp hm
    obtain ⟨hall', hs', howner'⟩ := hrec.mem_iff.mp hm'
    exact hwf.eq_of_same_slot hall hall' hs hs' (howner.trans howner'.symm)
  refine ⟨fun c m => hrec.mem_iff, ?_, hrec.origin_first, ?_, ?_, ?_, hone⟩
  · rw [hrec.implementations_eq, List.pairwise_map]
    exact hwf.indexed.pairwise_id.filter _
  · intro c m hm
    rw [hrec.name_eq, hrec.signature_eq]
    exact ⟨(hshares hm).name_eq, (hshares hm).signature_eq⟩
  · intro c m hm
    refine ⟨(hshares hm).eq_origin, ?_⟩
    rintro rfl
    exact hrec.origin_virtual
  · intro c m hm hne
    obtain ⟨hall, hs, rfl⟩ := hrec.mem_iff.mp hm
    have hkind := (hwf.slotted.isSome_slot_iff hall).mp (by simp [hs])
    refine ⟨hkind.resolve_left fun hvirtual => hne ((hshares hm).eq_origin hvirtual), ?_,
      isSameOrDescendant_iff.mpr (hshares hm).owner_below⟩
    intro howner
    exact hne (hone _ _ _ hm (howner ▸ horigin))

/-- The origin of a slot is one of its methods. -/
theorem Reachable.origin_attached (hr : h.Reachable) (hslot : h.slot? s = some sl) :
    sl.origin ∈ h.methods ∧ sl.origin.slot = some s := by
  have hrec := hr.slotsRecorded hslot
  obtain ⟨hall, hs, -⟩ := hrec.mem_iff.mp (List.mem_of_mem_head? hrec.origin_first)
  exact ⟨hall, hs⟩

/-- An override has the method that opened its slot properly above its class. -/
theorem Reachable.exists_origin_above (hr : h.Reachable) (hm : m ∈ h.methods)
    (hs : m.slot = some s) (hkind : m.kind = .override) :
    ∃ o ∈ h.methods, o.slot = some s ∧ o.owner ≠ m.owner ∧ o.owner ∈ h.ancestors m.owner := by
  have hwf := hr.wellFormed
  obtain ⟨sl, hslot⟩ := hwf.slotted.exists_slot? hm hs
  have hholds := (hr.slotsRecorded hslot).holdsMethods hwf hslot
  have hattached := (hholds.mem_iff _ m).mpr ⟨hm, hs, rfl⟩
  have hne : m ≠ sl.origin := by
    intro heq
    rw [← hholds.virtual_iff _ m hattached, hkind] at heq
    contradiction
  obtain ⟨-, howner, hbelow⟩ := hholds.overrides_below _ m hattached hne
  obtain ⟨ho, hos⟩ := hr.origin_attached hslot
  exact ⟨sl.origin, ho, hos, Ne.symm howner, isSameOrDescendant_iff.mp hbelow⟩

/-- **The three views of a slot agree**, in every hierarchy that declarations make.  Exactly the
virtual methods and the overrides have a slot, and it is a known one.  The record of every slot
holds the methods that have it.  The table of a class has a method for a slot exactly if the
class declares it and the method has that slot. -/
theorem slots_agree (hr : h.Reachable) :
    (∀ m ∈ h.methods, m.slot.isSome = true ↔ m.kind = .virtual ∨ m.kind = .override) ∧
      (∀ m ∈ h.methods, ∀ s, m.slot = some s → ∃ sl, h.slot? s = some sl) ∧
      (∀ s sl, h.slot? s = some sl → h.HoldsMethods s sl) ∧
      ∀ c s m, h.implementation? c s = some m ↔
        m ∈ h.methods ∧ m.owner = c ∧ m.slot = some s := by
  have hwf := hr.wellFormed
  refine ⟨fun m hm => hwf.slotted.isSome_slot_iff hm, ?_, ?_, ?_⟩
  · intro m hm s hs
    exact hwf.slotted.exists_slot? hm hs
  · intro s sl hslot
    exact (hr.slotsRecorded hslot).holdsMethods hwf hslot
  · intro c s m
    rw [hwf.slotted.implementation?_iff, hwf.indexed.mem_members_iff, and_assoc]

/-- In the hierarchy of three classes, one slot holds the virtual `f(long)` of the first and the
override in the last, and the table of the last class finds that override. -/
theorem slots_agree_threeGenerations :
    ∃ sl, threeGenerations.slot? ⟨0⟩ = some sl ∧
      sl.implementations.map (fun e => (e.1, e.2.kind)) = [(⟨0⟩, .virtual), (⟨2⟩, .override)] ∧
      threeGenerations.HoldsMethods ⟨0⟩ sl ∧
      ∃ m, threeGenerations.implementation? ⟨2⟩ ⟨0⟩ = some m ∧ m ∈ threeGenerations.methods ∧
        m.owner = ⟨2⟩ ∧ m.slot = some ⟨0⟩ :=
  have hagree := slots_agree reachable_threeGenerations
  ⟨_, rfl, rfl, hagree.2.2.1 _ _ rfl, _, rfl, (hagree.2.2.2 _ _ _).mp rfl⟩

end LateBinding.Hierarchy
