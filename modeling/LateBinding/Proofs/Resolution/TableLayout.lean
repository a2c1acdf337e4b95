import Mathlib.Data.List.Basic
import LateBinding.SlotTable
import LateBinding.Proofs.Hierarchy.Slots
import LateBinding.Proofs.Resolution.SlotTable

/-!
# LateBinding.Proofs.Resolution.TableLayout

How the slot table of a class is laid out on that of its parent.

The table of the parent is filled first, and then the methods of the class are entered.  A slot that
the parent has keeps its place, whatever is written to it; a new one is put last.  The overrides of
the class are those of its methods whose slots the parent has, as the origin of the slot is declared
properly above them; the slots of its virtual methods are new.  All this holds whatever the order
in which the methods of the two classes were declared.
-/

namespace LateBinding.Hierarchy

variable {h : Hierarchy} {c p : ClassId} {k : ClassInfo} {m : Method} {s : SlotId}

/-! ## places in a table -/

/-- Methods of different slots put those slots last that the table does not have. -/
theorem keys_foldl_enterSlot {ms : List Method} {t : Table SlotId Method}
    (hnodup : (ms.filterMap (·.slot)).Nodup) :
    (ms.foldl enterSlot t).keys = t.keys ++ (ms.filterMap (·.slot)).filter (· ∉ t.keys) := by
  induction ms generalizing t with
  | nil => simp
  | cons m ms ih =>
      cases hs : m.slot with
      | none =>
          rw [List.filterMap_cons_none hs] at hnodup ⊢
          rw [List.foldl_cons, ih hnodup]
          simp only [enterSlot, hs]
      | some s =>
          rw [List.filterMap_cons_some hs] at hnodup ⊢
          obtain ⟨hnew, hrest⟩ := List.nodup_cons.mp hnodup
          have hkeys : (enterSlot t m).keys = if s ∈ t.keys then t.keys else t.keys ++ [s] := by
            simp only [enterSlot, hs, Table.keys_insert]
          rw [List.foldl_cons, ih hrest, hkeys]
          by_cases hmem : s ∈ t.keys
          · simp [hmem]
          · -- `s` has its place now, and no later method writes to it
            have hsame : (ms.filterMap (·.slot)).filter (· ∉ t.keys ++ [s]) =
                (ms.filterMap (·.slot)).filter (· ∉ t.keys) := by
              refine List.filter_congr fun s' hs' => ?_
              have hne : s' ≠ s := ne_of_mem_of_not_mem hs' hnew
              simp [hne]
            rw [if_neg hmem, hsame, List.filter_cons_of_pos (by simpa using hmem),
              List.append_assoc, List.singleton_append]

/-- The table of a class is that of its parent with the methods of the class entered. -/
theorem Acyclic.slotTable_of_child (hac : h.Acyclic) (hk : h.class? c = some k)
    (hp : k.parent = some p) : h.slotTable c = (h.members c).foldl enterSlot (h.slotTable p) := by
  simp only [slotTable, hac.ancestors_of_child hk hp, List.reverse_cons, List.flatMap_append,
    List.flatMap_singleton, List.foldl_append]

/-- The table of a class has the slots of the methods at or above it. -/
theorem WellFormed.mem_keys_slotTable_iff (hwf : h.WellFormed) :
    s ∈ (h.slotTable c).keys ↔ ∃ m ∈ h.methods, m.slot = some s ∧ m.owner ∈ h.ancestors c := by
  rw [Table.mem_keys_iff, hwf.slotted.get?_slotTable]
  constructor
  · rintro ⟨t, ht⟩
    obtain ⟨htmem, hts, -⟩ := hwf.of_mostDerived? ht
    exact ⟨t, (hwf.indexed.mem_members_iff.mp htmem).1, hts, hwf.owner_mem_of_mostDerived? ht⟩
  · rintro ⟨m, hm, hs, habove⟩
    obtain ⟨t, ht, -⟩ :=
      hwf.exists_mostDerived? (hwf.indexed.mem_members_iff.mpr ⟨hm, rfl⟩) hs habove
    exact ⟨t, ht⟩

/-! ## the methods of a class and the table of its parent -/

/-- No two methods of a class have the same slot. -/
theorem WellFormed.nodup_slots_members (hwf : h.WellFormed) (c : ClassId) :
    ((h.members c).filterMap (·.slot)).Nodup := by
  have hmembers : (h.members c).Nodup := by
    rw [hwf.indexed.members_eq]
    exact hwf.indexed.nodup_methods.filter _
  rw [List.Nodup, List.pairwise_filterMap]
  refine hmembers.imp_of_mem fun {m m'} hm hm' hne s hs s' hs' heq => hne ?_
  obtain ⟨hall, howner⟩ := hwf.indexed.mem_members_iff.mp hm
  obtain ⟨hall', howner'⟩ := hwf.indexed.mem_members_iff.mp hm'
  exact hwf.eq_of_same_slot hall hall' hs (heq ▸ hs') (howner.trans howner'.symm)

/-- The parent of a class has the slots of the overrides that the class declares, and not those that
the class opens. -/
theorem Reachable.mem_keys_parent_iff (hr : h.Reachable) (hk : h.class? c = some k)
    (hp : k.parent = some p) (hm : m ∈ h.members c) (hs : m.slot = some s) :
    s ∈ (h.slotTable p).keys ↔ m.kind = .override := by
  have hwf := hr.wellFormed
  obtain ⟨hall, rfl⟩ := hwf.indexed.mem_members_iff.mp hm
  rw [hwf.mem_keys_slotTable_iff]
  constructor
  · rintro ⟨m', hm', hs', habove⟩
    refine ((hwf.slotted.isSome_slot_iff hall).mp (by simp [hs])).resolve_left fun hvirtual => ?_
    refine hwf.slot_ne_of_virtual_below hm' hs' hall hvirtual ?_ hs
    intro hbelow
    exact hwf.acyclic.not_mem_ancestors_parent hk hp
      (hwf.acyclic.mem_ancestors_trans hbelow habove)
  · intro hkind
    obtain ⟨o, ho, hos, howner, habove⟩ := hr.exists_origin_above hall hs hkind
    rw [hwf.acyclic.ancestors_of_child hk hp, List.mem_cons] at habove
    exact ⟨o, ho, hos, habove.resolve_left howner⟩

/-- The slots that the virtual methods of a class open, in the order of their declaration. -/
def openedSlots (h : Hierarchy) (c : ClassId) : List SlotId :=
  ((h.members c).filter (·.kind = .virtual)).filterMap (·.slot)

/-- A class puts the slots that it opens behind those of its parent. -/
theorem Reachable.keys_slotTable (hr : h.Reachable) (hk : h.class? c = some k)
    (hp : k.parent = some p) :
    (h.slotTable c).keys = (h.slotTable p).keys ++ h.openedSlots c := by
  have hwf := hr.wellFormed
  rw [hwf.acyclic.slotTable_of_child hk hp, keys_foldl_enterSlot (hwf.nodup_slots_members c)]
  congr 1
  rw [openedSlots, List.filter_filterMap, List.filterMap_filter]
  refine List.filterMap_congr fun m hm => ?_
  cases hs : m.slot with
  | none => simp
  | some s =>
      have hkind := (hwf.slotted.isSome_slot_iff (hwf.indexed.mem_members_iff.mp hm).1).mp
        (by simp [hs])
      have hmem := hr.mem_keys_parent_iff hk hp hm hs
      rcases hkind with hkind | hkind <;> simp [hmem, hkind]

/-! ## what is written to inherited places -/

/-- In an inherited place, a class leaves the method of its parent or puts an override of its own. -/
structure Inherits (h : Hierarchy) (c : ClassId) (s : SlotId) (t t' : Method) : Prop where
  changed_iff : t' ≠ t ↔ ∃ m ∈ h.members c, m.kind = .override ∧ m.slot = some s
  eq_override : ∀ m ∈ h.members c, m.kind = .override → m.slot = some s → t' = m

theorem Reachable.inherits (hr : h.Reachable) (hk : h.class? c = some k) (hp : k.parent = some p)
    {t : Method} (ht : (h.slotTable p).get? s = some t) :
    ∃ t', (h.slotTable c).get? s = some t' ∧ h.Inherits c s t t' := by
  have hwf := hr.wellFormed
  rw [hwf.slotted.get?_slotTable, hwf.acyclic.mostDerived?_of_child hk hp,
    ← hwf.slotted.get?_slotTable, ht]
  cases himpl : h.implementation? c s with
  | none =>
      have hnone : ∀ m ∈ h.members c, m.slot ≠ some s := by
        intro m hm hs
        rw [hwf.slotted.implementation?_iff.mpr ⟨hm, hs⟩] at himpl
        contradiction
      refine ⟨t, rfl, ⟨fun hne => absurd rfl hne, ?_⟩, ?_⟩
      · rintro ⟨m, hm, -, hs⟩
        exact absurd hs (hnone m hm)
      · intro m hm _ hs
        exact absurd hs (hnone m hm)
  | some t' =>
      obtain ⟨hmem, hs⟩ := hwf.slotted.implementation?_iff.mp himpl
      have hkind : t'.kind = .override :=
        (hr.mem_keys_parent_iff hk hp hmem hs).mp (Table.mem_keys_iff.mpr ⟨t, ht⟩)
      have hne : t' ≠ t := by
        rintro rfl
        rw [hwf.slotted.get?_slotTable] at ht
        have habove := hwf.owner_mem_of_mostDerived? ht
        rw [(hwf.indexed.mem_members_iff.mp hmem).2] at habove
        exact hwf.acyclic.not_mem_ancestors_parent hk hp habove
      refine ⟨t', rfl, ⟨fun _ => ⟨t', hmem, hkind, hs⟩, fun _ => hne⟩, ?_⟩
      intro m hm _ hs'
      rw [hwf.slotted.implementation?_iff.mpr ⟨hm, hs'⟩] at himpl
      exact (Option.some.inj himpl).symm

/-! ## the layout -/

/-- The first column of a printed table names the slots in their order. -/
theorem map_slot_slotRows (h : Hierarchy) (c : ClassId) :
    (h.slotRows c).map (·.slot) = (h.slotTable c).keys.map h.slotName := by
  simp only [slotRows, Table.keys, List.map_map, Function.comp_def]

/-- The slot table of a class begins with the slots of its parent's table, in their order, and goes
on with those that its own virtual methods open, in theirs; the printed tables do so as well.  An
inherited slot holds the method that it holds for the parent, unless the class overrides it.  No
slot has two places. -/
structure ExtendsTable (h : Hierarchy) (p c : ClassId) : Prop where
  keys_eq : (h.slotTable c).keys = (h.slotTable p).keys ++ h.openedSlots c
  opens : ∀ m ∈ h.members c, m.kind = .virtual → ∃ s, m.slot = some s ∧ h.origin? s = some m
  inherits : ∀ s ∈ (h.slotTable p).keys, ∃ t t', (h.slotTable p).get? s = some t ∧
    (h.slotTable c).get? s = some t' ∧ h.Inherits c s t t'
  nodup : (h.slotTable c).keys.Nodup
  rows_eq : (h.slotRows c).map (·.slot) =
    (h.slotRows p).map (·.slot) ++ (h.openedSlots c).map h.slotName

/-- **The slot table of a class extends that of its parent**, in every hierarchy that declarations
make. -/
theorem slotTable_extends_parent (hr : h.Reachable) (hk : h.class? c = some k)
    (hp : k.parent = some p) : h.ExtendsTable p c := by
  have hwf := hr.wellFormed
  have hkeys := hr.keys_slotTable hk hp
  refine ⟨hkeys, fun m hm hvirtual => ?_, fun s hs => ?_, nodup_keys_slotTable h c, ?_⟩
  · have hall := (hwf.indexed.mem_members_iff.mp hm).1
    obtain ⟨s, hs⟩ := Option.isSome_iff_exists.mp
      ((hwf.slotted.isSome_slot_iff hall).mpr (.inl hvirtual))
    obtain ⟨o, ho, hshares⟩ := hwf.slotted.shares hall hs
    exact ⟨s, hs, hshares.eq_origin hvirtual ▸ ho⟩
  · obtain ⟨t, ht⟩ := Table.mem_keys_iff.mp hs
    obtain ⟨t', ht', hinherits⟩ := hr.inherits hk hp ht
    exact ⟨t, t', ht, ht', hinherits⟩
  · rw [map_slot_slotRows, map_slot_slotRows, hkeys, List.map_append]

/-- Two classes that are declared by turns: `B` opens the slot of `g()` before `A` opens that of
`e()`. -/
def declaredByTurns : Hierarchy :=
  empty.afterAll
    [ .newClass "A" none, .newClass "B" (some "A"),
      .newMethod ⟨0⟩ { name := "f", signature := ⟨[]⟩, kind := .virtual },
      .newMethod ⟨1⟩ { name := "g", signature := ⟨[]⟩, kind := .virtual },
      .newMethod ⟨1⟩ { name := "f", signature := ⟨[]⟩, kind := .override },
      .newMethod ⟨0⟩ { name := "e", signature := ⟨[]⟩, kind := .virtual } ]

/-- In the table of `B`, the slot of `e()` comes before that of `g()`, though it was opened last, and
the slot of `f()` holds the override. -/
theorem slotTable_extends_parent_declaredByTurns :
    declaredByTurns.ExtendsTable ⟨0⟩ ⟨1⟩ ∧
      (declaredByTurns.slotTable ⟨1⟩).keys = [⟨0⟩, ⟨2⟩] ++ [⟨1⟩] ∧
      ∃ t t' m, (declaredByTurns.slotTable ⟨0⟩).get? ⟨0⟩ = some t ∧
        (declaredByTurns.slotTable ⟨1⟩).get? ⟨0⟩ = some t' ∧ t' ≠ t ∧
        m ∈ declaredByTurns.members ⟨1⟩ ∧ m.kind = .override ∧ t' = m := by
  have hextends : declaredByTurns.ExtendsTable ⟨0⟩ ⟨1⟩ :=
    slotTable_extends_parent ⟨_, rfl⟩ rfl rfl
  obtain ⟨t, t', ht, ht', hinherits⟩ := hextends.inherits ⟨0⟩ (by decide)
  obtain ⟨m, hm, hkind, hs⟩ : ∃ m ∈ declaredByTurns.members ⟨1⟩,
      m.kind = .override ∧ m.slot = some ⟨0⟩ := by decide
  exact ⟨hextends, hextends.keys_eq, t, t', m, ht, ht', hinherits.changed_iff.mpr ⟨m, hm, hkind, hs⟩,
    hm, hkind, hinherits.eq_override m hm hkind hs⟩

end LateBinding.Hierarchy
