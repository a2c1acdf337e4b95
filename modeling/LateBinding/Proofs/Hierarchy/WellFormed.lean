import LateBinding.Proofs.Hierarchy.Growth
import LateBinding.Proofs.Hierarchy.Lineage

/-!
# LateBinding.Proofs.Hierarchy.WellFormed

What every hierarchy satisfies, however its declarations were ordered.

* `Indexed` — the tables of the classes agree with the list of all methods, and
  the table of names with the list of classes;
* `Slotted` — the methods of one slot share the name and the signature of the
  virtual method that opened it, sit at or below its class, and are found through
  their classes.

`Reachable.wellFormed` assembles both, with the order of parents and children, from
what the entry of a class and of a method preserves.
-/

namespace LateBinding.Hierarchy

variable {h : Hierarchy} {k : ClassInfo} {m : Method}

/-! ## agreeing tables -/

/-- The tables agree: what a class lists are the methods that name it as their
owner, grouped by name, and no two of one name and signature. -/
structure Indexed (h : Hierarchy) : Prop where
  classNamed?_iff : ∀ {name : String} {c : ClassId},
    h.classNamed? name = some c ↔ (h.class? c).map (·.name) = some name
  id_eq : ∀ {i : Nat} {m : Method}, h.methods[i]? = some m → m.id = ⟨i⟩
  owner_known : ∀ {m : Method}, m ∈ h.methods → ∃ k, h.class? m.owner = some k
  members_eq : ∀ c : ClassId, h.members c = h.methods.filter (·.owner = c)
  membersNamed_eq : ∀ (c : ClassId) (name : String),
    h.membersNamed c name = (h.members c).filter (·.name = name)
  distinct : ∀ {c : ClassId} {m m' : Method}, m ∈ h.members c → m' ∈ h.members c →
    m.name = m'.name → m.signature = m'.signature → m = m'

namespace Indexed

theorem mem_members_iff (hix : h.Indexed) {c : ClassId} :
    m ∈ h.members c ↔ m ∈ h.methods ∧ m.owner = c := by
  rw [hix.members_eq c, List.mem_filter, decide_eq_true_eq]

theorem mem_membersNamed_iff (hix : h.Indexed) {c : ClassId} {name : String} :
    m ∈ h.membersNamed c name ↔ m ∈ h.members c ∧ m.name = name := by
  rw [hix.membersNamed_eq c name, List.mem_filter, decide_eq_true_eq]

/-- A class declares a method under a name and signature if it lists one. -/
theorem declared?_eq_some_iff (hix : h.Indexed) {c : ClassId} {name : String} {s : Signature} :
    h.declared? c name s = some m ↔ m ∈ h.members c ∧ m.name = name ∧ m.signature = s := by
  constructor
  · intro hm
    have hmem := hix.mem_membersNamed_iff.mp (List.mem_of_find?_eq_some hm)
    have hs := List.find?_some hm
    exact ⟨hmem.1, hmem.2, by simpa using hs⟩
  · rintro ⟨hmem, rfl, rfl⟩
    cases hd : h.declared? c m.name m.signature with
    | none =>
        have hnone := List.find?_eq_none.mp hd m (hix.mem_membersNamed_iff.mpr ⟨hmem, rfl⟩)
        simp at hnone
    | some m' =>
        have hmem' := hix.mem_membersNamed_iff.mp (List.mem_of_find?_eq_some hd)
        have hs := List.find?_some hd
        rw [hix.distinct hmem hmem'.1 hmem'.2.symm (by simpa using (beq_iff_eq.mp hs).symm)]

theorem declared?_eq_none_iff (hix : h.Indexed) {c : ClassId} {name : String} {s : Signature} :
    h.declared? c name s = none ↔ ∀ m ∈ h.members c, m.name = name → m.signature ≠ s := by
  rw [Option.eq_none_iff_forall_not_mem]
  constructor
  · intro hnone m hm hname hs
    exact hnone m (hix.declared?_eq_some_iff.mpr ⟨hm, hname, hs⟩)
  · intro hall m hm
    obtain ⟨hmem, hname, hs⟩ := hix.declared?_eq_some_iff.mp hm
    exact hall m hmem hname hs

/-- The nearest method of a name and signature is declared in the lineage. -/
theorem of_nearest? (hix : h.Indexed) {c : ClassId} {name : String} {s : Signature}
    (hm : h.nearest? c name s = some m) :
    m.owner ∈ h.ancestors c ∧ m ∈ h.methods ∧ m.name = name ∧ m.signature = s := by
  obtain ⟨a, ha, hd⟩ := List.exists_of_findSome?_eq_some hm
  obtain ⟨hmem, hname, hs⟩ := hix.declared?_eq_some_iff.mp hd
  obtain ⟨hall, rfl⟩ := hix.mem_members_iff.mp hmem
  exact ⟨ha, hall, hname, hs⟩

/-- Methods are told apart by their numbers. -/
theorem eq_of_id_eq (hix : h.Indexed) {m m' : Method} (hm : m ∈ h.methods) (hm' : m' ∈ h.methods)
    (hid : m.id = m'.id) : m = m' := by
  obtain ⟨i, hi⟩ := List.mem_iff_getElem?.mp hm
  obtain ⟨j, hj⟩ := List.mem_iff_getElem?.mp hm'
  rw [hix.id_eq hi, hix.id_eq hj, MethodId.mk.injEq] at hid
  rw [hid, hj] at hi
  exact (Option.some.inj hi).symm

/-- A class has no two methods of one name and signature. -/
theorem eq_of_same_signature (hix : h.Indexed) {m m' : Method} (hm : m ∈ h.methods)
    (hm' : m' ∈ h.methods) (howner : m.owner = m'.owner) (hname : m.name = m'.name)
    (hsig : m.signature = m'.signature) : m = m' :=
  hix.distinct (hix.mem_members_iff.mpr ⟨hm, rfl⟩) (hix.mem_members_iff.mpr ⟨hm', howner.symm⟩)
    hname hsig

/-- No method is listed twice. -/
theorem nodup_methods (hix : h.Indexed) : h.methods.Nodup := by
  rw [List.Nodup, List.pairwise_iff_getElem]
  intro i j hi hj hij heq
  have hidi := hix.id_eq (List.getElem?_eq_getElem hi)
  have hidj := hix.id_eq (List.getElem?_eq_getElem hj)
  rw [heq, hidj, MethodId.mk.injEq] at hidi
  omega

/-- The numbers of the methods increase along the list of all methods. -/
theorem pairwise_id (hix : h.Indexed) :
    h.methods.Pairwise fun m m' => m.id.index < m'.id.index := by
  rw [List.pairwise_iff_getElem]
  intro i j hi hj hij
  rw [hix.id_eq (List.getElem?_eq_getElem hi), hix.id_eq (List.getElem?_eq_getElem hj)]
  exact hij

theorem index_lt_of_classNamed? (hix : h.Indexed) {name : String} {c : ClassId}
    (hc : h.classNamed? name = some c) : c.index < h.classes.length := by
  obtain ⟨k, hk, -⟩ := Option.map_eq_some_iff.mp (hix.classNamed?_iff.mp hc)
  exact index_lt_of_class? hk

end Indexed

theorem indexed_empty : empty.Indexed where
  classNamed?_iff := by simp [classNamed?, class?, empty, Table.get?]
  id_eq := by simp [empty]
  owner_known := by simp [empty]
  members_eq := by simp [members, class?, empty]
  membersNamed_eq := by simp [membersNamed, members, class?, empty]
  distinct := by simp [members, class?, empty]

/-- An accepted class lies below a class with a smaller number. -/
theorem AcceptsClass.parent_lt {name : String} {parentName : Option String}
    {parent : Option ClassId} (hacc : h.AcceptsClass name parentName parent) (hix : h.Indexed)
    (p : ClassId) (hp : parent = some p) : p.index < h.classes.length := by
  have hnamed := hacc.parent_named
  subst hp
  cases parentName with
  | none => simp at hnamed
  | some n => exact hix.index_lt_of_classNamed? (by simpa using hnamed)

/-- The entry of a class keeps the tables in agreement. -/
theorem Indexed.addClass (hix : h.Indexed) {name : String} {parentName : Option String}
    {parent : Option ClassId} (hacc : h.AcceptsClass name parentName parent) :
    (h.addClass name parent).Indexed where
  classNamed?_iff := by
    intro n c
    rw [classNamed?_addClass, class?_addClass]
    by_cases hc : c = ⟨h.classes.length⟩
    · by_cases hn : n = name
      · simp [hc, hn]
      · have hnone : h.classNamed? n ≠ some c := by
          intro hsome
          rw [hix.classNamed?_iff, hc, class?_length] at hsome
          contradiction
        rw [if_neg hn, if_pos hc]
        simp [hnone, Ne.symm hn]
    · rw [if_neg hc]
      by_cases hn : n = name
      · have hnone : (h.class? c).map (·.name) ≠ some name := by
          intro hsome
          rw [← hix.classNamed?_iff, hacc.new] at hsome
          contradiction
        rw [if_pos hn, hn]
        simp only [hnone, iff_false, Option.some.injEq]
        exact Ne.symm hc
      · rw [if_neg hn, hix.classNamed?_iff]
  id_eq := hix.id_eq
  owner_known := by
    intro m hm
    obtain ⟨k, hk⟩ := hix.owner_known hm
    exact ⟨k, class?_addClass_of_some hk⟩
  members_eq := by
    intro c
    rw [members_addClass]
    exact hix.members_eq c
  membersNamed_eq := by
    intro c n
    rw [membersNamed_addClass, members_addClass]
    exact hix.membersNamed_eq c n
  distinct := by
    intro c m m' hm hm'
    rw [members_addClass] at hm hm'
    exact hix.distinct hm hm'

/-- The entry of a method keeps the tables in agreement. -/
theorem Indexed.addMethod (hix : h.Indexed) (hacc : h.AcceptsMethod k m) :
    (h.addMethod m).Indexed where
  classNamed?_iff := by
    intro n c
    rw [classNamed?_addMethod, name_addMethod]
    exact hix.classNamed?_iff
  id_eq := by
    intro i m' hm'
    rw [methods_addMethod, List.getElem?_append] at hm'
    split at hm'
    · exact hix.id_eq hm'
    · obtain ⟨hi, rfl⟩ := List.getElem?_eq_some_iff.mp hm'
      simp only [List.length_singleton] at hi
      rw [List.getElem_singleton, hacc.id_eq, MethodId.mk.injEq]
      omega
  owner_known := by
    intro m' hm'
    have hname := name_addMethod (h := h) m m'.owner
    have hknown : ∃ k', h.class? m'.owner = some k' := by
      rcases List.mem_append.mp hm' with hm' | hm'
      · exact hix.owner_known hm'
      · rw [List.mem_singleton.mp hm']
        exact ⟨k, hacc.owner⟩
    obtain ⟨k', hk'⟩ := hknown
    rw [hk', Option.map_some, Option.map_eq_some_iff] at hname
    obtain ⟨k'', hk'', -⟩ := hname
    exact ⟨k'', hk''⟩
  members_eq := by
    intro c
    rw [members_addMethod hacc.owner, hix.members_eq, methods_addMethod, List.filter_append]
    by_cases hc : c = m.owner
    · simp [hc]
    · simp [hc, Ne.symm hc]
  membersNamed_eq := by
    intro c n
    rw [membersNamed_addMethod hacc.owner, members_addMethod hacc.owner, hix.membersNamed_eq]
    by_cases hc : c = m.owner
    · by_cases hn : n = m.name
      · simp [hc, hn]
      · simp [hc, hn, Ne.symm hn]
    · simp [hc]
  distinct := by
    intro c m₁ m₂ h₁ h₂ hname hsig
    have hnew := hix.declared?_eq_none_iff.mp hacc.new
    rw [members_addMethod hacc.owner] at h₁ h₂
    by_cases hc : c = m.owner
    · subst hc
      rw [if_pos rfl, List.mem_append, List.mem_singleton] at h₁ h₂
      rcases h₁ with h₁ | rfl <;> rcases h₂ with h₂ | rfl
      · exact hix.distinct h₁ h₂ hname hsig
      · exact absurd hsig (hnew m₁ h₁ hname)
      · exact absurd hsig.symm (hnew m₂ h₂ hname.symm)
      · rfl
    · rw [if_neg hc] at h₁ h₂
      exact hix.distinct h₁ h₂ hname hsig

/-! ## slots -/

/-- A method shares a slot with its origin: both have one name and signature, the
method is declared at or below the origin, and a virtual one is the origin. -/
structure SharesSlot (h : Hierarchy) (m origin : Method) : Prop where
  name_eq : m.name = origin.name
  signature_eq : m.signature = origin.signature
  owner_below : origin.owner ∈ h.ancestors m.owner
  eq_origin : m.kind = .virtual → m = origin

/-- Slots and methods agree: exactly the dynamically dispatched methods have a slot,
they share it with the method that opened it, and the table of a class finds the
method that the class declares for a slot. -/
structure Slotted (h : Hierarchy) : Prop where
  isSome_slot : ∀ {m : Method}, m ∈ h.methods → m.slot.isSome = m.kind.isDynamic
  shares : ∀ {m : Method} {s : SlotId}, m ∈ h.methods → m.slot = some s →
    ∃ o, h.origin? s = some o ∧ h.SharesSlot m o
  implementation?_iff : ∀ {c : ClassId} {s : SlotId} {m : Method},
    h.implementation? c s = some m ↔ m ∈ h.members c ∧ m.slot = some s

/-- Methods of one slot have the same name and signature. -/
theorem Slotted.same_signature (hsl : h.Slotted) {m m' : Method} {s : SlotId}
    (hm : m ∈ h.methods) (hm' : m' ∈ h.methods) (hs : m.slot = some s) (hs' : m'.slot = some s) :
    m.name = m'.name ∧ m.signature = m'.signature := by
  obtain ⟨o, ho, hshares⟩ := hsl.shares hm hs
  obtain ⟨o', ho', hshares'⟩ := hsl.shares hm' hs'
  obtain rfl : o = o' := Option.some.inj (ho.symm.trans ho')
  exact ⟨hshares.name_eq.trans hshares'.name_eq.symm,
    hshares.signature_eq.trans hshares'.signature_eq.symm⟩

theorem slotted_empty : empty.Slotted where
  isSome_slot := by simp [empty]
  shares := by simp [empty]
  implementation?_iff := by simp [implementation?, members, class?, empty]

/-- The slot of an accepted method is shared with its origin once it is entered. -/
theorem AcceptsMethod.shares (hacc : h.AcceptsMethod k m) (hac : h.Acyclic) (hix : h.Indexed)
    (hsl : h.Slotted) {s : SlotId} (hs : m.slot = some s) :
    ∃ o, (h.addMethod m).origin? s = some o ∧ (h.addMethod m).SharesSlot m o := by
  have hself : m.owner ∈ h.ancestors m.owner := mem_ancestors_self hacc.owner
  cases hkind : m.kind with
  | virtual =>
      have hslot := hacc.slot_of_virtual hkind
      obtain rfl : s = ⟨h.slots.length⟩ := Option.some.inj (hs.symm.trans hslot)
      refine ⟨m, by simp [origin?, slot?_addMethod_of_eq hslot], rfl, rfl, ?_, fun _ => rfl⟩
      rwa [ancestors_addMethod]
  | override =>
      obtain ⟨p, o, s', hp, hnear, hos, hms⟩ := hacc.slot_of_override hkind
      obtain rfl : s = s' := Option.some.inj (hs.symm.trans hms)
      obtain ⟨hmem, hall, hname, hsig⟩ := hix.of_nearest? hnear
      obtain ⟨o', ho', hshares⟩ := hsl.shares hall hos
      refine ⟨o', origin?_addMethod_of_some ho', hname ▸ hshares.name_eq,
        hsig ▸ hshares.signature_eq, ?_, ?_⟩
      · rw [ancestors_addMethod, hac.ancestors_of_child hacc.owner hp]
        exact List.mem_cons_of_mem _ (hac.mem_ancestors_trans hshares.owner_below hmem)
      · intro hvirtual
        rw [hkind] at hvirtual
        contradiction
  | hide | plain =>
      rw [hacc.slot_of_static (by rw [hkind]; rfl)] at hs
      contradiction

/-- No method that its class already declares has the slot of an accepted method. -/
theorem AcceptsMethod.slot_ne (hacc : h.AcceptsMethod k m) (hac : h.Acyclic) (hix : h.Indexed)
    (hsl : h.Slotted) {s : SlotId} (hs : m.slot = some s) {m' : Method}
    (hm' : m' ∈ h.members m.owner) : m'.slot ≠ some s := by
  intro hs'
  obtain ⟨o, ho, hshares⟩ := hacc.shares hac hix hsl hs
  obtain ⟨o', ho', hshares'⟩ := hsl.shares (hix.mem_members_iff.mp hm').1 hs'
  obtain rfl : o' = o := Option.some.inj ((origin?_addMethod_of_some ho').symm.trans ho)
  -- both are methods of one slot, so the class would declare a name and signature twice
  exact hix.declared?_eq_none_iff.mp hacc.new m' hm'
    (hshares'.name_eq.trans hshares.name_eq.symm)
    (hshares'.signature_eq.trans hshares.signature_eq.symm)

/-- The entry of a class keeps slots and methods in agreement. -/
theorem Slotted.addClass (hsl : h.Slotted) (hac : h.Acyclic) (hix : h.Indexed) {name : String}
    {parentName : Option String} {parent : Option ClassId}
    (hacc : h.AcceptsClass name parentName parent) : (h.addClass name parent).Slotted where
  isSome_slot := hsl.isSome_slot
  shares := by
    intro m s hm hs
    obtain ⟨o, ho, hshares⟩ := hsl.shares hm hs
    obtain ⟨k, hk⟩ := hix.owner_known hm
    refine ⟨o, ho, hshares.name_eq, hshares.signature_eq, ?_, hshares.eq_origin⟩
    rw [hac.ancestors_addClass (hacc.parent_lt hix) hk]
    exact hshares.owner_below
  implementation?_iff := by
    intro c s m
    rw [implementation?_addClass, members_addClass]
    exact hsl.implementation?_iff

/-- The entry of a method keeps slots and methods in agreement. -/
theorem Slotted.addMethod (hsl : h.Slotted) (hac : h.Acyclic) (hix : h.Indexed)
    (hacc : h.AcceptsMethod k m) : (h.addMethod m).Slotted where
  isSome_slot := by
    intro m' hm'
    rcases List.mem_append.mp hm' with hm' | hm'
    · exact hsl.isSome_slot hm'
    · rw [List.mem_singleton.mp hm']
      cases hkind : m.kind with
      | virtual => rw [hacc.slot_of_virtual hkind]; rfl
      | override =>
          obtain ⟨p, o, s, -, -, -, hs⟩ := hacc.slot_of_override hkind
          rw [hs]; rfl
      | hide | plain => rw [hacc.slot_of_static (by rw [hkind]; rfl)]; rfl
  shares := by
    intro m' s hm' hs
    rcases List.mem_append.mp hm' with hm' | hm'
    · obtain ⟨o, ho, hshares⟩ := hsl.shares hm' hs
      refine ⟨o, origin?_addMethod_of_some ho, hshares.name_eq, hshares.signature_eq, ?_,
        hshares.eq_origin⟩
      rw [ancestors_addMethod]
      exact hshares.owner_below
    · rw [List.mem_singleton.mp hm'] at hs ⊢
      exact hacc.shares hac hix hsl hs
  implementation?_iff := by
    intro c s m'
    rw [implementation?_addMethod hacc.owner, members_addMethod hacc.owner]
    by_cases hc : c = m.owner
    · subst hc
      simp only [true_and, if_true, List.mem_append, List.mem_singleton]
      by_cases hs : m.slot = some s
      · rw [if_pos hs]
        constructor
        · rintro ⟨rfl⟩
          exact ⟨Or.inr rfl, hs⟩
        · rintro ⟨hm' | rfl, hs'⟩
          · exact absurd hs' (hacc.slot_ne hac hix hsl hs hm')
          · rfl
      · rw [if_neg hs, hsl.implementation?_iff]
        constructor
        · rintro ⟨hm', hs'⟩
          exact ⟨Or.inl hm', hs'⟩
        · rintro ⟨hm' | rfl, hs'⟩
          · exact ⟨hm', hs'⟩
          · exact absurd hs' hs
    · simp only [hc, false_and, if_false]
      exact hsl.implementation?_iff

/-! ## well-formedness -/

/-- Parents come before their children, and all tables agree. -/
structure WellFormed (h : Hierarchy) : Prop where
  acyclic : h.Acyclic
  indexed : h.Indexed
  slotted : h.Slotted

theorem wellFormed_empty : empty.WellFormed where
  acyclic := by
    intro c k p hk
    simp [class?, empty] at hk
  indexed := indexed_empty
  slotted := slotted_empty

theorem WellFormed.addClass (hwf : h.WellFormed) {name : String} {parentName : Option String}
    {parent : Option ClassId} (hacc : h.AcceptsClass name parentName parent) :
    (h.addClass name parent).WellFormed where
  acyclic := hwf.acyclic.addClass (hacc.parent_lt hwf.indexed)
  indexed := hwf.indexed.addClass hacc
  slotted := hwf.slotted.addClass hwf.acyclic hwf.indexed hacc

theorem WellFormed.addMethod (hwf : h.WellFormed) (hacc : h.AcceptsMethod k m) :
    (h.addMethod m).WellFormed where
  acyclic := hwf.acyclic.addMethod m
  indexed := hwf.indexed.addMethod hacc
  slotted := hwf.slotted.addMethod hwf.acyclic hwf.indexed hacc

/-- Every hierarchy that declarations make is well-formed. -/
theorem Reachable.wellFormed (hr : h.Reachable) : h.WellFormed :=
  hr.induction wellFormed_empty (fun _ _ _ _ hwf hacc => hwf.addClass hacc)
    (fun _ _ _ hwf hacc => hwf.addMethod hacc)

end LateBinding.Hierarchy
