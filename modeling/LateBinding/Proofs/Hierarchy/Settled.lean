import LateBinding.Proofs.Hierarchy.WellFormed

/-!
# LateBinding.Proofs.Hierarchy.Settled

Hierarchies in which the slot of every override is still the one that its class
inherits.  A method that is declared late, between an override and what it
overrides, would break this; methods that are only declared in the newest class
never do, because nothing lies below that class yet.
-/

namespace LateBinding.Hierarchy

variable {h : Hierarchy} {c p : ClassId} {k : ClassInfo} {m : Method} {name : String}
  {s : Signature}

/-! ## the nearest declaration -/

/-- A search finds the same with two functions that agree on the list. -/
theorem findSome?_congr {α β : Type} {f g : α → Option β} {l : List α}
    (hfg : ∀ a ∈ l, f a = g a) : l.findSome? f = l.findSome? g := by
  induction l with
  | nil => rfl
  | cons a l ih =>
      rw [List.findSome?_cons, List.findSome?_cons, hfg a List.mem_cons_self,
        ih fun b hb => hfg b (List.mem_cons_of_mem a hb)]

/-- What a class declares is nearest to it. -/
theorem nearest?_of_declared? (hk : h.class? c = some k) (hm : h.declared? c name s = some m) :
    h.nearest? c name s = some m := by
  rw [nearest?, ancestors_eq_cons hk, List.findSome?_cons, hm]

theorem Acyclic.nearest?_of_child (hac : h.Acyclic) (hk : h.class? c = some k)
    (hp : k.parent = some p) :
    h.nearest? c name s = (h.declared? c name s).or (h.nearest? p name s) := by
  rw [nearest?, hac.ancestors_of_child hk hp, List.findSome?_cons]
  cases h.declared? c name s <;> rfl

/-- A new class changes nothing that a known class declares or inherits. -/
theorem Acyclic.nearest?_addClass (hac : h.Acyclic) {n : String} {parent : Option ClassId}
    (hparent : ∀ p, parent = some p → p.index < h.classes.length) (hk : h.class? c = some k) :
    (h.addClass n parent).nearest? c name s = h.nearest? c name s := by
  rw [nearest?, hac.ancestors_addClass hparent hk]
  simp only [declared?_addClass]
  rfl

theorem declared?_addMethod_of_ne (hk : h.class? m.owner = some k) (hne : c ≠ m.owner) :
    (h.addMethod m).declared? c name s = h.declared? c name s := by
  rw [declared?, membersNamed_addMethod hk, if_neg (by simp [hne])]
  rfl

/-- A new method changes nothing for a class that its own class is not above. -/
theorem nearest?_addMethod_of_not_mem (hk : h.class? m.owner = some k)
    (hmem : m.owner ∉ h.ancestors c) :
    (h.addMethod m).nearest? c name s = h.nearest? c name s := by
  rw [nearest?, nearest?, ancestors_addMethod]
  refine findSome?_congr fun a ha => declared?_addMethod_of_ne hk ?_
  rintro rfl
  exact hmem ha

/-! ## settled hierarchies -/

/-- The slot of every override is the slot of the nearest declaration of its name and
signature above its class. -/
def Settled (h : Hierarchy) : Prop :=
  ∀ ⦃m : Method⦄, m ∈ h.methods → m.kind = .override →
    ∃ k p, h.class? m.owner = some k ∧ k.parent = some p ∧
      h.visibleSlot? p m.name m.signature = m.slot

theorem settled_empty : empty.Settled := by
  intro m hm
  simp [empty] at hm

theorem Settled.addClass (hset : h.Settled) (hwf : h.WellFormed) {parentName : Option String}
    {parent : Option ClassId} (hacc : h.AcceptsClass name parentName parent) :
    (h.addClass name parent).Settled := by
  intro m hm hkind
  obtain ⟨k, p, hk, hp, hslot⟩ := hset hm hkind
  obtain ⟨kp, hkp⟩ := hwf.acyclic.class?_parent hk hp
  refine ⟨k, p, class?_addClass_of_some hk, hp, ?_⟩
  rw [visibleSlot?, hwf.acyclic.nearest?_addClass (hacc.parent_lt hwf.indexed) hkp]
  exact hslot

/-- A method that is declared in the newest class leaves a hierarchy settled. -/
theorem Settled.addMethod (hset : h.Settled) (hwf : h.WellFormed) (hacc : h.AcceptsMethod k m)
    (hnewest : m.owner.index + 1 = h.classes.length) : (h.addMethod m).Settled := by
  -- the newest class is above no parent, so what is visible from a parent stays
  have hparent : ∀ {c k p}, h.class? c = some k → k.parent = some p → m.owner ∉ h.ancestors p := by
    intro c k p hk hp hmem
    have hlt := hwf.acyclic hk hp
    have hle := hwf.acyclic.index_le_of_mem hmem
    have hc := index_lt_of_class? hk
    omega
  have hvisible : ∀ {c k p}, h.class? c = some k → k.parent = some p →
      ∀ n s, (h.addMethod m).visibleSlot? p n s = h.visibleSlot? p n s := by
    intro c k p hk hp n s
    rw [visibleSlot?, nearest?_addMethod_of_not_mem hacc.owner (hparent hk hp)]
    rfl
  have hentered : ∀ {c k p}, h.class? c = some k → k.parent = some p →
      ∃ k', (h.addMethod m).class? c = some k' ∧ k'.parent = some p := by
    intro c k p hk hp
    have hsame := parent_addMethod (h := h) m c
    rw [hk, Option.map_some, hp, Option.map_eq_some_iff] at hsame
    exact hsame
  intro m' hm' hkind
  rcases List.mem_append.mp hm' with hm' | hm'
  · obtain ⟨k', p, hk', hp, hslot⟩ := hset hm' hkind
    obtain ⟨k'', hk'', hp'⟩ := hentered hk' hp
    exact ⟨k'', p, hk'', hp', by rw [hvisible hk' hp, hslot]⟩
  · obtain rfl := List.mem_singleton.mp hm'
    obtain ⟨p, o, s, hp, hnear, hos, hms⟩ := hacc.slot_of_override hkind
    obtain ⟨k'', hk'', hp'⟩ := hentered hacc.owner hp
    refine ⟨k'', p, hk'', hp', ?_⟩
    rw [hvisible hacc.owner hp, visibleSlot?, hnear, Option.bind_some, hos, hms]

end LateBinding.Hierarchy
