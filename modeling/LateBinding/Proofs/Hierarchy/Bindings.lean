import LateBinding.Proofs.Scenario.Build

/-!
# LateBinding.Proofs.Hierarchy.Bindings

What the bindings of a method, the slot that it joins or the method that it hides, say
about the classes above it.

A binding is fixed when the method is declared, so it is right about the declarations that
were made before.  In every hierarchy, an override has the slot of the nearest declaration of
its name and signature above it among the earlier ones, and any other method hides exactly
that one.  A later declaration in between makes a binding out of date, except an override
that joins the same slot.  Scenarios never make one, because they declare their classes from
the root down.
-/

namespace LateBinding

/-- A method is bound to what is declared above it: an override joins the slot of that method,
and there is one with a slot; any other method hides exactly that method, if there is one. -/
structure Method.BoundTo (m : Method) (above : Option Method) : Prop where
  joins : m.kind = .override → ∃ o s, above = some o ∧ o.slot = some s ∧ m.slot = some s
  hides : m.kind ≠ .override → m.hides = above.map (·.id)

namespace Hierarchy

variable {h : Hierarchy} {c a : ClassId} {k : ClassInfo} {m x : Method} {name : String}
  {s : Signature}

/-! ## what is declared above a method -/

/-- The parent of a class. -/
def parent? (h : Hierarchy) (c : ClassId) : Option ClassId := (h.class? c).bind (·.parent)

/-- The nearest declaration of the name and signature of a method strictly above its
class. -/
def declaredAbove? (h : Hierarchy) (m : Method) : Option Method :=
  (h.parent? m.owner).bind fun p => h.nearest? p m.name m.signature

/-- The nearest declaration of the name and signature of a method strictly above its class
among those that were made before it. -/
def declaredBefore? (h : Hierarchy) (m : Method) : Option Method :=
  (h.parent? m.owner).bind fun p => (h.ancestors p).findSome? fun a =>
    (h.declared? a m.name m.signature).filter (·.id.index < m.id.index)

theorem parent?_of_class? (hk : h.class? c = some k) : h.parent? c = k.parent := by
  simp [parent?, hk]

theorem parent?_addClass_of_some {n : String} {parent : Option ClassId}
    (hk : h.class? c = some k) : (h.addClass n parent).parent? c = h.parent? c := by
  rw [parent?_of_class? hk, parent?_of_class? (class?_addClass_of_some hk)]

@[simp] theorem parent?_addMethod (m : Method) (c : ClassId) :
    (h.addMethod m).parent? c = h.parent? c := by
  have hparent := parent_addMethod (h := h) m c
  unfold parent?
  cases hk : h.class? c <;> cases hk' : (h.addMethod m).class? c <;> simp_all

/-- A class declares what it declared before, and the new method if it is its own. -/
theorem declared?_addMethod (hk : h.class? m.owner = some k) :
    (h.addMethod m).declared? a name s = (h.declared? a name s).or
      (if a = m.owner ∧ name = m.name ∧ m.signature = s then some m else none) := by
  rw [declared?, membersNamed_addMethod hk]
  by_cases hown : a = m.owner ∧ name = m.name
  · by_cases hs : m.signature = s
    · simp [hown, hs, declared?]
    · simp [hown, hs, declared?]
  · rw [if_neg hown, if_neg fun hnew => hown ⟨hnew.1, hnew.2.1⟩, Option.or_none, declared?]

/-- The numbers of known methods are below the next one. -/
theorem Indexed.id_lt (hix : h.Indexed) (hm : m ∈ h.methods) :
    m.id.index < h.methods.length := by
  obtain ⟨i, hi⟩ := List.mem_iff_getElem?.mp hm
  rw [hix.id_eq hi]
  exact (List.getElem?_eq_some_iff.mp hi).1

/-! ## earlier declarations -/

/-- A new class changes nothing about the declarations above a known method. -/
theorem WellFormed.declaredBefore?_addClass (hwf : h.WellFormed) {parentName : Option String}
    {parent : Option ClassId} (hacc : h.AcceptsClass name parentName parent)
    (hm : m ∈ h.methods) :
    (h.addClass name parent).declaredBefore? m = h.declaredBefore? m := by
  obtain ⟨k, hk⟩ := hwf.indexed.owner_known hm
  rw [declaredBefore?, declaredBefore?, parent?_addClass_of_some hk, parent?_of_class? hk]
  cases hp : k.parent with
  | none => rfl
  | some p =>
      obtain ⟨kp, hkp⟩ := hwf.acyclic.class?_parent hk hp
      simp only [Option.bind_some, declared?_addClass,
        hwf.acyclic.ancestors_addClass (hacc.parent_lt hwf.indexed) hkp]

/-- A new method is later than all known ones, so it changes nothing about the earlier
declarations above them. -/
theorem AcceptsMethod.declaredBefore?_addMethod (hacc : h.AcceptsMethod k m) (hwf : h.WellFormed)
    (hx : x ∈ h.methods) : (h.addMethod m).declaredBefore? x = h.declaredBefore? x := by
  have hlate : ¬ m.id.index < x.id.index := by
    rw [hacc.id_eq]
    exact Nat.not_lt.mpr (Nat.le_of_lt (hwf.indexed.id_lt hx))
  have hfilter : ∀ a, ((h.addMethod m).declared? a x.name x.signature).filter
      (·.id.index < x.id.index) =
      (h.declared? a x.name x.signature).filter (·.id.index < x.id.index) := by
    intro a
    rw [declared?_addMethod hacc.owner]
    cases h.declared? a x.name x.signature with
    | some y => rfl
    | none =>
        rw [Option.none_or, Option.filter_none]
        split
        · exact Option.filter_some_neg (by simpa using hlate)
        · rfl
  simp only [declaredBefore?, parent?_addMethod, ancestors_addMethod, hfilter]

/-- For a new method, all that is inherited was declared before. -/
theorem AcceptsMethod.declaredBefore?_self (hacc : h.AcceptsMethod k m) (hwf : h.WellFormed) :
    (h.addMethod m).declaredBefore? m = h.inherited? k m.toMethodDecl := by
  rw [declaredBefore?, parent?_addMethod, parent?_of_class? hacc.owner, inherited?]
  cases hp : k.parent with
  | none => rfl
  | some p =>
      rw [Option.bind_some, Option.bind_some, ancestors_addMethod, nearest?]
      refine findSome?_congr fun a ha => ?_
      have hne : a ≠ m.owner := by
        rintro rfl
        exact hwf.acyclic.not_mem_ancestors_parent hacc.owner hp ha
      rw [declared?_addMethod_of_ne hacc.owner hne]
      cases hd : h.declared? a m.name m.signature with
      | none => rfl
      | some y =>
          have hy := (hwf.indexed.declared?_eq_some_iff.mp hd).1
          have hlt := hwf.indexed.id_lt (hwf.indexed.mem_members_iff.mp hy).1
          refine Option.filter_some_pos ?_
          rw [hacc.id_eq]
          simpa using hlt

/-- An accepted method is bound to what its class inherits. -/
theorem AcceptsMethod.boundTo_inherited (hacc : h.AcceptsMethod k m) :
    m.BoundTo (h.inherited? k m.toMethodDecl) := by
  constructor
  · intro hkind
    obtain ⟨p, o, s, hp, hnear, hos, hms⟩ := hacc.slot_of_override hkind
    refine ⟨o, s, ?_, hos, hms⟩
    rw [inherited?, hp, Option.bind_some, hnear]
  · intro hkind
    have hplaced := hacc.placed
    cases hk : m.kind with
    | override => exact absurd hk hkind
    | virtual | hide | plain =>
        simp only [hk, placement, Option.some.injEq, Prod.mk.injEq] at hplaced
        exact hplaced.2.symm

/-- All bindings are right about the earlier declarations. -/
def BoundToEarlier (h : Hierarchy) : Prop :=
  ∀ ⦃m : Method⦄, m ∈ h.methods → m.BoundTo (h.declaredBefore? m)

theorem boundToEarlier_empty : empty.BoundToEarlier := by
  intro m hm
  simp [empty] at hm

theorem BoundToEarlier.addClass (hbound : h.BoundToEarlier) (hwf : h.WellFormed)
    {parentName : Option String} {parent : Option ClassId}
    (hacc : h.AcceptsClass name parentName parent) : (h.addClass name parent).BoundToEarlier := by
  intro m hm
  rw [hwf.declaredBefore?_addClass hacc hm]
  exact hbound hm

theorem BoundToEarlier.addMethod (hbound : h.BoundToEarlier) (hwf : h.WellFormed)
    (hacc : h.AcceptsMethod k m) : (h.addMethod m).BoundToEarlier := by
  intro x hx
  rcases List.mem_append.mp hx with hx | hx
  · rw [hacc.declaredBefore?_addMethod hwf hx]
    exact hbound hx
  · rw [List.mem_singleton.mp hx, hacc.declaredBefore?_self hwf]
    exact hacc.boundTo_inherited

/-- **Bindings are right about earlier declarations**, in every hierarchy that declarations
make. -/
theorem Reachable.boundToEarlier (hr : h.Reachable) : h.BoundToEarlier := by
  have hboth : h.WellFormed ∧ h.BoundToEarlier := by
    refine hr.induction (P := fun h => h.WellFormed ∧ h.BoundToEarlier) ?_ ?_ ?_
    · exact ⟨wellFormed_empty, boundToEarlier_empty⟩
    · intro h name parentName parent hp hacc
      exact ⟨hp.1.addClass hacc, hp.2.addClass hp.1 hacc⟩
    · intro h k m hp hacc
      exact ⟨hp.1.addMethod hacc, hp.2.addMethod hp.1 hacc⟩
  exact hboth.2

/-! ## bindings that are still right -/

/-- A search that finds something of a kind finds the same among what is of that kind. -/
theorem findSome?_filter {α β : Type} {f : α → Option β} {q : β → Bool} {l : List α}
    (hq : ∀ b, l.findSome? f = some b → q b = true) :
    l.findSome? (fun a => (f a).filter q) = l.findSome? f := by
  induction l with
  | nil => rfl
  | cons a l ih =>
      rw [List.findSome?_cons, List.findSome?_cons]
      rw [List.findSome?_cons] at hq
      cases hfa : f a with
      | none =>
          simp only [hfa] at hq
          simpa using ih hq
      | some b =>
          simp only [hfa, Option.some.injEq, forall_eq'] at hq
          simp only [Option.filter_some_pos hq]

/-- If the nearest declaration above a method is earlier, it is the nearest of the earlier
ones. -/
theorem declaredBefore?_eq_above
    (hearlier : ∀ o, h.declaredAbove? m = some o → o.id.index < m.id.index) :
    h.declaredBefore? m = h.declaredAbove? m := by
  rw [declaredAbove?] at hearlier
  rw [declaredBefore?, declaredAbove?]
  cases hp : h.parent? m.owner with
  | none => rfl
  | some p =>
      simp only [hp, Option.bind_some, nearest?] at hearlier ⊢
      exact findSome?_filter fun o ho => by simpa using hearlier o ho

/-- The nearest of the earlier declarations is earlier. -/
theorem id_lt_of_declaredBefore? {o : Method} (ho : h.declaredBefore? m = some o) :
    o.id.index < m.id.index := by
  obtain ⟨p, -, ho⟩ := Option.bind_eq_some_iff.mp ho
  obtain ⟨a, -, ho⟩ := List.exists_of_findSome?_eq_some ho
  simpa using (Option.filter_eq_some_iff.mp ho).2

/-- **A binding is right about the hierarchy as it is** exactly if nothing was declared in
between since then, or the method is an override and what was declared joins its slot. -/
theorem boundTo_above_iff (hbefore : m.BoundTo (h.declaredBefore? m)) :
    m.BoundTo (h.declaredAbove? m) ↔ ∀ o, h.declaredAbove? m = some o →
      o.id.index < m.id.index ∨ m.kind = .override ∧ o.slot = m.slot := by
  constructor
  · intro habove o ho
    by_cases hkind : m.kind = .override
    · obtain ⟨o', s, ho', hos, hms⟩ := habove.joins hkind
      obtain rfl : o = o' := Option.some.inj (ho.symm.trans ho')
      exact .inr ⟨hkind, hos.trans hms.symm⟩
    · -- the hidden method is named by its number, and was declared before
      have hsame := (hbefore.hides hkind).symm.trans (habove.hides hkind)
      rw [ho, Option.map_some, Option.map_eq_some_iff] at hsame
      obtain ⟨b, hb, hid⟩ := hsame
      rw [← hid]
      exact .inl (id_lt_of_declaredBefore? hb)
  · intro hright
    by_cases hearlier : ∀ o, h.declaredAbove? m = some o → o.id.index < m.id.index
    · rwa [← declaredBefore?_eq_above hearlier]
    · obtain ⟨o, ho⟩ := Classical.not_forall.mp hearlier
      obtain ⟨ho, hlate⟩ := Classical.not_imp.mp ho
      obtain ⟨hkind, hslot⟩ := (hright o ho).resolve_left hlate
      obtain ⟨-, s, -, -, hms⟩ := hbefore.joins hkind
      exact ⟨fun _ => ⟨o, s, ho, hslot.trans hms, hms⟩, fun hne => absurd hkind hne⟩

/-- **Bindings are those of the time of declaration.**  In every hierarchy, a method is bound
to the nearest declaration above it among the earlier ones; and it is bound to the nearest
one of all exactly if that is an earlier one, or the method is an override and the later
declaration has its slot. -/
theorem bound_when_declared (hr : h.Reachable) (hm : m ∈ h.methods) :
    m.BoundTo (h.declaredBefore? m) ∧
      (m.BoundTo (h.declaredAbove? m) ↔ ∀ o, h.declaredAbove? m = some o →
        o.id.index < m.id.index ∨ m.kind = .override ∧ o.slot = m.slot) := by
  have hbefore := hr.boundToEarlier hm
  exact ⟨hbefore, boundTo_above_iff hbefore⟩

/-- Before the middle class declares anything, the override in the last one is bound to the
nearest declaration of all. -/
theorem bound_when_declared_threeGenerations :
    threeGenerations.Reachable ∧ ∃ m ∈ threeGenerations.methods, m.kind = .override ∧
      m.BoundTo (threeGenerations.declaredBefore? m) ∧
      m.BoundTo (threeGenerations.declaredAbove? m) := by
  have hm : (⟨{ name := "f", signature := ⟨[.long]⟩, kind := .override }, ⟨1⟩, ⟨2⟩, some ⟨0⟩,
      none⟩ : Method) ∈ threeGenerations.methods := by decide
  have hbound := bound_when_declared reachable_threeGenerations hm
  refine ⟨reachable_threeGenerations, _, hm, rfl, hbound.1, hbound.2.mpr fun o ho => ?_⟩
  obtain rfl := Option.some.inj (ho.symm.trans rfl)
  exact .inl (by decide)

/-- Three classes in a line.  The last overrides the `f()` of the first and hides its `g()`;
only then the middle one hides the one and the other. -/
def lateDeclarations : Hierarchy :=
  empty.afterAll
    [ .newClass "A" none, .newClass "B" (some "A"), .newClass "C" (some "B"),
      .newMethod ⟨0⟩ { name := "f", signature := ⟨[]⟩, kind := .virtual },
      .newMethod ⟨0⟩ { name := "g", signature := ⟨[]⟩, kind := .plain },
      .newMethod ⟨2⟩ { name := "f", signature := ⟨[]⟩, kind := .override },
      .newMethod ⟨2⟩ { name := "g", signature := ⟨[]⟩, kind := .plain },
      .newMethod ⟨1⟩ { name := "f", signature := ⟨[]⟩, kind := .hide },
      .newMethod ⟨1⟩ { name := "g", signature := ⟨[]⟩, kind := .plain } ]

/-- **Bindings are not kept right about the hierarchy as it is**: after the late declarations,
neither the override nor the hiding method in the last of the three classes is bound to the
nearest declaration above it. -/
theorem not_bound_lateDeclarations :
    lateDeclarations.Reachable ∧
      (∃ m ∈ lateDeclarations.methods, m.kind = .override ∧
        ¬ m.BoundTo (lateDeclarations.declaredAbove? m)) ∧
      ∃ m ∈ lateDeclarations.methods, m.kind = .plain ∧
        ¬ m.BoundTo (lateDeclarations.declaredAbove? m) := by
  refine ⟨⟨_, rfl⟩, ⟨⟨{ name := "f", signature := ⟨[]⟩, kind := .override }, ⟨2⟩, ⟨2⟩, some ⟨0⟩,
    none⟩, by decide, rfl, fun hbound => ?_⟩, ⟨⟨{ name := "g", signature := ⟨[]⟩, kind := .plain },
    ⟨3⟩, ⟨2⟩, none, some ⟨1⟩⟩, by decide, rfl, fun hbound => ?_⟩⟩
  · -- the nearest `f()` is the hiding one, which has no slot
    obtain ⟨o, s, ho, hos, -⟩ := hbound.joins rfl
    obtain rfl := Option.some.inj (ho.symm.trans rfl)
    contradiction
  · exact absurd (hbound.hides (by decide)) (by decide)

/-! ## bindings of a scenario -/

/-- The methods of a class are declared before those of the classes that come after it. -/
def InClassOrder (h : Hierarchy) : Prop :=
  ∀ ⦃m m' : Method⦄, m ∈ h.methods → m' ∈ h.methods →
    m.owner.index < m'.owner.index → m.id.index < m'.id.index

/-- A method of the newest class comes after those of all other classes. -/
theorem InClassOrder.addMethod (hord : h.InClassOrder) (hwf : h.WellFormed)
    (hacc : h.AcceptsMethod k m) (hnewest : m.owner.index + 1 = h.classes.length) :
    (h.addMethod m).InClassOrder := by
  intro x x' hx hx' hlt
  rcases List.mem_append.mp hx with hx | hx <;> rcases List.mem_append.mp hx' with hx' | hx'
  · exact hord hx hx' hlt
  · rw [List.mem_singleton.mp hx', hacc.id_eq]
    exact hwf.indexed.id_lt hx
  · obtain ⟨k', hk'⟩ := hwf.indexed.owner_known hx'
    have hknown := index_lt_of_class? hk'
    rw [List.mem_singleton.mp hx] at hlt
    omega
  · rw [List.mem_singleton.mp hx, List.mem_singleton.mp hx'] at hlt
    exact absurd hlt (Nat.lt_irrefl _)

/-- What is declared above a method belongs to a class that comes before its own. -/
theorem WellFormed.owner_lt_of_declaredAbove? {o : Method} (hwf : h.WellFormed)
    (ho : h.declaredAbove? m = some o) : o ∈ h.methods ∧ o.owner.index < m.owner.index := by
  obtain ⟨p, hp, ho⟩ := Option.bind_eq_some_iff.mp ho
  obtain ⟨k, hk, hp⟩ := Option.bind_eq_some_iff.mp hp
  obtain ⟨a, ha, ho⟩ := List.exists_of_findSome?_eq_some ho
  have hmem := (hwf.indexed.declared?_eq_some_iff.mp ho).1
  obtain ⟨hknown, rfl⟩ := hwf.indexed.mem_members_iff.mp hmem
  have hle := hwf.acyclic.index_le_of_mem ha
  have hlt := hwf.acyclic hk hp
  exact ⟨hknown, by omega⟩

end Hierarchy

/-- **A scenario keeps its bindings right**: in the hierarchy that it builds, every method is
bound to the nearest declaration of its name and signature above it. -/
theorem Scenario.boundTo_above_of_build {s : Scenario} {g : Grown} (hbuild : s.build = .ok g)
    {m : Method} (hm : m ∈ g.hierarchy.methods) : m.BoundTo (g.hierarchy.declaredAbove? m) := by
  have hboth : g.hierarchy.WellFormed ∧ g.hierarchy.BoundToEarlier ∧ g.hierarchy.InClassOrder := by
    refine build_induction
      (P := fun h => h.WellFormed ∧ h.BoundToEarlier ∧ h.InClassOrder) ?_ ?_ ?_ hbuild
    · exact ⟨Hierarchy.wellFormed_empty, Hierarchy.boundToEarlier_empty,
        by simp [Hierarchy.InClassOrder, Hierarchy.empty]⟩
    · rintro h name parentName parent ⟨hwf, hbound, hord⟩ hacc
      exact ⟨hwf.addClass hacc, hbound.addClass hwf hacc, hord⟩
    · rintro h k m ⟨hwf, hbound, hord⟩ hacc hnewest
      exact ⟨hwf.addMethod hacc, hbound.addMethod hwf hacc, hord.addMethod hwf hacc hnewest⟩
  obtain ⟨hwf, hbound, hord⟩ := hboth
  refine (Hierarchy.boundTo_above_iff (hbound hm)).mpr fun o ho => .inl ?_
  obtain ⟨hknown, hlt⟩ := hwf.owner_lt_of_declaredAbove? ho
  exact hord hknown hm hlt

end LateBinding
