import LateBinding.Proofs.Hierarchy.Entry

/-!
# LateBinding.Proofs.Hierarchy.Lineage

The lineage of a class, `ancestors`, free of the bound on its walk: where every
parent has a smaller number than its children, the lineage of a class is the
class followed by the lineage of its parent.

Facts about a lineage are proved by `Acyclic.induction`, from the roots down, or by
`Acyclic.induction_below`, from a class down to one of its descendants.
-/

namespace LateBinding.Hierarchy

variable {h : Hierarchy} {c d p r : ClassId} {k : ClassInfo}

/-- Every parent has a smaller number than its children. -/
def Acyclic (h : Hierarchy) : Prop :=
  ∀ ⦃c : ClassId⦄ ⦃k : ClassInfo⦄ ⦃p : ClassId⦄,
    h.class? c = some k → k.parent = some p → p.index < c.index

/-! ## the lineage of a class -/

theorem ancestors_of_unknown (hc : h.class? c = none) : h.ancestors c = [] := by
  simp [ancestors, walkUp, hc]

theorem ancestors_of_root (hk : h.class? c = some k) (hp : k.parent = none) :
    h.ancestors c = [c] := by
  simp [ancestors, walkUp, hk, hp]

/-- The lineage of a class starts with the class. -/
theorem ancestors_eq_cons (hk : h.class? c = some k) :
    h.ancestors c = c :: (h.ancestors c).tail := by
  simp [ancestors, walkUp, hk]

/-- The bound of a walk does not matter once it exceeds the number of the class. -/
theorem Acyclic.walkUp_eq (hac : h.Acyclic) {n n' : Nat} (hn : c.index < n) (hn' : c.index < n') :
    h.walkUp n c = h.walkUp n' c := by
  induction n generalizing c n' with
  | zero => omega
  | succ n ih =>
      obtain ⟨n', rfl⟩ : ∃ m, n' = m + 1 := ⟨n' - 1, by omega⟩
      simp only [walkUp]
      cases hk : h.class? c with
      | none => rfl
      | some k =>
          cases hp : k.parent with
          | none => simp only [hp]
          | some p =>
              have hlt := hac hk hp
              simp only [hp]
              rw [ih (by omega) (by omega : p.index < n')]

theorem Acyclic.ancestors_of_child (hac : h.Acyclic) (hk : h.class? c = some k)
    (hp : k.parent = some p) : h.ancestors c = c :: h.ancestors p := by
  have hlt := hac hk hp
  have hwalk : h.walkUp c.index p = h.walkUp (p.index + 1) p := hac.walkUp_eq hlt (by omega)
  simp only [ancestors, walkUp, hk, hp, hwalk]

/-- A parent is a class. -/
theorem Acyclic.class?_parent (hac : h.Acyclic) (hk : h.class? c = some k)
    (hp : k.parent = some p) : ∃ kp, h.class? p = some kp := by
  have hlt := hac hk hp
  have hc := index_lt_of_class? hk
  exact ⟨h.classes[p.index], List.getElem?_eq_getElem (by omega)⟩

/-! ## induction along lineages -/

/-- What holds of the roots, and of a class whenever it holds of its parent, holds
of every class. -/
theorem Acyclic.induction (hac : h.Acyclic) {P : ClassId → Prop}
    (root : ∀ c k, h.class? c = some k → k.parent = none → P c)
    (child : ∀ c k p, h.class? c = some k → k.parent = some p → P p → P c)
    (hk : h.class? c = some k) : P c := by
  obtain ⟨i⟩ := c
  induction i using Nat.strongRecOn generalizing k with
  | ind i ih =>
      cases hp : k.parent with
      | none => exact root _ k hk hp
      | some p =>
          obtain ⟨kp, hkp⟩ := hac.class?_parent hk hp
          exact child _ k p hk hp (ih p.index (hac hk hp) hkp)

/-- Every class of a lineage is known. -/
theorem class?_of_mem_ancestors (hmem : d ∈ h.ancestors c) : ∃ k, h.class? d = some k := by
  have walk : ∀ n c, d ∈ h.walkUp n c → ∃ k, h.class? d = some k := by
    intro n
    induction n with
    | zero => intro c hd; simp [walkUp] at hd
    | succ n ih =>
        intro c hd
        simp only [walkUp] at hd
        cases hk : h.class? c with
        | none => simp [hk] at hd
        | some k =>
            simp only [hk, List.mem_cons] at hd
            rcases hd with rfl | hd
            · exact ⟨k, hk⟩
            · cases hp : k.parent with
              | none => simp [hp] at hd
              | some p => exact ih p (by simpa [hp] using hd)
  exact walk _ c hmem

/-- Only a class has a lineage. -/
theorem class?_of_ancestors_mem (hmem : d ∈ h.ancestors c) : ∃ k, h.class? c = some k := by
  cases hc : h.class? c with
  | none => simp [ancestors_of_unknown hc] at hmem
  | some k => exact ⟨k, rfl⟩

theorem mem_ancestors_self (hk : h.class? c = some k) : c ∈ h.ancestors c := by
  simp [ancestors, walkUp, hk]

/-- The classes above a class have smaller numbers. -/
theorem Acyclic.index_le_of_mem (hac : h.Acyclic) (hmem : d ∈ h.ancestors c) :
    d.index ≤ c.index := by
  obtain ⟨k, hk⟩ := class?_of_ancestors_mem hmem
  refine hac.induction (P := fun c => d ∈ h.ancestors c → d.index ≤ c.index) ?_ ?_ hk hmem
  · intro c k hk hp hmem
    rw [ancestors_of_root hk hp, List.mem_singleton] at hmem
    exact Nat.le_of_eq (congrArg ClassId.index hmem)
  · intro c k p hk hp ih hmem
    rw [hac.ancestors_of_child hk hp, List.mem_cons] at hmem
    rcases hmem with rfl | hmem
    · exact Nat.le_refl _
    · have hlt := hac hk hp
      have hle := ih hmem
      omega

/-- A class is not above its parent. -/
theorem Acyclic.not_mem_ancestors_parent (hac : h.Acyclic) (hk : h.class? c = some k)
    (hp : k.parent = some p) : c ∉ h.ancestors p := by
  intro hmem
  have hlt := hac hk hp
  have hle := hac.index_le_of_mem hmem
  omega

/-- What holds of a class, and of a class whenever it holds of its parent, holds of
every descendant of the first. -/
theorem Acyclic.induction_below (hac : h.Acyclic) {P : ClassId → Prop} (self : P d)
    (child : ∀ c k p, h.class? c = some k → k.parent = some p → d ∈ h.ancestors p → P p → P c)
    (hmem : d ∈ h.ancestors r) : P r := by
  obtain ⟨k, hk⟩ := class?_of_ancestors_mem hmem
  refine hac.induction (P := fun c => d ∈ h.ancestors c → P c) ?_ ?_ hk hmem
  · intro c k hk hp hmem
    rw [ancestors_of_root hk hp, List.mem_singleton] at hmem
    exact hmem ▸ self
  · intro c k p hk hp ih hmem
    rw [hac.ancestors_of_child hk hp, List.mem_cons] at hmem
    rcases hmem with rfl | hmem
    · exact self
    · exact child c k p hk hp hmem (ih hmem)

/-! ## parts of a lineage -/

/-- A lineage cut at one of its classes goes on with the lineage of that class. -/
theorem Acyclic.ancestors_eq_of_split (hac : h.Acyclic) {below above : List ClassId}
    (hsplit : h.ancestors r = below ++ d :: above) : h.ancestors d = d :: above := by
  have hmem : d ∈ h.ancestors r := by simp [hsplit]
  obtain ⟨k, hk⟩ := class?_of_ancestors_mem hmem
  refine hac.induction (P := fun r => ∀ below, h.ancestors r = below ++ d :: above →
    h.ancestors d = d :: above) ?_ ?_ hk below hsplit
  · intro c k hk hp below hsplit
    rw [ancestors_of_root hk hp] at hsplit
    cases below with
    | nil =>
        obtain ⟨rfl, habove⟩ := List.cons.inj hsplit
        rw [ancestors_of_root hk hp, habove]
    | cons b below => simp at hsplit
  · intro c k p hk hp ih below hsplit
    cases below with
    | nil =>
        have hd : c = d := by
          rw [hac.ancestors_of_child hk hp] at hsplit
          exact (List.cons.inj hsplit).1
        rwa [hd] at hsplit
    | cons b below =>
        rw [hac.ancestors_of_child hk hp, List.cons_append] at hsplit
        exact ih below (List.cons.inj hsplit).2

/-- What is above a class of a lineage is in that lineage. -/
theorem Acyclic.mem_ancestors_trans (hac : h.Acyclic) (hcd : c ∈ h.ancestors d)
    (hdr : d ∈ h.ancestors r) : c ∈ h.ancestors r := by
  obtain ⟨below, above, hsplit⟩ := List.append_of_mem hdr
  rw [hac.ancestors_eq_of_split hsplit] at hcd
  rw [hsplit]
  exact List.mem_append_right below hcd

/-- No class is met twice in a lineage. -/
theorem Acyclic.nodup_ancestors (hac : h.Acyclic) (hk : h.class? c = some k) :
    (h.ancestors c).Nodup := by
  refine hac.induction (P := fun c => (h.ancestors c).Nodup) ?_ ?_ hk
  · intro c k hk hp
    simp [ancestors_of_root hk hp]
  · intro c k p hk hp ih
    rw [hac.ancestors_of_child hk hp, List.nodup_cons]
    exact ⟨hac.not_mem_ancestors_parent hk hp, ih⟩

/-- Two classes that are above one another are the same. -/
theorem Acyclic.eq_of_mem_ancestors (hac : h.Acyclic) (hcd : c ∈ h.ancestors d)
    (hdc : d ∈ h.ancestors c) : c = d := by
  have hle := hac.index_le_of_mem hcd
  have hge := hac.index_le_of_mem hdc
  exact ClassId.eq_iff_index_eq.mpr (by omega)

/-- Of two classes of one lineage, one is above the other. -/
theorem Acyclic.mem_ancestors_or (hac : h.Acyclic) (hc : c ∈ h.ancestors r)
    (hd : d ∈ h.ancestors r) : c ∈ h.ancestors d ∨ d ∈ h.ancestors c := by
  obtain ⟨below, above, hsplit⟩ := List.append_of_mem hd
  have hup : h.ancestors d = d :: above := hac.ancestors_eq_of_split hsplit
  rw [hsplit, List.mem_append] at hc
  rcases hc with hc | hc
  · -- `c` comes before `d`, so the lineage of `c` goes on to `d`
    obtain ⟨first, rest, rfl⟩ := List.append_of_mem hc
    rw [List.append_assoc, List.cons_append] at hsplit
    have hup' : h.ancestors c = c :: (rest ++ d :: above) := hac.ancestors_eq_of_split hsplit
    exact .inr (by simp [hup'])
  · exact .inl (hup ▸ hc)

theorem isSameOrDescendant_iff : h.isSameOrDescendant r d = true ↔ d ∈ h.ancestors r := by
  simp [isSameOrDescendant]

/-! ## lineages of a growing hierarchy -/

theorem Acyclic.addClass (hac : h.Acyclic) {name : String} {parent : Option ClassId}
    (hparent : ∀ p, parent = some p → p.index < h.classes.length) :
    (h.addClass name parent).Acyclic := by
  intro c k p hk hp
  rw [class?_addClass] at hk
  by_cases hc : c = ⟨h.classes.length⟩
  · rw [if_pos hc, Option.some.injEq] at hk
    subst hk
    rw [hc]
    exact hparent p hp
  · rw [if_neg hc] at hk
    exact hac hk hp

/-- A new class changes no lineage but its own. -/
theorem Acyclic.ancestors_addClass (hac : h.Acyclic) {name : String} {parent : Option ClassId}
    (hparent : ∀ p, parent = some p → p.index < h.classes.length) (hk : h.class? c = some k) :
    (h.addClass name parent).ancestors c = h.ancestors c := by
  have hac' : (h.addClass name parent).Acyclic := hac.addClass hparent
  refine hac.induction (P := fun c => (h.addClass name parent).ancestors c = h.ancestors c)
    ?_ ?_ hk
  · intro c k hk hp
    rw [ancestors_of_root hk hp, ancestors_of_root (class?_addClass_of_some hk) hp]
  · intro c k p hk hp ih
    rw [hac.ancestors_of_child hk hp, hac'.ancestors_of_child (class?_addClass_of_some hk) hp, ih]

theorem Acyclic.addMethod (hac : h.Acyclic) (m : Method) : (h.addMethod m).Acyclic := by
  intro c k p hk hp
  have hparent := parent_addMethod (h := h) m c
  rw [hk] at hparent
  obtain ⟨k', hk', hkk⟩ := Option.map_eq_some_iff.mp hparent.symm
  exact hac hk' (hkk.trans hp)

/-- A new method changes no lineage. -/
@[simp] theorem ancestors_addMethod (m : Method) (c : ClassId) :
    (h.addMethod m).ancestors c = h.ancestors c := by
  have walk : ∀ n c, (h.addMethod m).walkUp n c = h.walkUp n c := by
    intro n
    induction n with
    | zero => intro c; rfl
    | succ n ih =>
        intro c
        have hparent := parent_addMethod (h := h) m c
        simp only [walkUp]
        cases hk : h.class? c <;> cases hk' : (h.addMethod m).class? c <;>
          simp only [hk, hk', Option.map_none, Option.map_some, Option.some.injEq,
            reduceCtorEq] at hparent
        · rfl
        · simp only [hparent, ih]
  exact walk _ c

end LateBinding.Hierarchy
