import LateBinding.Proofs.Hierarchy.WellFormed
import LateBinding.Proofs.Text

/-!
# LateBinding.Proofs.Hierarchy.Names

What the names of classes and the qualified names of methods tell apart.  A class is told by its
name.  A qualified name gives the signature away, but names may have dots of their own, so it may
end the name of the class at one dot or at another: two methods have one qualified name exactly if
they are the two readings of such a text.
-/

namespace LateBinding.Hierarchy

variable {h : Hierarchy} {c : ClassId} {k : ClassInfo} {m m' : Method}

/-! ## names of classes -/

theorem className_of_class? (hk : h.class? c = some k) : h.className c = k.name := by
  simp [className, hk]

theorem className_addClass_of_some {name : String} {parent : Option ClassId}
    (hk : h.class? c = some k) : (h.addClass name parent).className c = h.className c := by
  rw [className_of_class? (class?_addClass_of_some hk), className_of_class? hk]

@[simp] theorem className_addMethod (m : Method) (c : ClassId) :
    (h.addMethod m).className c = h.className c := by
  have hname := name_addMethod (h := h) m c
  unfold className
  cases hk : h.class? c <;> cases hk' : (h.addMethod m).class? c <;> simp_all

/-- The name of a class stands for it. -/
theorem Indexed.classNamed?_name (hix : h.Indexed) (hk : h.class? c = some k) :
    h.classNamed? k.name = some c := by
  rw [hix.classNamed?_iff, hk, Option.map_some]

/-- Classes are told apart by their names. -/
theorem Indexed.eq_of_name_eq (hix : h.Indexed) {d : ClassId} {l : ClassInfo}
    (hk : h.class? c = some k) (hl : h.class? d = some l) (hname : k.name = l.name) : c = d := by
  have hc := hix.classNamed?_name hk
  rw [hname, hix.classNamed?_name hl] at hc
  exact (Option.some.inj hc).symm

/-- What a name stands for is a class of that name. -/
theorem Indexed.className_of_classNamed? (hix : h.Indexed) {name : String}
    (hc : h.classNamed? name = some c) : h.className c = name := by
  obtain ⟨k, hk, hname⟩ := Option.map_eq_some_iff.mp (hix.classNamed?_iff.mp hc)
  rw [className_of_class? hk, hname]

/-! ## qualified names -/

/-- The qualified name of the first method reads as that of the second, if the class is taken to
end at a later dot: a dot and the start of the method's name go over to the name of the class. -/
def Regroups (h : Hierarchy) (m m' : Method) : Prop :=
  m.signature = m'.signature ∧
    ∃ p, h.className m'.owner = h.className m.owner ++ "." ++ p ∧ m.name = p ++ "." ++ m'.name

/-- Two methods are two readings of one qualified name, which has several dots. -/
def ReadsAlike (h : Hierarchy) (m m' : Method) : Prop := h.Regroups m m' ∨ h.Regroups m' m

/-- Qualified names are equal if all their parts are, or if they are two readings of one text. -/
theorem qualifiedName_eq_iff :
    h.qualifiedName m = h.qualifiedName m' ↔
      (h.className m.owner = h.className m'.owner ∧ m.name = m'.name ∧
        m.signature = m'.signature) ∨ h.ReadsAlike m m' := by
  rw [qualifiedName, qualifiedName, Signature.append_text_eq_iff, append_sep_append_eq_iff rfl,
    ReadsAlike, Regroups, Regroups]
  constructor
  · rintro ⟨⟨hclass, hname⟩ | hlater | hlater, hsig⟩
    · exact .inl ⟨hclass, hname, hsig⟩
    · exact .inr (.inl ⟨hsig, hlater⟩)
    · exact .inr (.inr ⟨hsig.symm, hlater⟩)
  · rintro (⟨hclass, hname, hsig⟩ | ⟨hsig, hlater⟩ | ⟨hsig, hlater⟩)
    · exact ⟨.inl ⟨hclass, hname⟩, hsig⟩
    · exact ⟨.inr (.inl hlater), hsig⟩
    · exact ⟨.inr (.inr hlater), hsig.symm⟩

/-- Known methods have one qualified name if they are the same, or two readings of one text. -/
theorem Indexed.qualifiedName_eq_iff (hix : h.Indexed) (hm : m ∈ h.methods) (hm' : m' ∈ h.methods) :
    h.qualifiedName m = h.qualifiedName m' ↔ m = m' ∨ h.ReadsAlike m m' := by
  rw [Hierarchy.qualifiedName_eq_iff]
  refine or_congr_left ⟨?_, fun heq => by rw [heq]; exact ⟨rfl, rfl, rfl⟩⟩
  rintro ⟨hclass, hname, hsig⟩
  obtain ⟨k, hk⟩ := hix.owner_known hm
  obtain ⟨k', hk'⟩ := hix.owner_known hm'
  rw [className_of_class? hk, className_of_class? hk'] at hclass
  exact hix.eq_of_same_signature hm hm' (hix.eq_of_name_eq hk hk' hclass) hname hsig

/-- The class of the second reading has a dot in its name, and so has the first method. -/
theorem Regroups.dot_mem (hregroups : h.Regroups m m') :
    '.' ∈ (h.className m'.owner).toList ∧ '.' ∈ m.name.toList := by
  obtain ⟨-, p, hclass, hname⟩ := hregroups
  rw [hclass, hname]
  simp

/-- A method whose qualified name has another reading has a dot in its name, or its class has. -/
theorem ReadsAlike.dot_mem (halike : h.ReadsAlike m m') :
    '.' ∈ (h.className m'.owner).toList ∨ '.' ∈ m'.name.toList := by
  rcases halike with hregroups | hregroups
  · exact .inl hregroups.dot_mem.1
  · exact .inr hregroups.dot_mem.2

/-- Without a dot in the names of classes, or in those of methods, there is only one reading. -/
theorem not_readsAlike_of_dot_notMem
    (hdot : (∀ c, '.' ∉ (h.className c).toList) ∨ ∀ m ∈ h.methods, '.' ∉ m.name.toList)
    (hm : m ∈ h.methods) (hm' : m' ∈ h.methods) : ¬ h.ReadsAlike m m' := by
  have hnone : ∀ m m' : Method, m ∈ h.methods → ¬ h.Regroups m m' := by
    intro m m' hm hregroups
    rcases hdot with hclasses | hmethods
    · exact hclasses _ hregroups.dot_mem.1
    · exact hmethods m hm hregroups.dot_mem.2
  rintro (hregroups | hregroups)
  · exact hnone m m' hm hregroups
  · exact hnone m' m hm' hregroups

theorem dot_mem_qualifiedName (h : Hierarchy) (m : Method) :
    '.' ∈ (h.qualifiedName m).toList := by
  simp [qualifiedName]

end LateBinding.Hierarchy
