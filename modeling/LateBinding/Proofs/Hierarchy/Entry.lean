import LateBinding.Hierarchy.Declare
import LateBinding.Proofs.Table

/-!
# LateBinding.Proofs.Hierarchy.Entry

What the entry of a class or of a method changes, question by question.  A new
class declares nothing and changes no answer about another class; a new method
changes only what is asked about its own class, its own name and its own slot.
-/

namespace LateBinding

theorem ClassId.eq_iff_index_eq {c c' : ClassId} : c = c' ↔ c.index = c'.index := by
  cases c; cases c'; simp

theorem SlotId.eq_iff_index_eq {s s' : SlotId} : s = s' ↔ s.index = s'.index := by
  cases s; cases s'; simp

/-- What is done to the last element of a list leaves those before it. -/
theorem modify_concat {α : Type} (l : List α) (a : α) (f : α → α) :
    (l ++ [a]).modify l.length f = l ++ [f a] := by
  induction l with
  | nil => rfl
  | cons b l ih => simp [ih]

namespace Hierarchy

variable {h : Hierarchy}

theorem index_lt_of_class? {c : ClassId} {k : ClassInfo} (hk : h.class? c = some k) :
    c.index < h.classes.length := (List.getElem?_eq_some_iff.mp hk).1

theorem members_of_class? {c : ClassId} {k : ClassInfo} (hk : h.class? c = some k) :
    h.members c = k.methods := by simp [members, hk]

/-- The next number stands for no class yet. -/
theorem class?_length : h.class? ⟨h.classes.length⟩ = none := by simp [class?]

/-! ## a new class -/

theorem class?_addClass (name : String) (parent : Option ClassId) (c : ClassId) :
    (h.addClass name parent).class? c =
      if c = ⟨h.classes.length⟩ then some { name, parent } else h.class? c := by
  simp only [class?, addClass, ClassId.eq_iff_index_eq, List.getElem?_append]
  by_cases hlt : c.index < h.classes.length
  · rw [if_pos hlt, if_neg (by omega)]
  · rw [if_neg hlt]
    by_cases heq : c.index = h.classes.length
    · simp [heq]
    · rw [if_neg heq, List.getElem?_eq_none (by simp; omega), List.getElem?_eq_none (by omega)]

theorem class?_addClass_of_some {name : String} {parent : Option ClassId} {c : ClassId}
    {k : ClassInfo} (hk : h.class? c = some k) : (h.addClass name parent).class? c = some k := by
  have hne : c ≠ ⟨h.classes.length⟩ := by
    rintro rfl
    rw [class?_length] at hk
    contradiction
  rw [class?_addClass, if_neg hne, hk]

@[simp] theorem members_addClass (name : String) (parent : Option ClassId) (c : ClassId) :
    (h.addClass name parent).members c = h.members c := by
  by_cases heq : c = ⟨h.classes.length⟩
  · simp [members, class?_addClass, heq, class?_length]
  · simp [members, class?_addClass, heq]

@[simp] theorem membersNamed_addClass (name : String) (parent : Option ClassId) (c : ClassId)
    (n : String) : (h.addClass name parent).membersNamed c n = h.membersNamed c n := by
  by_cases heq : c = ⟨h.classes.length⟩
  · simp [membersNamed, class?_addClass, heq, class?_length, Table.get?]
  · simp [membersNamed, class?_addClass, heq]

@[simp] theorem declared?_addClass (name : String) (parent : Option ClassId) (c : ClassId)
    (n : String) (s : Signature) : (h.addClass name parent).declared? c n s = h.declared? c n s := by
  simp [declared?]

@[simp] theorem implementation?_addClass (name : String) (parent : Option ClassId) (c : ClassId)
    (s : SlotId) : (h.addClass name parent).implementation? c s = h.implementation? c s := by
  by_cases heq : c = ⟨h.classes.length⟩
  · simp [implementation?, class?_addClass, heq, class?_length, Table.get?]
  · simp [implementation?, class?_addClass, heq]

theorem classNamed?_addClass (name : String) (parent : Option ClassId) (n : String) :
    (h.addClass name parent).classNamed? n =
      if n = name then some ⟨h.classes.length⟩ else h.classNamed? n :=
  Table.get?_insert h.classIds name n _

/-! ## a new method -/

@[simp] theorem methods_addMethod (m : Method) : (h.addMethod m).methods = h.methods ++ [m] := rfl

theorem class?_addMethod (m : Method) (c : ClassId) :
    (h.addMethod m).class? c =
      if c = m.owner then (h.class? c).map (·.addMethod m) else h.class? c := by
  simp only [class?, addMethod, List.getElem?_modify, ClassId.eq_iff_index_eq, eq_comm]
  split
  · rfl
  · simp

/-- A new method changes no name of a class. -/
theorem name_addMethod (m : Method) (c : ClassId) :
    ((h.addMethod m).class? c).map (·.name) = (h.class? c).map (·.name) := by
  rw [class?_addMethod]
  split
  · cases h.class? c <;> rfl
  · rfl

/-- A new method changes no parent of a class. -/
theorem parent_addMethod (m : Method) (c : ClassId) :
    ((h.addMethod m).class? c).map (·.parent) = (h.class? c).map (·.parent) := by
  rw [class?_addMethod]
  split
  · cases h.class? c <;> rfl
  · rfl

@[simp] theorem classNamed?_addMethod (m : Method) (n : String) :
    (h.addMethod m).classNamed? n = h.classNamed? n := rfl

section Owned

variable {m : Method} {k : ClassInfo} (hk : h.class? m.owner = some k)

include hk

theorem members_addMethod (c : ClassId) :
    (h.addMethod m).members c = if c = m.owner then h.members c ++ [m] else h.members c := by
  by_cases heq : c = m.owner
  · subst heq
    simp [members, class?_addMethod, hk, ClassInfo.addMethod]
  · simp [members, class?_addMethod, heq]

theorem membersNamed_addMethod (c : ClassId) (n : String) :
    (h.addMethod m).membersNamed c n =
      if c = m.owner ∧ n = m.name then h.membersNamed c n ++ [m] else h.membersNamed c n := by
  by_cases heq : c = m.owner
  · subst heq
    simp only [membersNamed, class?_addMethod, hk, if_true, true_and, Option.map_some,
      ClassInfo.addMethod, Table.get?_push]
    by_cases hn : n = m.name
    · simp [hn]
    · simp [hn]
  · simp [membersNamed, class?_addMethod, heq]

theorem implementation?_addMethod (c : ClassId) (s : SlotId) :
    (h.addMethod m).implementation? c s =
      if c = m.owner ∧ m.slot = some s then some m else h.implementation? c s := by
  by_cases heq : c = m.owner
  · subst heq
    cases hs : m.slot with
    | none => simp [implementation?, class?_addMethod, hk, ClassInfo.addMethod, hs]
    | some s' =>
        simp [implementation?, class?_addMethod, hk, ClassInfo.addMethod, hs, Table.get?_insert,
          eq_comm]
  · simp [implementation?, class?_addMethod, heq]

end Owned

/-! ## slots -/

@[simp] theorem origin_openedBy (m : Method) : (Slot.openedBy m).origin = m := rfl

@[simp] theorem origin_attach (s : Slot) (c : ClassId) (m : Method) :
    (s.attach c m).origin = s.origin := rfl

/-- A method that joins a slot is attached to it, and no other slot changes. -/
theorem slot?_addMethod_of_lt {m : Method} {s : SlotId} (hs : m.slot = some s)
    (hlt : s.index < h.slots.length) (s' : SlotId) :
    (h.addMethod m).slot? s' =
      if s' = s then (h.slot? s').map (·.attach m.owner m) else h.slot? s' := by
  simp only [slot?, addMethod, slotsWith, hs, if_pos hlt, List.getElem?_modify,
    SlotId.eq_iff_index_eq, eq_comm]
  split
  · rfl
  · simp

/-- A method that opens a slot is its first, and no other slot changes. -/
theorem slot?_addMethod_of_eq {m : Method} (hs : m.slot = some ⟨h.slots.length⟩) (s' : SlotId) :
    (h.addMethod m).slot? s' =
      if s' = ⟨h.slots.length⟩ then some ((Slot.openedBy m).attach m.owner m) else h.slot? s' := by
  simp only [slot?, addMethod, slotsWith, hs, Nat.lt_irrefl, if_false, SlotId.eq_iff_index_eq]
  by_cases heq : s'.index = h.slots.length
  · simp [heq]
  · rw [if_neg heq, List.getElem?_append]
    by_cases hlt : s'.index < h.slots.length
    · rw [if_pos hlt]
    · rw [if_neg hlt, List.getElem?_eq_none (by simp; omega), List.getElem?_eq_none (by omega)]

/-- A statically bound method changes no slot. -/
theorem slot?_addMethod_of_none {m : Method} (hs : m.slot = none) (s' : SlotId) :
    (h.addMethod m).slot? s' = h.slot? s' := by
  simp [slot?, addMethod, slotsWith, hs]

/-- The method that opened a slot. -/
def origin? (h : Hierarchy) (s : SlotId) : Option Method := (h.slot? s).map (·.origin)

theorem index_lt_of_origin? {s : SlotId} {o : Method} (ho : h.origin? s = some o) :
    s.index < h.slots.length := by
  obtain ⟨sl, hsl, -⟩ := Option.map_eq_some_iff.mp ho
  exact (List.getElem?_eq_some_iff.mp hsl).1

/-- A slot keeps its origin when a method is entered. -/
theorem origin?_addMethod_of_some {m : Method} {s : SlotId} {o : Method}
    (ho : h.origin? s = some o) : (h.addMethod m).origin? s = some o := by
  have hlt := index_lt_of_origin? ho
  cases hs : m.slot with
  | none => simpa [origin?, slot?_addMethod_of_none hs] using ho
  | some s' =>
      by_cases hlt' : s'.index < h.slots.length
      · rw [origin?, slot?_addMethod_of_lt hs hlt']
        split
        · simpa [origin?, Function.comp_def, Slot.attach] using ho
        · exact ho
      · have hne : s.index ≠ s'.index := by omega
        simp only [origin?, slot?, addMethod, slotsWith, hs, if_neg hlt',
          List.getElem?_append_left hlt]
        exact ho

end Hierarchy

end LateBinding
