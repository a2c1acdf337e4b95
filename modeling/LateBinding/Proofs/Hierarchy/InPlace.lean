import LateBinding.Hierarchy.InPlace
import LateBinding.Proofs.Hierarchy.Slots

/-!
# LateBinding.Proofs.Hierarchy.InPlace

A declaration that is worked out write by write comes to what `Hierarchy.declareClass` and
`Hierarchy.declareMethod` say about it at once.

For an accepted declaration that means that its writes add up to the one entry; for a rejected
one, that nothing has been written by the time it is rejected.  The one write that a method
declaration makes before its entry is the record of the slot that a virtual method opens:
`Placed` says what the rest of the declaration relies on after it.
-/

namespace LateBinding

namespace Hierarchy

variable {h : Hierarchy} {k : ClassInfo} {m : Method}

/-! ## writes that add up to an entry -/

theorem updateClass_updateClass (h : Hierarchy) (c : ClassId) (f f' : ClassInfo → ClassInfo) :
    (h.updateClass c f).updateClass c f' = h.updateClass c (f' ∘ f) := by
  simp only [updateClass, List.modify_modify_eq]

/-- A method that is entered in the record of its slot after that was opened is entered as if
it opened the slot. -/
theorem addMethod_openSlot (hs : m.slot = some ⟨h.slots.length⟩) :
    (h.openSlot m).addMethod m = h.addMethod m := by
  simp [addMethod, openSlot, slotsWith, hs, modify_concat]

/-- An override joins a known slot. -/
theorem AcceptsMethod.index_lt_of_override (hacc : h.AcceptsMethod k m) (hwf : h.WellFormed)
    (hkind : m.kind = .override) {s : SlotId} (hs : m.slot = some s) :
    s.index < h.slots.length := by
  rcases hacc.slot_cases hwf with hnone | ⟨hvirtual, -⟩ | ⟨s', hs', hlt⟩
  · rw [hnone] at hs
    contradiction
  · rw [hkind] at hvirtual
    contradiction
  · obtain rfl : s = s' := Option.some.inj (hs.symm.trans hs')
    exact hlt

end Hierarchy

namespace Declaring

open Hierarchy

variable {g g' : Grown} {k : ClassInfo} {d : MethodDecl} {m : Method}
  {inherited : Option Method}

@[simp] theorem run_throw {α : Type} (e : DeclarationError) (g : Grown) :
    (throw e : Declaring α).run g = .error e g := rfl

@[simp] theorem run_write (f : Hierarchy → Hierarchy) (g : Grown) :
    (write f).run g = .ok () { g with hierarchy := f g.hierarchy } := rfl

@[simp] theorem run_warn (w : Warning) (g : Grown) :
    (warn w).run g = .ok () { g with warnings := g.warnings ++ [w] } := rfl

/-- The writes of an entry, one after the other, make the entry. -/
theorem run_enter {h : Hierarchy} (ws : List Warning)
    (hs : ∀ s, m.slot = some s → s.index < h.slots.length) :
    (enter m.owner m).run ⟨h, ws⟩ = .ok () ⟨h.addMethod m, ws⟩ := by
  unfold enter
  cases hslot : m.slot with
  | none =>
      have hclass : (·.addMethod m) = fun k : ClassInfo =>
          { k with methods := k.methods ++ [m], overloads := k.overloads.push m.name m } := by
        funext k
        simp only [ClassInfo.addMethod, hslot]
      simp only [EStateM.run_bind, run_write, updateClass_updateClass, Hierarchy.addMethod,
        slotsWith, hslot, hclass]
      rfl
  | some s =>
      have hclass : (·.addMethod m) = fun k : ClassInfo =>
          { k with
            methods := k.methods ++ [m]
            overloads := k.overloads.push m.name m
            implements := k.implements.insert s m } := by
        funext k
        simp only [ClassInfo.addMethod, hslot]
      simp only [EStateM.run_bind, run_write, updateClass_updateClass, Hierarchy.addMethod,
        slotsWith, hslot, if_pos (hs s hslot), hclass]
      simp only [updateClass, updateSlot, List.modify_modify_eq]
      rfl

/-! ## classes -/

/-- The declaration of a class writes what an accepted one leaves, and nothing if it is
rejected. -/
theorem run_declareClass (name : String) (parent : Option String) (g : Grown) :
    (declareClass name parent).run g =
      match g.hierarchy.declareClass name parent with
      | .ok (c, h) => .ok c { g with hierarchy := h }
      | .error e => .error e g := by
  unfold declareClass Hierarchy.declareClass
  cases hname : g.hierarchy.classNamed? name with
  | some c =>
      simp only [EStateM.run_bind, EStateM.run_get, hname, Option.isSome_some, if_true, run_throw]
  | none =>
      simp only [EStateM.run_bind, EStateM.run_get, hname, Option.isSome_none,
        Bool.false_eq_true, if_false]
      cases parent with
      | none => rfl
      | some p =>
          cases hp : g.hierarchy.classNamed? p with
          | none => simp only [EStateM.run_bind, hp, run_throw]
          | some c =>
              simp only [EStateM.run_bind, hp, EStateM.run_pure]
              rfl

/-! ## placing a method -/

theorem ofDecl_eq {hidden : Option Method} (hhides : hidden.map (·.id) = m.hides) :
    Method.ofDecl m.toMethodDecl m.id m.owner m.slot hidden = m := by
  rw [Method.ofDecl, hhides]

/-- Without a place, placing fails before anything is written. -/
theorem run_place_of_none {c : ClassId} {id : MethodId}
    (hp : g.hierarchy.placement inherited d.kind = none) :
    (place k c id d inherited).run g =
      .error (.invalidOverride k.name d.name d.signature) g := by
  unfold place
  cases hkind : d.kind with
  | override =>
      have hslot : inherited.bind (·.slot) = none := by simpa [placement, hkind] using hp
      simp only [EStateM.run_bind, EStateM.run_get, hslot, run_throw]
  | virtual | hide | plain => simp [placement, hkind] at hp

/-- What the placing of a new method leaves for the rest of its declaration: the hidden method
is the one that the new method names, its slot is known, and neither its entry nor its warnings
come out differently for what has been written. -/
structure Placed (g g' : Grown) (k : ClassInfo) (m : Method) (hidden : Option Method) : Prop where
  run_place : (place k m.owner m.id m.toMethodDecl
    (g.hierarchy.inherited? k m.toMethodDecl)).run g = .ok (m.slot, hidden) g'
  hides_eq : hidden.map (·.id) = m.hides
  slot_known : ∀ s, m.slot = some s → s.index < g'.hierarchy.slots.length
  addMethod_eq : g'.hierarchy.addMethod m = g.hierarchy.addMethod m
  run_warnOfHidden : (warnOfHidden k m.toMethodDecl hidden).run g' = .ok ()
    { g' with warnings := g.warnings ++
        g.hierarchy.hidingWarnings k m.toMethodDecl (g.hierarchy.inherited? k m.toMethodDecl) }

section Placing

variable (hacc : g.hierarchy.AcceptsMethod k m)

include hacc

/-- The place of a method by its kind, as the placing finds it. -/
theorem placement_eq (hkind : m.kind ≠ .override) :
    m.slot = (if m.kind = .virtual then some ⟨g.hierarchy.slots.length⟩ else none) ∧
      (g.hierarchy.inherited? k m.toMethodDecl).map (·.id) = m.hides := by
  have hplaced := hacc.placed
  cases hm : m.kind with
  | override => exact absurd hm hkind
  | virtual | hide | plain =>
      simp only [hm, placement, Option.some.injEq, Prod.mk.injEq] at hplaced
      exact ⟨hplaced.1.symm, hplaced.2⟩

/-- An override is placed in the slot that its class inherits, and hides nothing. -/
theorem placed_of_override (hwf : g.hierarchy.WellFormed) (hkind : m.kind = .override) :
    Placed g g k m none := by
  have hplaced := hacc.placed
  simp only [hkind, placement, Option.map_eq_some_iff, Prod.mk.injEq] at hplaced
  obtain ⟨s, hs, hslot, hhides⟩ := hplaced
  refine ⟨?_, hhides, fun _ => hacc.index_lt_of_override hwf hkind, rfl, ?_⟩
  · rw [place, hkind, ← hslot]
    simp only [EStateM.run_bind, EStateM.run_get, hs, EStateM.run_pure]
  · simp [warnOfHidden, hidingWarnings, hkind, -bind_pure_comp]

/-- A virtual method is placed in a slot whose record is there from then on. -/
theorem placed_of_virtual (hkind : m.kind = .virtual) :
    Placed g { g with hierarchy := g.hierarchy.openSlot m } k m
      (g.hierarchy.inherited? k m.toMethodDecl) := by
  obtain ⟨hslot, hhides⟩ := placement_eq hacc (by simp [hkind])
  rw [hkind, if_pos rfl] at hslot
  have hm := ofDecl_eq hhides
  rw [hslot] at hm
  refine ⟨?_, hhides, ?_, addMethod_openSlot hslot, ?_⟩
  · rw [place, hkind, hslot]
    simp only [EStateM.run_bind, EStateM.run_get, run_write, EStateM.run_pure, hm]
  · rintro s hs
    obtain rfl : s = ⟨_⟩ := Option.some.inj (hs.symm.trans hslot)
    simp [openSlot]
  · -- the new record of a slot changes no name of a class
    have hname : ∀ m', (g.hierarchy.openSlot m).qualifiedName m' =
        g.hierarchy.qualifiedName m' := fun _ => rfl
    cases g.hierarchy.inherited? k m.toMethodDecl <;>
      simp [warnOfHidden, hidingWarnings, hkind, hname, -bind_pure_comp]

/-- A method that means to hide is placed without a slot, with a warning if it hides nothing. -/
theorem placed_of_hide (hkind : m.kind = .hide) :
    Placed g { g with warnings := g.warnings ++
        if g.hierarchy.inheritsName k m.name then [] else [.hidesNothing k.name m.name] } k m
      (g.hierarchy.inherited? k m.toMethodDecl) := by
  obtain ⟨hslot, hhides⟩ := placement_eq hacc (by simp [hkind])
  rw [hkind, if_neg (by simp)] at hslot
  refine ⟨?_, hhides, by simp [hslot], rfl, ?_⟩
  · rw [place, hkind, hslot]
    cases hname : g.hierarchy.inheritsName k m.name <;> simp [hname, -bind_pure_comp]
  · cases g.hierarchy.inherited? k m.toMethodDecl <;>
      simp [warnOfHidden, hidingWarnings, hkind, -bind_pure_comp]

/-- A plain method is placed without a slot. -/
theorem placed_of_plain (hkind : m.kind = .plain) :
    Placed g g k m (g.hierarchy.inherited? k m.toMethodDecl) := by
  obtain ⟨hslot, hhides⟩ := placement_eq hacc (by simp [hkind])
  rw [hkind, if_neg (by simp)] at hslot
  refine ⟨?_, hhides, by simp [hslot], rfl, ?_⟩
  · rw [place, hkind, hslot]
    simp only [EStateM.run_bind, EStateM.run_get, EStateM.run_pure]
  · cases g.hierarchy.inherited? k m.toMethodDecl <;>
      simp [warnOfHidden, hidingWarnings, hkind, -bind_pure_comp]

/-- A new method is placed. -/
theorem exists_placed (hwf : g.hierarchy.WellFormed) : ∃ hidden g', Placed g g' k m hidden := by
  cases hkind : m.kind with
  | override => exact ⟨_, _, placed_of_override hacc hwf hkind⟩
  | virtual => exact ⟨_, _, placed_of_virtual hacc hkind⟩
  | hide => exact ⟨_, _, placed_of_hide hacc hkind⟩
  | plain => exact ⟨_, _, placed_of_plain hacc hkind⟩

end Placing

/-! ## methods -/

/-- The declaration of a method writes what an accepted one leaves, and nothing if it is
rejected: also the record of a new slot is written only when the rest cannot fail any more. -/
theorem run_declareMethod (hwf : g.hierarchy.WellFormed) (c : ClassId) (d : MethodDecl) :
    (declareMethod c d).run g =
      match g.hierarchy.declareMethod c d with
      | .ok a => .ok a.method.id ⟨a.hierarchy, g.warnings ++ a.warnings⟩
      | .error e => .error e g := by
  unfold declareMethod Hierarchy.declareMethod
  cases hk : g.hierarchy.class? c with
  | none => simp only [EStateM.run_bind, EStateM.run_get, hk, run_throw]
  | some k =>
      cases hnew : g.hierarchy.declared? c d.name d.signature with
      | some m =>
          simp only [EStateM.run_bind, EStateM.run_get, hk, hnew, Option.isSome_some, if_true,
            run_throw]
      | none =>
          simp only [EStateM.run_bind, EStateM.run_get, hk, hnew, Option.isSome_none,
            Bool.false_eq_true, if_false, EStateM.run_pure]
          cases hp : g.hierarchy.placement (g.hierarchy.inherited? k d) d.kind with
          | none => simp only [run_place_of_none hp]
          | some p =>
              obtain ⟨slot, hides⟩ := p
              have hacc : g.hierarchy.AcceptsMethod k
                  { toMethodDecl := d, id := ⟨g.hierarchy.methods.length⟩, owner := c, slot, hides } :=
                ⟨rfl, hk, hnew, hp⟩
              obtain ⟨hidden, g', hplaced⟩ := exists_placed hacc hwf
              have hplace := hplaced.run_place
              have hm := ofDecl_eq hplaced.hides_eq
              simp only at hplace hm
              simp only [hplace, hplaced.run_warnOfHidden, hm]
              rw [run_enter _ hplaced.slot_known, hplaced.addMethod_eq]

end Declaring

end LateBinding
