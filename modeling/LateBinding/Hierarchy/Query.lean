import LateBinding.Hierarchy.Basic

/-!
# LateBinding.Hierarchy.Query

Questions about a hierarchy: who is above whom, which methods a class declares
or inherits, which slot a name and signature stand for, and which method
implements a slot.

Everything inherited is found by walking `ancestors`, the list of a class and
the classes above it.  A parent always has a smaller number than its children,
so a walk of `c.index + 1` steps from `c` reaches the root.
-/

namespace LateBinding

namespace Hierarchy

/-! ## lineage -/

/-- At most `n` classes met when walking from `c` to its parent, to the parent
of that, and so on. -/
def walkUp (h : Hierarchy) : (n : Nat) → (c : ClassId) → List ClassId
  | 0, _ => []
  | n + 1, c =>
    match h.class? c with
    | none => []
    | some k =>
      c :: match k.parent with
        | none => []
        | some p => h.walkUp n p

/-- The class and every class above it, the most derived first. -/
def ancestors (h : Hierarchy) (c : ClassId) : List ClassId := h.walkUp (c.index + 1) c

/-- Whether `c` is `a` or one of its descendants. -/
def isSameOrDescendant (h : Hierarchy) (c a : ClassId) : Bool := (h.ancestors c).contains a

/-! ## members -/

/-- The methods that a class declares, in declaration order. -/
def members (h : Hierarchy) (c : ClassId) : List Method :=
  match h.class? c with
  | some k => k.methods
  | none => []

/-- The methods of this name that a class declares itself. -/
def membersNamed (h : Hierarchy) (c : ClassId) (name : String) : List Method :=
  match h.class? c with
  | some k => (k.overloads.get? name).getD []
  | none => []

/-- The method of this name and signature that a class declares itself. -/
def declared? (h : Hierarchy) (c : ClassId) (name : String) (s : Signature) : Option Method :=
  (h.membersNamed c name).find? fun m => m.signature == s

/-- The nearest method of this name and signature at or above a class. -/
def nearest? (h : Hierarchy) (c : ClassId) (name : String) (s : Signature) : Option Method :=
  (h.ancestors c).findSome? fun a => h.declared? a name s

/-! ## slots -/

/-- The slot that a name and signature stand for, seen from a class: the slot of
their nearest declaration, if that one has a slot. -/
def visibleSlot? (h : Hierarchy) (c : ClassId) (name : String) (s : Signature) : Option SlotId :=
  (h.nearest? c name s).bind (·.slot)

/-- The method that a class itself declares for a slot. -/
def implementation? (h : Hierarchy) (c : ClassId) (s : SlotId) : Option Method :=
  (h.class? c).bind fun k => k.implements.get? s

/-- The classes at or above `c` that declare a method for a slot, from the
topmost down. -/
def slotChain (h : Hierarchy) (c : ClassId) (s : SlotId) : List ClassId :=
  ((h.ancestors c).filter fun a => (h.implementation? a s).isSome).reverse

/-- The chain of the slot that a name and signature stand for, seen from `c`;
empty if they stand for none. -/
def visibleSlotChain (h : Hierarchy) (c : ClassId) (name : String) (s : Signature) :
    List ClassId :=
  match h.visibleSlot? c name s with
  | some slot => h.slotChain c slot
  | none => []

/-- The most derived implementation of a slot at or above a class. -/
def mostDerived? (h : Hierarchy) (c : ClassId) (s : SlotId) : Option Method :=
  (h.ancestors c).findSome? fun a => h.implementation? a s

/-- The table after a method has taken its slot in it. -/
def enterSlot (t : Table SlotId Method) (m : Method) : Table SlotId Method :=
  match m.slot with
  | some s => t.insert s m
  | none => t

/-- The slot table of a class: every slot that it inherits or opens, in the order
of introduction from the root down, with the method that a call through the slot
runs on an object of exactly this class. -/
def slotTable (h : Hierarchy) (c : ClassId) : Table SlotId Method :=
  ((h.ancestors c).reverse.flatMap h.members).foldl enterSlot Table.empty

end Hierarchy

end LateBinding
