import LateBinding.Table
import LateBinding.Method

/-!
# LateBinding.Hierarchy.Basic

A single-inheritance class hierarchy: classes linked to their parents, the
methods they declare, and the slots that dynamically dispatched methods share.

Every accepted method is entered in several places: in the list of all methods,
in its class (in order, by name, and by slot), and in the slot it is attached
to.  `addMethod` is the one operation that makes these entries.
-/

namespace LateBinding

/-- A class: its name, its parent, and the methods it declares. -/
structure ClassInfo where
  name : String
  parent : Option ClassId
  /-- Declared methods, in declaration order. -/
  methods : List Method := []
  /-- Declared methods by name, each group in declaration order. -/
  overloads : Table String (List Method) := {}
  /-- The declared method attached to each slot that the class implements. -/
  implements : Table SlotId Method := {}
  deriving Repr, Inhabited, DecidableEq

/-- A slot: the name and signature it stands for, the virtual method that opened it, and
every method attached to it with the class it was declared in, in declaration order. -/
structure Slot where
  name : String
  signature : Signature
  origin : Method
  implementations : List (ClassId × Method)
  deriving Repr, Inhabited, DecidableEq

/-- A single-inheritance class hierarchy with declared methods. -/
structure Hierarchy where
  classes : List ClassInfo := []
  classIds : Table String ClassId := {}
  methods : List Method := []
  slots : List Slot := []
  deriving Repr, Inhabited, DecidableEq

/-! ## entering a method -/

/-- The class with one more method. -/
def ClassInfo.addMethod (k : ClassInfo) (m : Method) : ClassInfo :=
  { k with
    methods := k.methods ++ [m]
    overloads := k.overloads.push m.name m
    implements :=
      match m.slot with
      | some s => k.implements.insert s m
      | none => k.implements }

/-- The slot that a virtual method opens, before any method is attached to it. -/
def Slot.openedBy (m : Method) : Slot :=
  { name := m.name, signature := m.signature, origin := m, implementations := [] }

/-- The slot with one more method of a class attached to it. -/
def Slot.attach (s : Slot) (c : ClassId) (m : Method) : Slot :=
  { s with implementations := s.implementations ++ [(c, m)] }

namespace Hierarchy

/-- The hierarchy without classes. -/
def empty : Hierarchy := {}

/-- The slots after a method has joined its slot, or opened it if the slot is
the next free one. -/
def slotsWith (slots : List Slot) (m : Method) : List Slot :=
  match m.slot with
  | none => slots
  | some s =>
    if s.index < slots.length then slots.modify s.index (·.attach m.owner m)
    else slots ++ [(Slot.openedBy m).attach m.owner m]

/-- The hierarchy with one more class. -/
def addClass (h : Hierarchy) (name : String) (parent : Option ClassId) : Hierarchy :=
  { h with
    classes := h.classes ++ [{ name, parent }]
    classIds := h.classIds.insert name ⟨h.classes.length⟩ }

/-- The hierarchy with one more method, entered in its class and its slot. -/
def addMethod (h : Hierarchy) (m : Method) : Hierarchy :=
  { h with
    classes := h.classes.modify m.owner.index (·.addMethod m)
    methods := h.methods ++ [m]
    slots := slotsWith h.slots m }

/-! ## looking up by number and by name -/

/-- The class with this number. -/
def class? (h : Hierarchy) (c : ClassId) : Option ClassInfo := h.classes[c.index]?

/-- The method with this number. -/
def method? (h : Hierarchy) (m : MethodId) : Option Method := h.methods[m.index]?

/-- The slot with this number. -/
def slot? (h : Hierarchy) (s : SlotId) : Option Slot := h.slots[s.index]?

/-- The class with this name. -/
def classNamed? (h : Hierarchy) (name : String) : Option ClassId := h.classIds.get? name

/-- The name of a class, empty for a number that stands for none. -/
def className (h : Hierarchy) (c : ClassId) : String :=
  match h.class? c with
  | some k => k.name
  | none => ""

/-- A method written `Class.name(parameters)`. -/
def qualifiedName (h : Hierarchy) (m : Method) : String :=
  h.className m.owner ++ "." ++ m.name ++ m.signature.text

end Hierarchy

end LateBinding
