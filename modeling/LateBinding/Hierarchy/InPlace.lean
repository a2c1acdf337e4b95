import LateBinding.Hierarchy.Declare

/-!
# LateBinding.Hierarchy.InPlace

Declarations as updates in place, write by write.

A declaration works on the one hierarchy that there is, and warnings are given as it goes
along.  It may be rejected in the midst of that: what was written until then stays written.
So the order of checks and writes matters here, where `Hierarchy.declareClass` and
`Hierarchy.declareMethod` only say what an accepted declaration leaves.
-/

namespace LateBinding

/-- The method that a declaration makes, with its slot and the inherited method it hides. -/
def Method.ofDecl (d : MethodDecl) (id : MethodId) (owner : ClassId) (slot : Option SlotId)
    (hidden : Option Method) : Method :=
  { toMethodDecl := d, id, owner, slot, hides := hidden.map (·.id) }

/-! ## single writes -/

namespace Hierarchy

/-- The hierarchy with the record of a slot that a virtual method opens. -/
def openSlot (h : Hierarchy) (m : Method) : Hierarchy :=
  { h with slots := h.slots ++ [Slot.openedBy m] }

/-- The hierarchy with one class rewritten. -/
def updateClass (h : Hierarchy) (c : ClassId) (f : ClassInfo → ClassInfo) : Hierarchy :=
  { h with classes := h.classes.modify c.index f }

/-- The hierarchy with one slot rewritten. -/
def updateSlot (h : Hierarchy) (s : SlotId) (f : Slot → Slot) : Hierarchy :=
  { h with slots := h.slots.modify s.index f }

end Hierarchy

/-- A declaration under way.  It may be rejected, and also then leaves a hierarchy and
warnings behind. -/
abbrev Declaring := EStateM DeclarationError Grown

namespace Declaring

/-- Write to the hierarchy. -/
def write (f : Hierarchy → Hierarchy) : Declaring Unit :=
  modify fun g => { g with hierarchy := f g.hierarchy }

/-- Give a warning. -/
def warn (w : Warning) : Declaring Unit :=
  modify fun g => { g with warnings := g.warnings ++ [w] }

/-! ## classes -/

/-- Declare a class under an already declared parent, or as a root. -/
def declareClass (name : String) (parent : Option String) : Declaring ClassId := do
  let h := (← get).hierarchy
  if (h.classNamed? name).isSome then
    throw (.duplicateClass name)
  let parentId ←
    match parent with
    | none => pure none
    | some p =>
      match h.classNamed? p with
      | some id => pure (some id)
      | none => throw (.unknownParent name p)
  let id : ClassId := ⟨h.classes.length⟩
  write fun h => { h with classIds := h.classIds.insert name id }
  write fun h => { h with classes := h.classes ++ [{ name, parent := parentId }] }
  return id

/-! ## methods -/

/-- Find the slot of a method and the inherited method that it hides, given the inherited
method of its name and signature.  The record of the slot that a virtual method opens is made
already here. -/
def place (k : ClassInfo) (c : ClassId) (id : MethodId) (d : MethodDecl)
    (inherited : Option Method) : Declaring (Option SlotId × Option Method) := do
  let h := (← get).hierarchy
  match d.kind with
  | .override =>
    match inherited.bind (·.slot) with
    | some s => return (some s, none)
    | none => throw (.invalidOverride k.name d.name d.signature)
  | .virtual =>
    let s : SlotId := ⟨h.slots.length⟩
    write (·.openSlot (.ofDecl d id c (some s) inherited))
    return (some s, inherited)
  | .hide =>
    if !h.inheritsName k d.name then
      warn (.hidesNothing k.name d.name)
    return (none, inherited)
  | .plain => return (none, inherited)

/-- Warn of an inherited method that a declaration hides without saying so. -/
def warnOfHidden (k : ClassInfo) (d : MethodDecl) (hidden : Option Method) : Declaring Unit := do
  let h := (← get).hierarchy
  match hidden with
  | some m =>
    if d.kind ≠ .hide then
      warn (.hidesImplicitly k.name d.name d.signature (h.qualifiedName m))
  | none => return

/-- Enter a method in a class, in its slot and in the list of all methods. -/
def enter (c : ClassId) (m : Method) : Declaring Unit := do
  write (·.updateClass c fun k => { k with overloads := k.overloads.push m.name m })
  match m.slot with
  | some s =>
    write (·.updateClass c fun k => { k with implements := k.implements.insert s m })
    write (·.updateSlot s (·.attach c m))
  | none => pure ()
  write (·.updateClass c fun k => { k with methods := k.methods ++ [m] })
  write fun h => { h with methods := h.methods ++ [m] }

/-- Declare a method in a class.  The name and signature must be new in the class; an
override needs an inherited slot. -/
def declareMethod (c : ClassId) (d : MethodDecl) : Declaring MethodId := do
  let h := (← get).hierarchy
  match h.class? c with
  | none => throw (.unknownClass c.text)
  | some k =>
    if (h.declared? c d.name d.signature).isSome then
      throw (.duplicateSignature k.name d.name d.signature)
    let id : MethodId := ⟨h.methods.length⟩
    let (slot, hidden) ← place k c id d (h.inherited? k d)
    warnOfHidden k d hidden
    enter c (.ofDecl d id c slot hidden)
    return id

end Declaring

end LateBinding
