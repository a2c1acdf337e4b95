import LateBinding.CallSite
import LateBinding.Config
import LateBinding.Overload

/-!
# LateBinding.Resolution

Which method body a call runs, in two steps.

1. *Static lookup* walks up from the static type to the first class with a
   candidate of the called name, and picks one of that class's candidates by the
   argument types.  Candidates further up are hidden by name.
2. *Redirection* leaves a statically bound choice alone.  A virtual or
   overriding choice stands for its slot, and the most derived implementation of
   the slot at or above the runtime type runs.
-/

namespace LateBinding

/-- How the executed method was bound: by the static type alone, or through a
slot by the runtime type. -/
inductive Binding where
  | static
  | dynamic (slot : SlotId)
  deriving DecidableEq, Repr, Inhabited

namespace Binding

/-- Whether the runtime type took part. -/
def isDynamic : Binding → Bool
  | .static => false
  | .dynamic _ => true

/-- The slot of a dynamic binding. -/
def slot? : Binding → Option SlotId
  | .static => none
  | .dynamic s => some s

end Binding

/-- A resolved call: the method that runs, the class that declares it, the method that
static lookup chose, and how the one came from the other. -/
structure Resolution where
  method : Method
  declaringClass : ClassId
  selected : Method
  binding : Binding
  deriving DecidableEq, Repr, Inhabited

/-- Whether a method is a candidate of static lookup under a rule. -/
def LookupRule.admits (rule : LookupRule) (m : Method) : Bool :=
  match rule with
  | .atOverride => true
  | .atIntroduction => m.kind != .override

namespace Hierarchy

/-! ## static lookup -/

/-- The candidates of a name that one class declares. -/
def candidates (h : Hierarchy) (rule : LookupRule) (c : ClassId) (name : String) : List Method :=
  (h.membersNamed c name).filter rule.admits

/-- The overload set visible from a class: the candidates of the first class at
or above it that has any. -/
def visibleOverloads (h : Hierarchy) (rule : LookupRule) (c : ClassId) (name : String) :
    Option (ClassId × List Method) :=
  (h.ancestors c).findSome? fun a =>
    let ms := h.candidates rule a name
    if ms.isEmpty then none else some (a, ms)

/-- The method that a call binds to by its static type. -/
def lookupStatic (h : Hierarchy) (rule : LookupRule) (c : ClassId) (name : String)
    (args : List Primitive) : Except LookupError Method :=
  match h.visibleOverloads rule c name with
  | none => .error (.noApplicable name args none [])
  | some (_, ms) => Overload.select name args ms

/-! ## redirection -/

/-- Redirect a chosen method through the runtime type of the receiver. -/
def redirect (h : Hierarchy) (selected : Method) (runtime : ClassId) : Resolution :=
  match selected.slot with
  | some s =>
    if selected.kind.isDynamic then
      let target := (h.mostDerived? runtime s).getD selected
      ⟨target, target.owner, selected, .dynamic s⟩
    else ⟨selected, selected.owner, selected, .static⟩
  | none => ⟨selected, selected.owner, selected, .static⟩

/-! ## both steps -/

/-- Resolve which method body a call site runs. -/
def resolve (h : Hierarchy) (rule : LookupRule) (site : CallSite) :
    Except LookupError Resolution :=
  match h.lookupStatic rule site.static site.method site.args with
  | .ok m => .ok (h.redirect m site.runtime)
  | .error e => .error e

end Hierarchy

end LateBinding
