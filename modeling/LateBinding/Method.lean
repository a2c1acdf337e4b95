import LateBinding.Signature

/-!
# LateBinding.Method

Methods, before and after a hierarchy has accepted them.  A `MethodDecl` is
what is declared: name, signature, kind and body.  A `Method` adds what its
acceptance fixed: its number, its class, the slot it implements and the
inherited member it hides.
-/

namespace LateBinding

/-! ## numbers -/

/-- A class of a hierarchy, numbered from 0 in order of acceptance.  The number has no
bound here; results are about hierarchies of fewer than 2 ^ 32 classes, where it is a word of
32 bits. -/
structure ClassId where
  index : Nat
  deriving DecidableEq, Repr, Inhabited

/-- A method of a hierarchy, numbered from 0 in order of acceptance.  The number has no
bound here; results are about hierarchies of fewer than 2 ^ 32 methods, where it is a word of
32 bits. -/
structure MethodId where
  index : Nat
  deriving DecidableEq, Repr, Inhabited

/-- A slot of a hierarchy: the unit of dynamic dispatch, opened by a virtual
method and shared by all its overrides.  Slots are numbered from 0 as they are opened.  The
number has no bound here; results are about hierarchies of fewer than 2 ^ 32 slots, where it
is a word of 32 bits. -/
structure SlotId where
  index : Nat
  deriving DecidableEq, Repr, Inhabited

/-- How a class is named in a message that has only its number. -/
def ClassId.text (c : ClassId) : String := "#" ++ toString c.index

/-! ## kinds -/

/-- How a method takes part in dispatch: it opens a slot, joins the slot of the
inherited method it overrides, is bound statically and means to hide inherited
members, or is just bound statically. -/
inductive MethodKind where
  | virtual
  | override
  | hide
  | plain
  deriving DecidableEq, Repr, Inhabited

namespace MethodKind

/-- The word for a kind. -/
def name : MethodKind → String
  | .virtual => "virtual"
  | .override => "override"
  | .hide => "hide"
  | .plain => "plain"

/-- The kind that a word stands for; `new` is a second word for `hide`. -/
def ofName? : String → Option MethodKind
  | "virtual" => some .virtual
  | "override" => some .override
  | "hide" => some .hide
  | "new" => some .hide
  | "plain" => some .plain
  | _ => none

/-- Whether calls bound to a method of this kind are redirected through the
runtime type. -/
def isDynamic : MethodKind → Bool
  | .virtual | .override => true
  | .hide | .plain => false

end MethodKind

/-! ## methods -/

/-- A call that a body makes on its own receiver. -/
structure SelfCall where
  method : String
  args : List Primitive := []
  deriving DecidableEq, Repr, Inhabited

/-- A method as it is declared. -/
structure MethodDecl where
  name : String
  signature : Signature
  kind : MethodKind
  /-- The calls made on the receiver when the method runs. -/
  body : List SelfCall := []
  deriving DecidableEq, Repr, Inhabited

/-- A method that a hierarchy has accepted. -/
structure Method extends MethodDecl where
  id : MethodId
  /-- The declaring class. -/
  owner : ClassId
  /-- The slot that the method opens or joins. -/
  slot : Option SlotId
  /-- The nearest inherited method with the same name and signature, if the
  declaration hides it. -/
  hides : Option MethodId
  deriving DecidableEq, Repr, Inhabited

end LateBinding
