import LateBinding.Hierarchy.Query

/-!
# LateBinding.Hierarchy.Declare

How a hierarchy grows.  A declaration is either rejected for one cause, and then
there is no new hierarchy at all, or it is accepted under the next free number.
An accepted method may come with a warning about hiding.
-/

namespace LateBinding

/-! ## causes of rejection -/

/-- Why a declaration is rejected. -/
inductive DeclarationError where
  | duplicateClass (name : String)
  | unknownParent (className parent : String)
  | unknownClass (name : String)
  | invalidOverride (className method : String) (signature : Signature)
  | duplicateSignature (className method : String) (signature : Signature)
  deriving DecidableEq, Repr

namespace DeclarationError

/-- What to say about a rejected declaration. -/
def message : DeclarationError → String
  | duplicateClass name => "class `" ++ name ++ "` is already declared"
  | unknownParent className parent =>
    "parent `" ++ parent ++ "` of class `" ++ className ++ "` is not declared"
  | unknownClass name => "class `" ++ name ++ "` is not declared"
  | invalidOverride className method signature =>
    "`" ++ className ++ "." ++ method ++ signature.text ++
      "` is marked override but no ancestor slot matches"
  | duplicateSignature className method signature =>
    "`" ++ className ++ "." ++ method ++ signature.text ++ "` is already declared"

end DeclarationError

/-! ## warnings -/

/-- What an accepted method may be warned about: it means to hide but nothing of
its name is inherited, or it hides an inherited method without saying so. -/
inductive Warning where
  | hidesNothing (className method : String)
  | hidesImplicitly (className method : String) (signature : Signature) (hidden : String)
  deriving DecidableEq, Repr

namespace Warning

/-- The sentence of a warning. -/
def message : Warning → String
  | hidesNothing .. => "member is declared as hiding but no inherited member has that name"
  | hidesImplicitly .. => "member implicitly hides an inherited member"

/-- The named particulars of a warning. -/
def fields : Warning → List (String × String)
  | hidesNothing className method => [("class", className), ("method", method)]
  | hidesImplicitly className method signature hidden =>
    [("class", className), ("method", method), ("signature", signature.text), ("hidden", hidden)]

end Warning

namespace Hierarchy

/-! ## classes -/

/-- Declare a class under an already declared parent, or as a root. -/
def declareClass (h : Hierarchy) (name : String) (parent : Option String) :
    Except DeclarationError (ClassId × Hierarchy) :=
  if (h.classNamed? name).isSome then
    .error (.duplicateClass name)
  else
    match parent with
    | none => .ok (⟨h.classes.length⟩, h.addClass name none)
    | some p =>
      match h.classNamed? p with
      | some id => .ok (⟨h.classes.length⟩, h.addClass name (some id))
      | none => .error (.unknownParent name p)

/-! ## methods -/

/-- The nearest method with the name and signature of a declaration strictly
above a class. -/
def inherited? (h : Hierarchy) (k : ClassInfo) (d : MethodDecl) : Option Method :=
  k.parent.bind fun p => h.nearest? p d.name d.signature

/-- Whether some class strictly above declares a method of this name. -/
def inheritsName (h : Hierarchy) (k : ClassInfo) (name : String) : Bool :=
  match k.parent with
  | none => false
  | some p => (h.ancestors p).any fun a => !(h.membersNamed a name).isEmpty

/-- The slot and the hidden method of a declaration, given the inherited method
of its name and signature.  An override joins the inherited slot, and there is no
place for it without one; a virtual method opens the next slot. -/
def placement (h : Hierarchy) (inherited : Option Method) :
    MethodKind → Option (Option SlotId × Option MethodId)
  | .override => (inherited.bind (·.slot)).map fun s => (some s, none)
  | .virtual => some (some ⟨h.slots.length⟩, inherited.map (·.id))
  | .hide | .plain => some (none, inherited.map (·.id))

/-- The warnings about an accepted declaration. -/
def hidingWarnings (h : Hierarchy) (k : ClassInfo) (d : MethodDecl) (inherited : Option Method) :
    List Warning :=
  match d.kind, inherited with
  | .hide, _ => if h.inheritsName k d.name then [] else [.hidesNothing k.name d.name]
  | .virtual, some m | .plain, some m =>
    [.hidesImplicitly k.name d.name d.signature (h.qualifiedName m)]
  | _, _ => []

/-- What an accepted method declaration leaves: the method, the hierarchy that
holds it, and the warnings about it. -/
structure Accepted where
  method : Method
  hierarchy : Hierarchy
  warnings : List Warning

/-- Declare a method in a class.  The name and signature must be new in the
class; an override needs an inherited slot. -/
def declareMethod (h : Hierarchy) (c : ClassId) (d : MethodDecl) :
    Except DeclarationError Accepted :=
  match h.class? c with
  | none => .error (.unknownClass c.text)
  | some k =>
    if (h.declared? c d.name d.signature).isSome then
      .error (.duplicateSignature k.name d.name d.signature)
    else
      match h.placement (h.inherited? k d) d.kind with
      | none => .error (.invalidOverride k.name d.name d.signature)
      | some (slot, hides) =>
        let m : Method := { toMethodDecl := d, id := ⟨h.methods.length⟩, owner := c, slot, hides }
        .ok ⟨m, h.addMethod m, h.hidingWarnings k d (h.inherited? k d)⟩

end Hierarchy

/-! ## growth -/

/-- A hierarchy with the warnings that came up while it grew. -/
structure Grown where
  hierarchy : Hierarchy := {}
  warnings : List Warning := []
  deriving Repr, Inhabited

end LateBinding
