import LateBinding.Method

/-!
# LateBinding.Overload

Overload selection: of several candidates, the one that a list of argument types
picks.  Candidates that do not accept the arguments drop out; of the others, one
is picked if it alone is not beaten by a more specific one.
-/

namespace LateBinding

/-! ## failures -/

/-- Why a name and argument types pick no method: no candidate accepts the
arguments, or several that do are not beaten. -/
inductive LookupError where
  /-- `lookupClass` is the class whose overload set was searched, if any class
  declares the name. -/
  | noApplicable (name : String) (args : List Primitive) (lookupClass : Option ClassId)
      (candidates : List Method)
  | ambiguous (name : String) (args : List Primitive) (candidates : List Method)
  deriving DecidableEq, Repr

namespace LookupError

/-- The word for the kind of failure. -/
def kind : LookupError → String
  | noApplicable .. => "NoApplicableMethod"
  | ambiguous .. => "AmbiguousOverload"

/-- What to say about a failure. -/
def message : LookupError → String
  | noApplicable name args _ _ =>
    "no applicable overload of `" ++ name ++ "` for arguments " ++ parenthesized args
  | ambiguous name args _ =>
    "call to `" ++ name ++ "` with arguments " ++ parenthesized args ++ " is ambiguous"

/-- The candidates that a failure lists. -/
def candidates : LookupError → List Method
  | noApplicable _ _ _ candidates => candidates
  | ambiguous _ _ candidates => candidates

end LookupError

/-! ## selection -/

namespace Method

/-- Whether a method may be called with arguments of these types. -/
def isApplicable (m : Method) (args : List Primitive) : Bool := m.signature.accepts args

/-- Whether the first method is strictly more specific than the second. -/
def isMoreSpecific (a b : Method) : Bool := a.signature.moreSpecific b.signature

end Method

namespace Overload

/-- Whether some other member of the list is more specific than `m`. -/
def isBeaten (among : List Method) (m : Method) : Bool :=
  among.any fun other => other.id != m.id && other.isMoreSpecific m

/-- The members of the list that no other member beats. -/
def maximal (applicable : List Method) : List Method :=
  applicable.filter fun m => !isBeaten applicable m

/-- Pick the one applicable candidate that no other beats. -/
def select (name : String) (args : List Primitive) (candidates : List Method) :
    Except LookupError Method :=
  let applicable := candidates.filter (·.isApplicable args)
  if applicable.isEmpty then
    .error (.noApplicable name args (candidates.head?.map (·.owner)) candidates)
  else
    match maximal applicable with
    | [m] => .ok m
    | several => .error (.ambiguous name args several)

end Overload

end LateBinding
