import LateBinding.Primitive

/-!
# LateBinding.Signature

Signatures, the lists of parameter types that tell overloads apart, and the
two relations that overload selection rests on: which argument lists a
signature *accepts*, and when one signature is *more specific* than another.
-/

namespace LateBinding

/-- An ordered list of parameter types. -/
structure Signature where
  params : List Primitive
  deriving DecidableEq, Repr, Inhabited

/-! ## text -/

/-- Type names separated by a comma and a blank. -/
def commaSeparated : List Primitive → String
  | [] => ""
  | [p] => p.name
  | p :: rest => p.name ++ ", " ++ commaSeparated rest

/-- A list of types in parentheses, as in `(int, string)`. -/
def parenthesized (types : List Primitive) : String := "(" ++ commaSeparated types ++ ")"

namespace Signature

/-- The signature in parentheses, as in `(int, string)`. -/
def text (s : Signature) : String := parenthesized s.params

/-- The number of parameters. -/
def arity (s : Signature) : Nat := s.params.length

/-! ## acceptance -/

/-- Whether every type of the first list converts to its partner in the second,
and neither list is longer. -/
def convertible : List Primitive → List Primitive → Bool
  | [], [] => true
  | a :: as, p :: ps => a.convertsTo p && convertible as ps
  | _, _ => false

/-- Whether arguments of these types may be passed to the signature. -/
def accepts (s : Signature) (args : List Primitive) : Bool := convertible args s.params

/-! ## specificity -/

/-- Whether some type of the first list widens to its partner in the second. -/
def someWidens : List Primitive → List Primitive → Bool
  | a :: as, b :: bs => a.widensTo b || someWidens as bs
  | _, _ => false

/-- Whether `a` is strictly more specific than `b`: every parameter of `a`
converts to its partner in `b`, at least one of them only by widening. -/
def moreSpecific (a b : Signature) : Bool :=
  convertible a.params b.params && someWidens a.params b.params

/-- The order of two signatures by specificity: `lt` if the first is the more
specific, `gt` if the second is, `eq` if neither is. -/
def compareSpecificity (a b : Signature) : Ordering :=
  match a.moreSpecific b, b.moreSpecific a with
  | true, false => .lt
  | false, true => .gt
  | _, _ => .eq

end Signature

end LateBinding
