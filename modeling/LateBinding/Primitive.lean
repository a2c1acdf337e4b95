/-!
# LateBinding.Primitive

The nine primitive types that parameters and arguments are made of, and the
implicit conversions between them.

```
byte  -> short -> int -> long -> float -> double
                  ^
char -------------+
```

An arrow, or a path of arrows, is a *widening*; `bool` and `string` widen to
nothing.  A type *converts* to itself and to whatever it widens to.
-/

namespace LateBinding

/-- A primitive type. -/
inductive Primitive where
  | bool
  | char
  | byte
  | short
  | int
  | long
  | float
  | double
  | string
  deriving DecidableEq, Repr, Inhabited

namespace Primitive

/-- Every primitive type, in the order in which tables list them. -/
def all : List Primitive :=
  [.bool, .char, .byte, .short, .int, .long, .float, .double, .string]

/-! ## spelling -/

/-- The word for a primitive type. -/
def name : Primitive → String
  | .bool => "bool"
  | .char => "char"
  | .byte => "byte"
  | .short => "short"
  | .int => "int"
  | .long => "long"
  | .float => "float"
  | .double => "double"
  | .string => "string"

/-- The primitive type that a word stands for; case counts. -/
def ofName? (word : String) : Option Primitive := all.find? fun p => p.name == word

/-- What to say about a word that stands for no primitive type. -/
def unknownMessage (word : String) : String := "unknown primitive type `" ++ word ++ "`"

/-! ## conversions -/

/-- Whether a value of the first type is implicitly widened to the second.
No type widens to itself. -/
def widensTo : Primitive → Primitive → Bool
  | .byte, .short | .byte, .int | .byte, .long | .byte, .float | .byte, .double => true
  | .short, .int | .short, .long | .short, .float | .short, .double => true
  | .char, .int | .char, .long | .char, .float | .char, .double => true
  | .int, .long | .int, .float | .int, .double => true
  | .long, .float | .long, .double => true
  | .float, .double => true
  | _, _ => false

/-- Whether an argument of the first type may be passed where the second is
expected: exactly, or by widening. -/
def convertsTo (source target : Primitive) : Bool := source == target || source.widensTo target

end Primitive

end LateBinding
