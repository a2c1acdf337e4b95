import LateBinding.Document.Basic

/-!
# LateBinding.Document.Decode

Reading values out of documents.

A *record* is a table of which some keys are known.  Each of these may be given
once; other keys are passed over.  A record may also be written as the list of its
fields in order, where fields at the end may be left out.  A *word* is a string; it
may also be written as a table whose only key is the word, with an empty payload.
The two dialects differ in what an empty payload is, and in whether a list of fields
may be too long.
-/

namespace LateBinding

/-- The language that a document is written in. -/
inductive Dialect where
  | toml
  | json
  deriving DecidableEq, Repr

namespace Dialect

/-- Whether a value is the payload of a word that carries none: in TOML an empty
table or array, in JSON `null`. -/
def isEmptyPayload : Dialect → Document → Bool
  | .toml, .array [] | .toml, .table [] => true
  | .json, .null => true
  | _, _ => false

/-- Whether a list may stand for a record of so many fields.  TOML passes over
what comes after the last field, JSON does not. -/
def admitsLength : Dialect → (fields items : Nat) → Bool
  | .toml, _, _ => true
  | .json, fields, items => items ≤ fields

end Dialect

namespace Document

/-! ## scalars -/

/-- A string. -/
def string? : Document → Option String
  | .string s => some s
  | _ => none

/-- A truth value. -/
def bool? : Document → Option Bool
  | .bool b => some b
  | _ => none

/-- The number of values that a count may have: counts are words of 64 bits. -/
def countLimit : Nat := Nat.pow 2 64

/-- A count. -/
def count? : Document → Option Nat
  | .int n => if 0 ≤ n ∧ n < countLimit then some n.toNat else none
  | _ => none

/-- A word of a fixed vocabulary. -/
def word? {α : Type} (dialect : Dialect) (ofName? : String → Option α) : Document → Option α
  | .string s => ofName? s
  | .table [(key, payload)] => if dialect.isEmptyPayload payload then ofName? key else none
  | _ => none

/-! ## lists and options -/

/-- Decode every element of a list, or none. -/
def decodeAll {α : Type} (decode : Document → Option α) : List Document → Option (List α)
  | [] => some []
  | d :: rest =>
    match decode d, decodeAll decode rest with
    | some a, some as => some (a :: as)
    | _, _ => none

/-- A list of values. -/
def list? {α : Type} (decode : Document → Option α) : Document → Option (List α)
  | .array items => decodeAll decode items
  | _ => none

/-- A value for which `null` may stand in. -/
def nullable? {α : Type} (decode : Document → Option α) : Document → Option (Option α)
  | .null => some none
  | d => (decode d).map some

/-! ## records -/

/-- Whether a table gives one of the fields more than once. -/
def repeatsField (fields : List String) (entries : List (String × Document)) : Bool :=
  fields.any fun name => 1 < (entries.map (·.1)).count name

/-- The fields of a record, by name: some document for each field that is given,
and no fields at all if the value is no record.  A table that gives a field twice
is none.  Where a record is expected, a date counts as one that gives no known
field. -/
def record? (dialect : Dialect) (fields : List String) :
    Document → Option (String → Option Document)
  | .table entries =>
    if repeatsField fields entries then none else some fun name => entries.lookup name
  | .array items =>
    if dialect.admitsLength fields.length items.length then
      some fun name => items[fields.idxOf name]?
    else none
  | .date _ => some fun _ => none
  | _ => none

/-- A field that must be given. -/
def required {α : Type} (decode : Document → Option α) (field : Option Document) : Option α :=
  field.bind decode

/-- A field that has a default. -/
def defaulted {α : Type} (default : α) (decode : Document → Option α)
    (field : Option Document) : Option α :=
  match field with
  | some d => decode d
  | none => some default

end Document

end LateBinding
