import LateBinding.Hierarchy.Query

/-!
# LateBinding.SlotTable

The slot table of a class in printable form: a row for each slot, with the method
that opened the slot and the method that a call through it runs.
-/

namespace LateBinding

/-- One row of a slot table. -/
structure SlotRow where
  /-- The method that opened the slot, written `Class.name(parameters)`. -/
  slot : String
  /-- The method that a call through the slot runs, written likewise. -/
  target : String
  /-- The kind of the target. -/
  kind : MethodKind
  deriving DecidableEq, Repr, Inhabited

namespace Hierarchy

/-- The method that opened a slot, in text. -/
def slotName (h : Hierarchy) (s : SlotId) : String :=
  match h.slot? s with
  | some slot => h.qualifiedName slot.origin
  | none => ""

/-- The rows of the slot table of a class, in the order of the table. -/
def slotRows (h : Hierarchy) (c : ClassId) : List SlotRow :=
  (h.slotTable c).entries.map fun (s, m) => ⟨h.slotName s, h.qualifiedName m, m.kind⟩

end Hierarchy

namespace SlotRow

/-- Blanks added on the right up to a width in characters. -/
def padRight (width : Nat) (s : String) : String :=
  s ++ String.ofList (List.replicate (width - s.length) ' ')

/-- The width of the first column: the greatest size of its texts in bytes. -/
def columnWidth (rows : List SlotRow) : Nat :=
  rows.foldl (fun width row => max width row.slot.utf8ByteSize) 0

/-- One row with its first column padded. -/
def line (width : Nat) (row : SlotRow) : String :=
  padRight width row.slot ++ "  -> " ++ row.target ++ " (" ++ row.kind.name ++ ")\n"

/-- The rows as lines of aligned columns. -/
def render (rows : List SlotRow) : String :=
  rows.foldr (fun row text => row.line (columnWidth rows) ++ text) ""

end SlotRow

end LateBinding
