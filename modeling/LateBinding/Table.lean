/-!
# LateBinding.Table

Tables that remember the order in which their keys were first written.
Writing a new key appends it; writing a known key replaces its value and
keeps its place.
-/

namespace LateBinding

/-- A table from keys to values, in the order of the keys' first writing. -/
structure Table (κ : Type) (ν : Type) where
  entries : List (κ × ν) := []
  deriving Repr, Inhabited, DecidableEq

namespace Table

variable {κ ν : Type}

/-- The table without entries. -/
def empty : Table κ ν := {}

/-- The keys, in order. -/
def keys (t : Table κ ν) : List κ := t.entries.map Prod.fst

variable [DecidableEq κ]

/-- The value stored under a key. -/
def get? (t : Table κ ν) (k : κ) : Option ν := t.entries.lookup k

/-- The entries after writing one key. -/
def put (k : κ) (v : ν) : List (κ × ν) → List (κ × ν)
  | [] => [(k, v)]
  | (k', v') :: rest => if k' = k then (k, v) :: rest else (k', v') :: put k v rest

/-- Write one key. -/
def insert (t : Table κ ν) (k : κ) (v : ν) : Table κ ν := ⟨put k v t.entries⟩

/-- Add one element at the end of the list stored under a key. -/
def push {α : Type} (t : Table κ (List α)) (k : κ) (a : α) : Table κ (List α) :=
  t.insert k ((t.get? k).getD [] ++ [a])

end Table

end LateBinding
