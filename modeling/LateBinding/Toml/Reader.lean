import LateBinding.Toml.Value

/-!
# LateBinding.Toml.Reader

TOML documents: lines that are empty, hold a comment, open a table, or give a key
its value in the table opened last.
-/

namespace LateBinding.Toml

/-- The table that a header names, with the number of brackets on either side,
after the opening ones. -/
def headerPath (double : Bool) (cs : List Char) : Option (List String × List Char) :=
  match double, key cs with
  | false, some (path, ']' :: rest) => (endLine? rest).map (path, ·)
  | true, some (path, ']' :: ']' :: rest) => (endLine? rest).map (path, ·)
  | _, _ => none

/-- Read at most `n` lines, with the path of the table opened last and the
entries of the whole document so far. -/
def lines : (n : Nat) → (path : List String) → Entries → List Char → Option Entries
  | 0, _, _, _ => none
  | n + 1, path, root, cs =>
    match skipBlanks cs with
    | [] => some root
    | '#' :: rest =>
      match endLine? ('#' :: rest) with
      | some rest => lines n path root rest
      | none => none
    | '\n' :: rest => lines n path root rest
    | '\r' :: '\n' :: rest => lines n path root rest
    | '[' :: '[' :: rest =>
      match headerPath true rest with
      | none => none
      | some (path, rest) =>
        match openItem path root with
        | some root => lines n path root rest
        | none => none
    | '[' :: rest =>
      match headerPath false rest with
      | none => none
      | some (path, rest) =>
        match openTable path root with
        | some root => lines n path root rest
        | none => none
    | cs =>
      match keyValue value cs with
      | none => none
      | some ((k, v), rest) =>
        match endLine? rest, changeAt false (assign k v) path .defined root with
        | some rest, some root => lines n path root rest
        | _, _ => none

/-- The text after its byte order mark, if it has one. -/
def dropByteOrderMark : List Char → List Char
  | '\uFEFF' :: rest => rest
  | cs => cs

/-- Read a TOML document. -/
def read? (text : String) : Option Document :=
  let cs := dropByteOrderMark text.toList
  (lines (cs.length + 1) [] [] cs).map fun root => .table (finishEntries root)

end LateBinding.Toml
