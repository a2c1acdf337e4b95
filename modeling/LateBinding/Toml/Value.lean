import LateBinding.Toml.Quoted
import LateBinding.Toml.Scalar
import LateBinding.Toml.Section

/-!
# LateBinding.Toml.Value

Values in TOML: strings, numbers, dates, truth values, arrays and inline tables.
Arrays may run over several lines and end in a comma, inline tables may not.
-/

namespace LateBinding.Toml

/-- A key with its value, `item` reading the value; blanks may stand around
either. -/
def keyValue (item : Reader Document) : Reader (List String × Document) := fun cs =>
  match key cs with
  | some (path, '=' :: rest) =>
    match item (skipBlanks rest) with
    | some (v, rest) => some ((path, v), skipBlanks rest)
    | none => none
  | _ => none

/-- At most `n` items of an array, after its bracket or a comma. -/
def arrayItems (item : Reader Document) : (n : Nat) → Reader (List Document)
  | 0, _ => none
  | n + 1, cs =>
    match skipGaps false cs with
    | ']' :: rest => some ([], rest)
    | cs =>
      match item cs with
      | none => none
      | some (d, rest) =>
        match skipGaps false rest with
        | ']' :: rest => some ([d], rest)
        | ',' :: rest =>
          match arrayItems item n rest with
          | some (ds, rest) => some (d :: ds, rest)
          | none => none
        | _ => none

/-- At most `n` entries of an inline table, after its brace or a comma, added to
the entries before them. -/
def inlineEntries (item : Reader Document) : (n : Nat) → Entries → Reader Entries
  | 0, _, _ => none
  | n + 1, entries, cs =>
    match keyValue item cs with
    | none => none
    | some ((path, v), rest) =>
      match assign path v .defined entries with
      | none => none
      | some entries =>
        match rest with
        | '}' :: rest => some (entries, rest)
        | ',' :: rest => inlineEntries item n entries rest
        | _ => none

/-- An inline table, after its brace. -/
def inlineTable (item : Reader Document) : Reader Document := fun cs =>
  match skipBlanks cs with
  | '}' :: rest => some (.table [], rest)
  | cs => (inlineEntries item cs.length [] cs).map fun (entries, rest) =>
      (.table (finishEntries entries), rest)

/-- A value in which arrays and inline tables nest at most `levels` deep. -/
def valueWithin : (levels : Nat) → Reader Document
  | levels, cs =>
    match cs with
    | '"' :: _ | '\'' :: _ => (string cs).map fun (s, rest) => (.string s, rest)
    | 't' :: 'r' :: 'u' :: 'e' :: rest => some (.bool true, rest)
    | 'f' :: 'a' :: 'l' :: 's' :: 'e' :: rest => some (.bool false, rest)
    | '[' :: rest =>
      match levels with
      | 0 => none
      | levels + 1 =>
        (arrayItems (valueWithin levels) (rest.length + 1) rest).map fun (items, rest) =>
          (.array items, rest)
    | '{' :: rest =>
      match levels with
      | 0 => none
      | levels + 1 => inlineTable (valueWithin levels) rest
    | _ => number cs

/-- A value. -/
def value : Reader Document := valueWithin depthLimit

end LateBinding.Toml
