import LateBinding.Document.Basic

/-!
# LateBinding.Document.Json

Documents written as JSON over several lines.  Every level is indented by two
blanks, an item or entry stands on a line of its own, and an empty array or
object is written `[]` or `{}`.

In strings, the quote, the backslash and the characters below the blank are
escaped; everything else stands for itself.
-/

namespace LateBinding

namespace Document

/-! ## strings -/

/-- One character of a JSON string. -/
def escapeChar (c : Char) : List Char :=
  if c = '"' then ['\\', '"']
  else if c = '\\' then ['\\', '\\']
  else if c.toNat = 0x08 then ['\\', 'b']
  else if c.toNat = 0x09 then ['\\', 't']
  else if c.toNat = 0x0a then ['\\', 'n']
  else if c.toNat = 0x0c then ['\\', 'f']
  else if c.toNat = 0x0d then ['\\', 'r']
  else if c.toNat < 0x20 then
    ['\\', 'u', '0', '0', Nat.digitChar (c.toNat / 16), Nat.digitChar (c.toNat % 16)]
  else [c]

/-- The characters of a JSON string. -/
def escape (s : List Char) : List Char := s.flatMap escapeChar

/-- A JSON string with its quotes. -/
def quoted (s : String) : List Char := '"' :: escape s.toList ++ ['"']

/-! ## values -/

/-- A line break and the indentation of a level. -/
def lineBreak (level : Nat) : List Char := '\n' :: List.replicate (2 * level) ' '

/-- The key of an object entry with what separates it from the value. -/
def keyChars (key : String) : List Char := quoted key ++ [':', ' ']

mutual

/-- A value that starts on a line of the given level. -/
def jsonChars (level : Nat) : Document → List Char
  | .null => ['n', 'u', 'l', 'l']
  | .bool true => ['t', 'r', 'u', 'e']
  | .bool false => ['f', 'a', 'l', 's', 'e']
  | .int n => (toString n).toList
  | .decimal text => text.toList
  | .date text => quoted text
  | .string s => quoted s
  | .array [] => ['[', ']']
  | .array (item :: rest) =>
    '[' :: lineBreak (level + 1) ++ jsonChars (level + 1) item ++ moreItems level rest
  | .table [] => ['{', '}']
  | .table ((key, value) :: rest) =>
    '{' :: lineBreak (level + 1) ++ keyChars key ++ jsonChars (level + 1) value ++
      moreEntries level rest

/-- The items after the first, and the end of the array. -/
def moreItems (level : Nat) : List Document → List Char
  | [] => lineBreak level ++ [']']
  | item :: rest =>
    ',' :: lineBreak (level + 1) ++ jsonChars (level + 1) item ++ moreItems level rest

/-- The entries after the first, and the end of the object. -/
def moreEntries (level : Nat) : List (String × Document) → List Char
  | [] => lineBreak level ++ ['}']
  | (key, value) :: rest =>
    ',' :: lineBreak (level + 1) ++ keyChars key ++ jsonChars (level + 1) value ++
      moreEntries level rest

end

/-- The document as JSON text. -/
def jsonText (d : Document) : String := String.ofList (jsonChars 0 d)

end Document

end LateBinding
