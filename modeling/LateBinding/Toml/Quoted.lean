import LateBinding.Toml.Lexical

/-!
# LateBinding.Toml.Quoted

The four kinds of TOML strings, and keys.

*Basic* strings stand between double quotes and know escapes, *literal* strings
stand between single quotes and know none.  Either kind may be tripled; then it
may run over several lines, a line break directly after the opening is dropped,
and up to two quotes may stand directly before the closing.
-/

namespace LateBinding.Toml

/-! ## escapes -/

/-- The character that an escape of one letter stands for. -/
def escapeLetter? : Char → Option Char
  | 'b' => some '\x08'
  | 't' => some '\t'
  | 'n' => some '\n'
  | 'f' => some '\x0c'
  | 'r' => some '\r'
  | '"' => some '"'
  | '\\' => some '\\'
  | _ => none

/-- The character whose code is given in hexadecimal digits. -/
def charOfHex? (digits : List Char) : Option Char :=
  let n := numeral 16 digits
  if digits.all (fun c => (hexValue? c).isSome) ∧ n.isValidChar then some (Char.ofNat n) else none

/-- Put a character in front of what was read. -/
def prepend (c : Option Char) (read : Option (List Char × List Char)) :
    Option (List Char × List Char) :=
  match c, read with
  | some c, some (cs, rest) => some (c :: cs, rest)
  | _, _ => none

/-! ## strings on one line -/

/-- The characters of a basic string, after its opening quote. -/
def basicChars : Reader (List Char)
  | [] => none
  | '"' :: rest => some ([], rest)
  | '\\' :: 'u' :: a :: b :: c :: d :: rest =>
    prepend (charOfHex? [a, b, c, d]) (basicChars rest)
  | '\\' :: 'U' :: a :: b :: c :: d :: e :: f :: g :: h :: rest =>
    prepend (charOfHex? [a, b, c, d, e, f, g, h]) (basicChars rest)
  | '\\' :: c :: rest => prepend (escapeLetter? c) (basicChars rest)
  | c :: rest => if isText c && c ≠ '\\' then prepend (some c) (basicChars rest) else none

/-- The characters of a literal string, after its opening quote. -/
def literalChars : Reader (List Char)
  | [] => none
  | '\'' :: rest => some ([], rest)
  | c :: rest => if isText c then prepend (some c) (literalChars rest) else none

/-! ## strings over several lines -/

/-- Where a basic string of several lines stands: in its text; behind a backslash
that ends a line, with the line break still to come; or behind that line break,
where blanks and further line breaks are dropped. -/
inductive Folding where
  | text
  | awaitingBreak
  | dropping
  deriving DecidableEq, Repr

/-- The characters of a basic string of several lines, after its opening. -/
def multilineBasicChars : Folding → Reader (List Char)
  | _, [] => none
  | .awaitingBreak, '\n' :: rest => multilineBasicChars .dropping rest
  | .awaitingBreak, '\r' :: '\n' :: rest => multilineBasicChars .dropping rest
  | .awaitingBreak, c :: rest => if isBlank c then multilineBasicChars .awaitingBreak rest else none
  | .dropping, '\n' :: rest => multilineBasicChars .dropping rest
  | .dropping, '\r' :: '\n' :: rest => multilineBasicChars .dropping rest
  | .dropping, ' ' :: rest => multilineBasicChars .dropping rest
  | .dropping, '\t' :: rest => multilineBasicChars .dropping rest
  | _, '"' :: '"' :: '"' :: '"' :: '"' :: rest => some (['"', '"'], rest)
  | _, '"' :: '"' :: '"' :: '"' :: rest => some (['"'], rest)
  | _, '"' :: '"' :: '"' :: rest => some ([], rest)
  | _, '\n' :: rest => prepend (some '\n') (multilineBasicChars .text rest)
  | _, '\r' :: '\n' :: rest => prepend (some '\n') (multilineBasicChars .text rest)
  | _, '\\' :: 'u' :: a :: b :: c :: d :: rest =>
    prepend (charOfHex? [a, b, c, d]) (multilineBasicChars .text rest)
  | _, '\\' :: 'U' :: a :: b :: c :: d :: e :: f :: g :: h :: rest =>
    prepend (charOfHex? [a, b, c, d, e, f, g, h]) (multilineBasicChars .text rest)
  | _, '\\' :: '\n' :: rest => multilineBasicChars .dropping rest
  | _, '\\' :: '\r' :: '\n' :: rest => multilineBasicChars .dropping rest
  | _, '\\' :: c :: rest =>
    if isBlank c then multilineBasicChars .awaitingBreak rest
    else prepend (escapeLetter? c) (multilineBasicChars .text rest)
  | _, c :: rest =>
    if isText c && c ≠ '\\' then prepend (some c) (multilineBasicChars .text rest) else none

/-- The characters of a literal string of several lines, after its opening. -/
def multilineLiteralChars : Reader (List Char)
  | [] => none
  | '\'' :: '\'' :: '\'' :: '\'' :: '\'' :: rest => some (['\'', '\''], rest)
  | '\'' :: '\'' :: '\'' :: '\'' :: rest => some (['\''], rest)
  | '\'' :: '\'' :: '\'' :: rest => some ([], rest)
  | '\n' :: rest => prepend (some '\n') (multilineLiteralChars rest)
  | '\r' :: '\n' :: rest => prepend (some '\n') (multilineLiteralChars rest)
  | c :: rest => if isText c then prepend (some c) (multilineLiteralChars rest) else none

/-- Drop a line break at the front, if there is one. -/
def dropLineBreak (cs : List Char) : List Char := (lineBreak? cs).getD cs

/-- The characters read, as a string. -/
def asString (read : Option (List Char × List Char)) : Option (String × List Char) :=
  read.map fun (cs, rest) => (String.ofList cs, rest)

/-- A string of any of the four kinds. -/
def string : Reader String
  | '"' :: '"' :: '"' :: rest => asString (multilineBasicChars .text (dropLineBreak rest))
  | '"' :: rest => asString (basicChars rest)
  | '\'' :: '\'' :: '\'' :: rest => asString (multilineLiteralChars (dropLineBreak rest))
  | '\'' :: rest => asString (literalChars rest)
  | _ => none

/-! ## keys -/

/-- A character of a bare key. -/
def isBare (c : Char) : Bool :=
  isDigit c || ('a' ≤ c && c ≤ 'z') || ('A' ≤ c && c ≤ 'Z') || c = '-' || c = '_'

/-- One part of a key: bare, or a string on one line. -/
def keyPart : Reader String
  | '"' :: rest => asString (basicChars rest)
  | '\'' :: rest => asString (literalChars rest)
  | cs =>
    match cs.takeWhile isBare with
    | [] => none
    | bare => some (String.ofList bare, cs.dropWhile isBare)

/-- A key of at most `n` parts that dots separate, with the blanks around them. -/
def keyParts : (n : Nat) → Reader (List String)
  | 0, _ => none
  | n + 1, cs =>
    match keyPart (skipBlanks cs) with
    | none => none
    | some (part, rest) =>
      match skipBlanks rest with
      | '.' :: rest =>
        match keyParts n rest with
        | some (parts, rest) => some (part :: parts, rest)
        | none => none
      | rest => some ([part], rest)

/-- The greatest depth to which values nest, and the greatest number of parts of
a key. -/
def depthLimit : Nat := 79

/-- A key, with the blanks around it. -/
def key : Reader (List String) := keyParts depthLimit

end LateBinding.Toml
