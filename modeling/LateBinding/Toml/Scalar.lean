import LateBinding.Document.Basic
import LateBinding.Toml.Lexical

/-!
# LateBinding.Toml.Scalar

Numbers, dates and times in TOML.

Digits may be separated by single underscores.  An integer must fit into 64 bits
with a sign; a decimal must not round to positive infinity.  Dates and times must
exist, leap seconds included.
-/

namespace LateBinding.Toml

/-! ## digits -/

/-- Further digits of a run; an underscore must have a digit on its right. -/
def moreDigits (isDigit : Char → Bool) : List Char → List Char × List Char
  | [] => ([], [])
  | '_' :: c :: rest =>
    if isDigit c then
      let (digits, rest) := moreDigits isDigit rest
      (c :: digits, rest)
    else ([], '_' :: c :: rest)
  | c :: rest =>
    if isDigit c then
      let (digits, rest) := moreDigits isDigit rest
      (c :: digits, rest)
    else ([], c :: rest)

/-- One or more digits, without their underscores. -/
def digitRun (isDigit : Char → Bool) : Reader (List Char)
  | [] => none
  | c :: rest =>
    if isDigit c then
      let (digits, rest) := moreDigits isDigit rest
      some (c :: digits, rest)
    else none

/-- The digits of a whole number, which starts with zero only if it is zero. -/
def wholeDigits : Reader (List Char)
  | '0' :: rest => some (['0'], rest)
  | cs => digitRun isDigit cs

/-- An optional sign: whether it is a minus, and what follows. -/
def sign : List Char → Bool × List Char
  | '+' :: rest => (false, rest)
  | '-' :: rest => (true, rest)
  | rest => (false, rest)

/-! ## integers -/

/-- The signed integer of a magnitude, if 64 bits hold it. -/
def signedInt? (negative : Bool) (magnitude : Nat) : Option Int :=
  let n : Int := if negative then -(magnitude : Int) else magnitude
  if -Int.pow 2 63 ≤ n ∧ n < Int.pow 2 63 then some n else none

/-- An integer in the given base, after its two characters of introduction. -/
def basedInteger (base : Nat) (isDigit : Char → Bool) : Reader Int := fun cs =>
  match digitRun isDigit cs with
  | none => none
  | some (digits, rest) => (signedInt? false (numeral base digits)).map (·, rest)

/-- An integer. -/
def integer : Reader Int
  | '0' :: 'x' :: rest => basedInteger 16 (fun c => (hexValue? c).isSome) rest
  | '0' :: 'o' :: rest => basedInteger 8 (fun c => '0' ≤ c && c ≤ '7') rest
  | '0' :: 'b' :: rest => basedInteger 2 (fun c => c = '0' || c = '1') rest
  | cs =>
    let (negative, rest) := sign cs
    match wholeDigits rest with
    | none => none
    | some (digits, rest) => (signedInt? negative (numeral 10 digits)).map (·, rest)

/-! ## decimals -/

/-- The fraction of a decimal, empty if there is none. -/
def fraction : Reader (List Char)
  | '.' :: rest => digitRun isDigit rest
  | rest => some ([], rest)

/-- The exponent of a decimal, if there is one. -/
def exponent : Reader (Option Int)
  | 'e' :: rest | 'E' :: rest =>
    let (negative, rest) := sign rest
    match digitRun isDigit rest with
    | none => none
    | some (digits, rest) =>
      let n : Int := numeral 10 digits
      some (some (if negative then -n else n), rest)
  | rest => some (none, rest)

/-- The least number that rounds to infinity in double precision. -/
def doubleLimit : Nat := Nat.pow 2 1024 - Nat.pow 2 970

/-- Whether the digits, taken as a whole number and scaled by a power of ten,
make a number that rounds to infinity.  A number with `k` digits before its point
lies between the powers `k - 1` and `k` of ten, so only 309 digits need a closer
look. -/
def roundsToInfinity (digits : List Char) (scale : Int) : Bool :=
  let significant := digits.dropWhile (· = '0')
  let places : Int := significant.length + scale
  if significant.isEmpty || places < 309 then false
  else if 309 < places then true
  else
    let n := numeral 10 significant
    doubleLimit * Nat.pow 10 (-scale).toNat ≤ n * Nat.pow 10 scale.toNat

/-- The characters of `cs` before its end part `rest`. -/
def lexeme (cs rest : List Char) : String := String.ofList (cs.take (cs.length - rest.length))

/-- A decimal in digits: a fraction, an exponent, or both. -/
def digitDecimal : Reader Document := fun cs =>
  let (negative, afterSign) := sign cs
  match wholeDigits afterSign with
  | none => none
  | some (whole, afterWhole) =>
    match fraction afterWhole with
    | none => none
    | some (decimals, afterFraction) =>
      match exponent afterFraction with
      | none => none
      | some (power, rest) =>
        let digits := whole ++ decimals
        if decimals.isEmpty && power.isNone then none
        else if !negative && roundsToInfinity digits (power.getD 0 - decimals.length) then none
        else some (.decimal (lexeme cs rest), rest)

/-- Infinity or not-a-number, with an optional sign. -/
def namedDecimal : Reader Document := fun cs =>
  match (sign cs).2 with
  | 'i' :: 'n' :: 'f' :: rest => some (.decimal (lexeme cs rest), rest)
  | 'n' :: 'a' :: 'n' :: rest => some (.decimal (lexeme cs rest), rest)
  | _ => none

/-! ## dates and times -/

/-- A number of two digits in a range. -/
def twoDigits (least greatest : Nat) : Reader Nat
  | a :: b :: rest =>
    let n := numeral 10 [a, b]
    if isDigit a && isDigit b && least ≤ n && n ≤ greatest then some (n, rest) else none
  | _ => none

/-- Whether a year has 366 days. -/
def isLeapYear (year : Nat) : Bool := year % 4 = 0 && (year % 100 ≠ 0 || year % 400 = 0)

/-- The number of days of a month. -/
def daysOfMonth (year month : Nat) : Nat :=
  if month = 2 then (if isLeapYear year then 29 else 28)
  else if month = 4 || month = 6 || month = 9 || month = 11 then 30
  else 31

/-- A date; returns what follows it. -/
def skipDate? : List Char → Option (List Char)
  | a :: b :: c :: d :: '-' :: rest =>
    if [a, b, c, d].all isDigit then
      match twoDigits 1 12 rest with
      | some (month, '-' :: rest) =>
        (twoDigits 1 (daysOfMonth (numeral 10 [a, b, c, d]) month) rest).map (·.2)
      | _ => none
    else none
  | _ => none

/-- The fraction of a second, if there is one. -/
def skipSecondFraction : List Char → List Char
  | '.' :: c :: rest => if isDigit c then rest.dropWhile isDigit else '.' :: c :: rest
  | rest => rest

/-- A time of day; returns what follows it. -/
def skipTime? (cs : List Char) : Option (List Char) :=
  match twoDigits 0 23 cs with
  | some (_, ':' :: rest) =>
    match twoDigits 0 59 rest with
    | some (_, ':' :: rest) => (twoDigits 0 60 rest).map fun (_, rest) => skipSecondFraction rest
    | _ => none
  | _ => none

/-- The offset from universal time, if there is one; returns what follows it. -/
def skipOffset? : List Char → Option (List Char)
  | 'Z' :: rest | 'z' :: rest => some rest
  | '+' :: rest | '-' :: rest =>
    match twoDigits 0 23 rest with
    | some (_, ':' :: rest) => (twoDigits 0 59 rest).map (·.2)
    | _ => none
  | rest => some rest

/-- The time of day after a date, if one follows; returns what follows it. -/
def skipDayTime? : List Char → Option (List Char)
  | c :: rest =>
    if c = 'T' || c = 't' || c = ' ' then
      match skipTime? rest with
      | some rest => skipOffset? rest
      | none => some (c :: rest)
    else some (c :: rest)
  | [] => some []

/-- A date, a time of day, or both. -/
def date : Reader Document := fun cs =>
  match skipDate? cs with
  | some rest => (skipDayTime? rest).map fun rest => (.date (lexeme cs rest), rest)
  | none => (skipTime? cs).map fun rest => (.date (lexeme cs rest), rest)

/-! ## what starts with a digit or a sign -/

/-- A date, a decimal or an integer. -/
def number : Reader Document := fun cs =>
  date cs <|> digitDecimal cs <|> namedDecimal cs <|>
    (integer cs).map fun (n, rest) => (.int n, rest)

end LateBinding.Toml
