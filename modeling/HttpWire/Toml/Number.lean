import HttpWire.Text.Numeral
import HttpWire.Toml.Scan

/-!
# Numbers

An integer is written in decimal with an optional sign, or in base two, eight or sixteen with a
prefix and no sign, and has to fit into 64 bits with sign. A float is a decimal integer with a
fraction, an exponent or both, or one of the special values. Single underscores may stand between
digits.

Only integers have a use as settings. Of a float it matters whether it is well-formed, which
includes that it is not rounded to positive infinity.
-/

set_option autoImplicit false

namespace HttpWire.Toml

/-! ## Digits -/

/-- One step through a run of digits of a class, with single underscores between them. -/
def digitStep (isDigit : Char → Bool) : List Char → Option (Taken Char)
  | '_' :: c :: rest => if isDigit c then some (.more [c] rest) else none
  | ['_'] => none
  | c :: rest => if isDigit c then some (.more [c] rest) else some (.last [] (c :: rest))
  | [] => some (.last [] [])

/-- Reads a run of digits of a class, which begins and ends with a digit. -/
def digits (isDigit : Char → Bool) : Parser (List Char)
  | [] => none
  | c :: rest => if isDigit c then collect (digitStep isDigit) (c :: rest) else none

/-- Reads the digits of a decimal integer, where only zero itself begins with a zero. -/
def wholeDigits : Parser (List Char)
  | '0' :: rest => some (['0'], rest)
  | cs => digits Char.isDigit cs

/-- Reads an optional sign, and says whether it is a minus. -/
def sign : List Char → Bool × List Char
  | '-' :: rest => (true, rest)
  | '+' :: rest => (false, rest)
  | cs => (false, cs)

/-! ## Integers -/

/-- The number that digits of a base denote. -/
def valueOf (base : Nat) (digits : List Char) : Nat :=
  Text.ofDigits base (digits.filterMap Text.hexDigit?)

/-- An integer, if it fits into 64 bits with sign. -/
def integer? (negative : Bool) (magnitude : Nat) : Option Int :=
  if negative then if magnitude ≤ Text.bitBound 63 then some (-magnitude) else none
  else if magnitude < Text.bitBound 63 then some magnitude else none

/-- A digit of a base up to sixteen. -/
def isDigitOf (base : Nat) (c : Char) : Bool :=
  (Text.hexDigit? c).any (· < base)

/-- Reads an integer of a base other than ten, after its prefix. -/
def based (base : Nat) (cs : List Char) : Option (Int × List Char) :=
  match digits (isDigitOf base) cs with
  | none => none
  | some (ds, rest) => (integer? false (valueOf base ds)).map (·, rest)

/-! ## Floats -/

/-- The least number that is rounded to infinity: halfway from the largest finite double to the
power of two after it. -/
def floatCeiling : Nat :=
  (Text.bitBound 54 - 1) * Text.bitBound 970

/-- Whether `mantissa * 10 ^ exponent`, whose mantissa has `length` digits, is rounded to infinity.
The number of digits before the point decides all cases but one. -/
def overflows (mantissa length : Nat) (exponent : Int) : Bool :=
  let places := length + exponent
  -- the largest finite double has 309 digits before the point
  if mantissa = 0 ∨ places ≤ 308 then false
  else if 310 ≤ places then true
  else if exponent < 0 then floatCeiling * Nat.pow 10 exponent.natAbs ≤ mantissa
  else floatCeiling ≤ mantissa * Nat.pow 10 exponent.natAbs

/-- Reads a fraction, if one begins here. -/
def fraction : Parser (List Char)
  | '.' :: rest => digits Char.isDigit rest
  | cs => some ([], cs)

/-- Reads an exponent, if one begins here. -/
def exponent : List Char → Option (Option Int × List Char)
  | c :: rest =>
      if c == 'e' || c == 'E' then
        let (negative, rest) := sign rest
        match digits Char.isDigit rest with
        | none => none
        | some (ds, rest) =>
            let n : Int := valueOf 10 ds
            some (some (if negative then -n else n), rest)
      else some (none, c :: rest)
  | [] => some (none, [])

/-- The digits of a number from the first that is not zero. -/
def significant (ds : List Char) : List Char :=
  ds.dropWhile (· == '0')

/-! ## Numbers of either kind -/

/-- What a number is: an integer with its value, or a float. -/
inductive Number where
  | integer (n : Int)
  | float
  deriving Repr, DecidableEq

/-- Reads a number in decimal. -/
def decimalNumber (cs : List Char) : Option (Number × List Char) := do
  let (negative, unsigned) := sign cs
  let (whole, rest) ← wholeDigits unsigned
  let (fractional, rest) ← fraction rest
  let (power, rest) ← exponent rest
  if fractional.isEmpty && power.isNone then
    let n ← integer? negative (valueOf 10 whole)
    return (.integer n, rest)
  else
    let ds := significant (whole ++ fractional)
    let scale := power.getD 0 - fractional.length
    if !negative && overflows (valueOf 10 ds) ds.length scale then none
    else return (.float, rest)

/-- Reads a number. -/
def number : Parser Number
  | '0' :: 'x' :: rest => (based 16 rest).map fun (n, rest) => (.integer n, rest)
  | '0' :: 'o' :: rest => (based 8 rest).map fun (n, rest) => (.integer n, rest)
  | '0' :: 'b' :: rest => (based 2 rest).map fun (n, rest) => (.integer n, rest)
  | cs =>
      match (sign cs).2 with
      | 'i' :: 'n' :: 'f' :: rest => some (.float, rest)
      | 'n' :: 'a' :: 'n' :: rest => some (.float, rest)
      | _ => decimalNumber cs

end HttpWire.Toml
