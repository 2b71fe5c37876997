import HttpWire.Text.Blank

/-!
# Numerals below a bound

Lengths, sizes, status codes and version numbers are written in digits and kept only when they are
below a bound that depends on the place: a numeral at or above the bound is refused, never wrapped.

- `bitBound` is the bound that a number of bits sets.
- `decimal` writes a number, `decimal?` reads one, `decimal?_decimal` ties the two together.
- `unsigned?` also admits a plus sign in front.
- `hexadecimal?` reads digits of either case in base sixteen.
-/

set_option autoImplicit false

namespace HttpWire.Text

/-- The first number that does not fit into the given number of bits. -/
def bitBound (bits : Nat) : Nat :=
  Nat.pow 2 bits

/-- The decimal digits of a number, without leading zeros. -/
def decimal (n : Nat) : String :=
  String.ofList (Nat.toDigits 10 n)

/-- The number that the list denotes if it is a non-empty run of ASCII digits, with any number of
leading zeros, and the number is below the bound. -/
def decimal? (bound : Nat) (digits : List Char) : Option Nat :=
  if digits.isEmpty || !digits.all Char.isDigit then none
  else
    let n := Nat.ofDigitChars 10 digits 0
    if n < bound then some n else none

/-- As `decimal?`, where one plus sign may stand before the digits. -/
def unsigned? (bound : Nat) : List Char → Option Nat
  | '+' :: digits => decimal? bound digits
  | digits => decimal? bound digits

/-- The value of a hexadecimal digit of either case. -/
def hexDigit? (c : Char) : Option Nat :=
  let n := c.toNat
  if 48 ≤ n && n ≤ 57 then some (n - 48)
  else if 97 ≤ n && n ≤ 102 then some (n - 87)
  else if 65 ≤ n && n ≤ 70 then some (n - 55)
  else none

/-- The number denoted by digit values in a base, the most significant digit first. -/
def ofDigits (base : Nat) (digits : List Nat) : Nat :=
  digits.foldl (fun n d => n * base + d) 0

/-- The number that the list denotes if it is a non-empty run of hexadecimal digits, with any
number of leading zeros, and the number is below the bound. -/
def hexadecimal? (bound : Nat) (digits : List Char) : Option Nat :=
  if digits.isEmpty then none
  else
    match digits.mapM hexDigit? with
    | none => none
    | some values =>
        let n := ofDigits 16 values
        if n < bound then some n else none

/-- A number below the bound is read back from its decimal digits. -/
theorem decimal?_decimal {bound n : Nat} (h : n < bound) :
    decimal? bound (decimal n).toList = some n := by
  have hne : (Nat.toDigits 10 n).isEmpty = false := by
    rw [List.isEmpty_eq_false_iff, ← List.length_pos_iff]
    exact Nat.length_toDigits_pos
  have hall : (Nat.toDigits 10 n).all Char.isDigit = true := by
    rw [List.all_eq_true]
    exact fun c hc => Nat.isDigit_of_mem_toDigits (by decide) (by decide) hc
  simp [decimal?, decimal, hne, hall, h, Nat.ofDigitChars_ten_toDigits]

end HttpWire.Text
