import HttpWire.Text.Blank

/-!
# Tokens and lists of tokens

Field names are tokens of RFC 9110, compared without regard to ASCII case. Several fields hold
comma-separated lists of tokens, and a few are searched for a fixed text.

- `isTokenByte`: the bytes that a token may hold.
- `sameFold`: equality up to the case of ASCII letters; `sameFold_iff` reduces it to an equation.
- `listItems`: the items of a comma-separated list, without surrounding white space.
- `occursIn`: whether a text occurs inside another.
-/

set_option autoImplicit false

namespace HttpWire.Text

/-- A byte of a token: an ASCII letter or digit, or one of fifteen marks. -/
def isTokenByte (b : UInt8) : Bool :=
  (48 ≤ b && b ≤ 57) || (65 ≤ b && b ≤ 90) || (97 ≤ b && b ≤ 122)
    || b ∈ [33, 35, 36, 37, 38, 39, 42, 43, 45, 46, 94, 95, 96, 124, 126]

/-- A text with its ASCII letters in lower case. -/
def foldCase (text : String) : List Char :=
  text.toList.map Char.toLower

/-- Whether two texts differ at most in the case of ASCII letters. -/
def sameFold (s t : String) : Bool :=
  foldCase s == foldCase t

theorem sameFold_iff {s t : String} : sameFold s t = true ↔ foldCase s = foldCase t := by
  simp [sameFold]

@[simp] theorem sameFold_refl (s : String) : sameFold s s = true := by
  simp [sameFold]

/-- The items of a comma-separated list, each without the white space around it. An empty item is
kept. -/
def listItems (value : String) : List String :=
  (value.toList.splitOn ',').map fun item => String.ofList (trim isSpace item)

/-- Whether `needle` occurs as a run of consecutive characters of the list. -/
def occursIn (needle : List Char) : List Char → Bool
  | [] => needle.isEmpty
  | c :: cs => needle.isPrefixOf (c :: cs) || occursIn needle cs

/-- A text occurs in another exactly when it is an infix of it. -/
theorem occursIn_iff (needle hay : List Char) : occursIn needle hay = true ↔ needle <:+: hay := by
  induction hay with
  | nil => simp [occursIn]
  | cons c cs ih =>
      rw [occursIn, Bool.or_eq_true, ih, List.infix_cons_iff, List.isPrefixOf_iff_prefix]

end HttpWire.Text
