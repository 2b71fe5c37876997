import HttpWire.Text.Latin

/-!
# Blank bytes, blank characters and trimming

Three notions of blankness meet in a message, and they differ.

- `isBlank`: the bytes that separate the tokens of a line and surround a field value.
- `isPadding`: the bytes that may stand before a start line.
- `isSpace`: the characters with Unicode's `White_Space` property, which surround the items of a
  list-valued field, a declared length and a version.

`dropTrailing` and `trim` remove a class of elements from the end, or from both ends, of a list;
`trim_ends` and `trim_of_ends` say what a trimmed list looks like.
-/

set_option autoImplicit false

namespace HttpWire.Text

/-! ## Classes of bytes -/

/-- A carriage return. -/
def cr : UInt8 := 13

/-- A line feed. -/
def lf : UInt8 := 10

/-- A space. -/
def sp : UInt8 := 32

/-- A horizontal tab. -/
def ht : UInt8 := 9

/-- A carriage return or a line feed. -/
def isLineEnd (b : UInt8) : Bool :=
  b == cr || b == lf

/-- A space or a horizontal tab, which at the start of a line continues the field before it. -/
def isFold (b : UInt8) : Bool :=
  b == sp || b == ht

/-- A blank byte: space, the controls from horizontal tab to carriage return, or one of the four
separators from U+001C to U+001F. -/
def isBlank (b : UInt8) : Bool :=
  b == sp || (9 ≤ b && b ≤ 13) || (28 ≤ b && b ≤ 31)

/-- A byte that may stand before a start line: a space or any control, DEL and those from U+0080
to U+009F included. -/
def isPadding (b : UInt8) : Bool :=
  b ≤ 32 || (127 ≤ b && b ≤ 159)

/-- An ASCII control byte, DEL included. -/
def isAsciiControl (b : UInt8) : Bool :=
  b < 32 || b == 127

/-! ## Classes of characters -/

/-- A control character: U+0000 to U+001F and U+007F to U+009F. -/
def isControl (c : Char) : Bool :=
  c.toNat < 32 || (127 ≤ c.toNat && c.toNat ≤ 159)

/-- A character with Unicode's `White_Space` property. -/
def isSpace (c : Char) : Bool :=
  let n := c.toNat
  (9 ≤ n && n ≤ 13) || n == 0x20 || n == 0x85 || n == 0xA0 || n == 0x1680
    || (0x2000 ≤ n && n ≤ 0x200A) || n == 0x2028 || n == 0x2029 || n == 0x202F || n == 0x205F
    || n == 0x3000

/-! ## Trimming -/

variable {α : Type}

/-- The list without the longest run of elements of the class `p` at its end. -/
def dropTrailing (p : α → Bool) (xs : List α) : List α :=
  (xs.reverse.dropWhile p).reverse

/-- The list without the longest runs of elements of the class `p` at its two ends. -/
def trim (p : α → Bool) (xs : List α) : List α :=
  dropTrailing p (xs.dropWhile p)

@[simp] theorem dropTrailing_nil (p : α → Bool) : dropTrailing p [] = [] := rfl

/-- Dropping a run at the end leaves a beginning of the list. -/
theorem dropTrailing_isPrefix (p : α → Bool) (xs : List α) : dropTrailing p xs <+: xs := by
  rw [← List.reverse_suffix]
  simpa [dropTrailing] using List.dropWhile_suffix p

/-- Nothing is dropped from the front of a list that begins outside the class. -/
theorem dropWhile_of_head {p : α → Bool} {xs : List α} (h : ∀ x ∈ xs.head?, p x = false) :
    xs.dropWhile p = xs := by
  cases xs with
  | nil => rfl
  | cons x xs => exact List.dropWhile_cons_of_neg (by simp [h x rfl])

/-- A list that begins and ends outside the class is not trimmed. -/
theorem trim_of_ends {p : α → Bool} {xs : List α} (hfirst : ∀ x ∈ xs.head?, p x = false)
    (hlast : ∀ x ∈ xs.getLast?, p x = false) : trim p xs = xs := by
  rw [← List.head?_reverse] at hlast
  rw [trim, dropWhile_of_head hfirst, dropTrailing, dropWhile_of_head hlast, List.reverse_reverse]

/-- Trimming takes elements away and adds none. -/
theorem mem_of_mem_trim {p : α → Bool} {xs : List α} {x : α} (h : x ∈ trim p xs) : x ∈ xs :=
  (List.dropWhile_suffix p).subset ((dropTrailing_isPrefix p _).subset h)

/-- What is left ends on an element outside the class. -/
theorem getLast_dropTrailing (p : α → Bool) (xs : List α) (x : α)
    (h : (dropTrailing p xs).getLast? = some x) : p x = false := by
  rw [dropTrailing, List.getLast?_reverse] at h
  have hd := List.head?_dropWhile_not p xs.reverse
  rw [h] at hd
  simpa using hd

/-- A list that was trimmed begins and ends outside the class. -/
theorem trim_ends (p : α → Bool) (xs : List α) :
    (∀ x ∈ (trim p xs).head?, p x = false) ∧ ∀ x ∈ (trim p xs).getLast?, p x = false := by
  constructor
  · intro x hx
    have hhead := List.head?_dropWhile_not p xs
    obtain ⟨rest, hrest⟩ := dropTrailing_isPrefix p (xs.dropWhile p)
    change trim p xs ++ rest = xs.dropWhile p at hrest
    cases htrim : trim p xs with
    | nil =>
        rw [htrim] at hx
        cases hx
    | cons y ys =>
        rw [htrim] at hx hrest
        cases hx
        rw [← hrest] at hhead
        simpa using hhead
  · intro x hx
    exact getLast_dropTrailing p (xs.dropWhile p) x hx

end HttpWire.Text
