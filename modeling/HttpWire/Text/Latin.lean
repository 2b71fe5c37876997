/-!
# Bytes as text

A message on the wire is a sequence of bytes. Its names, values and start line are read as
ISO 8859-1, in which every byte is the character of the same code point, so that no byte sequence
is ill-formed as text and none is lost.

- `Text.ofBytes` reads bytes as text, `Text.toBytes` writes text as bytes.
- `Text.toBytes_ofBytes` says that writing what was read gives back the same bytes.
-/

set_option autoImplicit false

namespace HttpWire

/-- A sequence of bytes as it stands on the wire. -/
abbrev Bytes := List UInt8

namespace Text

/-- The text of a byte sequence: one character for each byte, of the same code point. -/
def ofBytes (bytes : Bytes) : String :=
  String.ofList (bytes.map Char.ofUInt8)

/-- The byte sequence of a text. A character above U+00FF has no byte of its own and is reduced
modulo 256. -/
def toBytes (text : String) : Bytes :=
  text.toList.map Char.toUInt8

@[simp] theorem toList_ofBytes (bytes : Bytes) :
    (ofBytes bytes).toList = bytes.map Char.ofUInt8 := by
  simp [ofBytes]

/-- A byte is the low byte of its character. -/
theorem toUInt8_ofUInt8 (b : UInt8) : (Char.ofUInt8 b).toUInt8 = b := by
  change b.toUInt32.toUInt8 = b
  simp

/-- Writing a text that was read from bytes gives the bytes back. -/
@[simp] theorem toBytes_ofBytes (bytes : Bytes) : toBytes (ofBytes bytes) = bytes := by
  induction bytes with
  | nil => rfl
  | cons b bs ih =>
      simp only [toBytes, toList_ofBytes, List.map_map, List.map_cons, List.cons.injEq] at ih ⊢
      exact ⟨toUInt8_ofUInt8 b, ih⟩

end Text

end HttpWire
