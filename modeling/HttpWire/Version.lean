import HttpWire.Fault

/-!
# Protocol versions

A version is written `PROTOCOL/MAJOR.MINOR`. The two versions of HTTP/1.x have values of their own;
any other protocol or number is kept as it is, in upper case and without leading zeros.

- `Version.parse` reads a version, `Version.text` writes one.
- `Version.ofParts` never builds an `other` that spells HTTP 1.0 or HTTP 1.1.
-/

set_option autoImplicit false

namespace HttpWire

/-- The version of a message. -/
inductive Version where
  /-- HTTP/1.0. -/
  | http10
  /-- HTTP/1.1. -/
  | http11
  /-- Any other protocol or number. -/
  | other (protocol : String) (major minor : Nat)
  deriving Repr, DecidableEq

namespace Version

/-- The name of the protocol. -/
def protocol : Version → String
  | http10 => "HTTP"
  | http11 => "HTTP"
  | other protocol _ _ => protocol

/-- The number before the point. -/
def major : Version → Nat
  | http10 => 1
  | http11 => 1
  | other _ major _ => major

/-- The number after the point. -/
def minor : Version → Nat
  | http10 => 0
  | http11 => 1
  | other _ _ minor => minor

/-- A version as it is written. -/
def text (v : Version) : String :=
  v.protocol ++ "/" ++ Text.decimal v.major ++ "." ++ Text.decimal v.minor

/-- Whether a connection stays open after a message of this version that says nothing about it. -/
def keepsAlive : Version → Bool
  | http10 => false
  | http11 => true
  | other _ _ _ => true

/-- The version with the given parts, in its own form if it is HTTP 1.0 or HTTP 1.1. -/
def ofParts (protocol : String) (major minor : Nat) : Version :=
  if protocol = "HTTP" ∧ major = 1 ∧ minor = 0 then http10
  else if protocol = "HTTP" ∧ major = 1 ∧ minor = 1 then http11
  else other protocol major minor

/-- A character that may not stand in the name of a protocol: an ASCII control or a space. -/
def isForbidden (c : Char) : Bool :=
  c.toNat ≤ 32 || c.toNat == 127

/-- The parts of a list before and after the first occurrence of a character. -/
def splitFirst (mark : Char) (cs : List Char) : Option (List Char × List Char) :=
  match cs.dropWhile (· != mark) with
  | [] => none
  | _ :: rest => some (cs.takeWhile (· != mark), rest)

/-- Reads the parts of a version: the protocol up to the first solidus, the major number up to the
first point after it, and the minor number. Each number is below 2^32. -/
def parts? (cs : List Char) : Option (String × Nat × Nat) := do
  let (protocol, numbers) ← splitFirst '/' cs
  let (major, minor) ← splitFirst '.' numbers
  if protocol.isEmpty || protocol.any isForbidden then none
  else
    let major ← Text.decimal? (Text.bitBound 32) major
    let minor ← Text.decimal? (Text.bitBound 32) minor
    return (String.ofList protocol, major, minor)

/-- Reads a version. White space around it is ignored and ASCII letters are taken in upper case. -/
def parse (raw : String) : Except Fault Version :=
  let cs := (Text.trim Text.isSpace raw.toList).map Char.toUpper
  -- a refusal shows the text as it was written
  if cs.isEmpty then .error .emptyVersion
  else
    match parts? cs with
    | none => .error (.invalidVersion raw)
    | some (protocol, major, minor) => .ok (ofParts protocol major minor)

/-- Assembling parts keeps all three of them. -/
theorem parts_ofParts (protocol : String) (major minor : Nat) :
    ((ofParts protocol major minor).protocol, (ofParts protocol major minor).major,
      (ofParts protocol major minor).minor) = (protocol, major, minor) := by
  unfold ofParts
  split
  · rename_i h
    simp [h, Version.protocol, Version.major, Version.minor]
  · split
    · rename_i h
      simp [h, Version.protocol, Version.major, Version.minor]
    · rfl

end Version

end HttpWire
