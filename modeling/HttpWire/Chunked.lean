import HttpWire.Fault
import HttpWire.Text.Numeral
import HttpWire.Text.Token

/-!
# Chunked bodies

A chunked body is a sequence of chunks, each under a line that gives its size in hexadecimal, and
after the chunk of size zero a trailer of fields. `Chunked.readSize` reads the size of a chunk off
its line. `Chunked.isExcluded` names the fields that say how a message is framed; they come too
late in a trailer and are dropped there.
-/

set_option autoImplicit false

namespace HttpWire.Chunked

open Text

/-- A semicolon, which separates a chunk size from its extensions. -/
def semicolon : UInt8 := 59

/-- Whether a byte ends the digits of a chunk size. -/
def endsSize (b : UInt8) : Bool :=
  b == semicolon || isBlank b || isAsciiControl b

/-- The size on a chunk-size line: a hexadecimal number below 2^64. Spaces and controls before the
digits are ignored, and so is everything after them. -/
def readSize (line : Bytes) : Except Fault Nat :=
  let digits := (line.dropWhile (· ≤ sp)).takeWhile (!endsSize ·)
  match hexadecimal? (bitBound 64) (ofBytes digits).toList with
  | none => .error (.malformedChunkSize (ofBytes line))
  | some size => .ok size

/-- The names of the fields that do not count in a trailer. -/
def excluded : List String :=
  ["content-length", "transfer-encoding", "trailer"]

/-- Whether a field of this name is dropped from a trailer. -/
def isExcluded (name : String) : Bool :=
  excluded.any fun other => sameFold name other

end HttpWire.Chunked
