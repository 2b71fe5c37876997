import HttpWire.Proofs.Moves
import HttpWire.Proofs.Versions

/-!
# Messages as they are written

A message is written as its start line, its header fields, an empty line and its body. A chunked
body leaves the writer some freedom: leading zeros and the case of the digits of a size, extensions
after it, and what stands between the data of a chunk and the end of its line.

- `Message.write`: the bytes of a message.
- `Message.WellFormed`: the messages that can be written so that nothing of them is lost.
- `Message.Admitted`: the messages that given limits let through.
- `Message.reports`: what is to be reported of a message.
-/

set_option autoImplicit false

namespace HttpWire

open Text

/-! ## Parts of a message -/

/-- A text in which every character is one byte. -/
def Text.IsLatin (text : String) : Prop :=
  ∀ c ∈ text.toList, c.toNat < 256

/-- What is asked of the elements of a list is decided along the list, and not along their type. -/
instance (priority := 2000) Text.instDecidableForallMem {α : Type} (p : α → Prop) [DecidablePred p]
    (xs : List α) : Decidable (∀ x ∈ xs, p x) :=
  List.decidableBAll p xs

instance Text.instDecidableIsLatin (text : String) : Decidable (IsLatin text) :=
  inferInstanceAs (Decidable (∀ c ∈ text.toList, c.toNat < 256))

/-- A line with its end. -/
def endLine (text : Bytes) : Bytes :=
  text ++ [cr, lf]

/-- A version that is read as it is written. -/
structure Version.WellFormed (version : Version) : Prop where
  latin : IsLatin version.protocol
  controls : ∀ c ∈ version.protocol.toList, isControl c = false
  parses : Version.parse version.text = .ok version

/-- A start line of a direction whose parts do not run into each other. -/
def StartLine.WellFormed : Direction → StartLine → Prop
  | .request, .request method target version =>
      (IsLatin method ∧ method ≠ "" ∧ (∀ b ∈ toBytes method, isBlank b = false) ∧
        ∀ c ∈ method.toList, isControl c = false) ∧
      (IsLatin target ∧ target ≠ "" ∧ ∀ b ∈ toBytes target, isBlank b = false) ∧
      version.WellFormed
  | .response, .status version code reason =>
      version.WellFormed ∧ code < bitBound 16 ∧
      IsLatin reason ∧ (∀ b ∈ toBytes reason, isLineEnd b = false) ∧
        trim isBlank (toBytes reason) = toBytes reason
  | .request, .status _ _ _ => False
  | .response, .request _ _ _ => False

/-- A field whose name is a token, and whose value holds no control but the tab and no blanks around
it. -/
structure Field.WellFormed (field : Field) : Prop where
  latin_name : IsLatin field.name
  name_ne : field.name ≠ ""
  token : ∀ b ∈ toBytes field.name, isTokenByte b = true
  latin_value : IsLatin field.value
  controls : ∀ b ∈ toBytes field.value, isForbiddenInValue b = false
  trimmed : trim isBlank (toBytes field.value) = toBytes field.value

instance Field.instDecidableWellFormed (field : Field) : Decidable field.WellFormed :=
  decidable_of_iff
    (IsLatin field.name ∧ field.name ≠ "" ∧ (∀ b ∈ toBytes field.name, isTokenByte b = true) ∧
      IsLatin field.value ∧ (∀ b ∈ toBytes field.value, isForbiddenInValue b = false) ∧
      trim isBlank (toBytes field.value) = toBytes field.value)
    ⟨fun ⟨latin_name, name_ne, token, latin_value, controls, trimmed⟩ =>
      ⟨latin_name, name_ne, token, latin_value, controls, trimmed⟩,
    fun h => ⟨h.latin_name, h.name_ne, h.token, h.latin_value, h.controls, h.trimmed⟩⟩

/-- The line of a field, without its end. -/
def Field.line (field : Field) : Bytes :=
  toBytes field.name ++ colon :: sp :: toBytes field.value

namespace Fields

/-- The lines of fields. -/
def writeLines (fields : List Field) : Bytes :=
  fields.flatMap fun field => endLine field.line

/-- A block of fields, with the empty line that closes it. -/
def writeBlock (fields : List Field) : Bytes :=
  writeLines fields ++ endLine []

/-- The bytes in the lines of fields, their ends not counted. -/
def charge : List Field → Nat
  | [] => 0
  | field :: fields => field.line.length + charge fields

end Fields

/-! ## Bodies -/

/-- Whether bytes are the hexadecimal digits of a number, of either case and with any number of
leading zeros. -/
def IsHexadecimal (n : Nat) (digits : Bytes) : Prop :=
  ∃ zeros : Nat, digits.map (fun b => (Char.ofUInt8 b).toLower) =
    List.replicate zeros '0' ++ Nat.toDigits 16 n

/-- The line of a chunk size. -/
structure SizeLine where
  /-- The digits of the size. -/
  digits : Bytes
  /-- What stands after the digits. -/
  extension : Bytes := []
  deriving Repr, DecidableEq

namespace SizeLine

/-- The line, without its end. -/
def text (line : SizeLine) : Bytes :=
  line.digits ++ line.extension

/-- A line that gives the size `n`. -/
structure Gives (line : SizeLine) (n : Nat) : Prop where
  digits : IsHexadecimal n line.digits
  bound : n < bitBound 64
  extension : ∀ b ∈ line.extension.head?, b = Chunked.semicolon
  no_end : ∀ b ∈ line.extension, isLineEnd b = false

end SizeLine

/-- A chunk: its size, its data, and what stands between the data and the end of their line. -/
structure Chunk where
  size : SizeLine
  data : Bytes
  filler : Bytes := [cr]
  deriving Repr, DecidableEq

namespace Chunk

/-- A chunk as it is written. -/
def write (chunk : Chunk) : Bytes :=
  endLine chunk.size.text ++ chunk.data ++ chunk.filler ++ [lf]

/-- A chunk that holds data, as many bytes as its size says. -/
structure WellFormed (chunk : Chunk) : Prop where
  data_ne : chunk.data ≠ []
  size : chunk.size.Gives chunk.data.length
  filler : ∀ b ∈ chunk.filler, b ≠ lf

end Chunk

/-- The body of a message. -/
inductive Body where
  /-- Bytes that stand for themselves. -/
  | plain (data : Bytes)
  /-- Chunks, the line of the chunk of size zero, and the fields after it. -/
  | chunked (chunks : List Chunk) (last : SizeLine) (trailers : List Field)
  deriving Repr, DecidableEq

namespace Body

/-- The bytes of a body. -/
def data : Body → Bytes
  | plain data => data
  | chunked chunks _ _ => chunks.flatMap Chunk.data

/-- The fields after a body. -/
def trailers : Body → List Field
  | plain _ => []
  | chunked _ _ trailers => trailers

/-- A body as it is written. -/
def write : Body → Bytes
  | plain data => data
  | chunked chunks last trailers =>
      chunks.flatMap Chunk.write ++ endLine last.text ++ Fields.writeBlock trailers

/-- A body that is as long as its head says. -/
def WellFormed : BodyLength → Body → Prop
  | .empty, plain data => data = []
  | .fixed length, plain data => data.length = length
  | .untilClose, plain _ => True
  | .chunked, chunked chunks last trailers =>
      (∀ chunk ∈ chunks, chunk.WellFormed) ∧ last.Gives 0 ∧ ∀ field ∈ trailers, field.WellFormed
  | .chunked, plain _ => False
  | .empty, chunked _ _ _ => False
  | .fixed _, chunked _ _ _ => False
  | .untilClose, chunked _ _ _ => False

/-- The lines of a body that are read like a start line. -/
def sizeLines : Body → List SizeLine
  | plain _ => []
  | chunked chunks last _ => chunks.map Chunk.size ++ [last]

end Body

/-! ## Messages -/

/-- A message. -/
structure Message where
  startLine : StartLine
  fields : List Field
  body : Body
  deriving Repr, DecidableEq

namespace Message

/-- The head of a message. -/
def head (message : Message) : Head where
  startLine := message.startLine
  fields := ⟨message.fields⟩

/-- A message as it is written. -/
def write (message : Message) : Bytes :=
  endLine (toBytes message.startLine.text) ++ Fields.writeBlock message.fields
    ++ message.body.write

/-- What is reported of a message: its head, and its end with the whole body. -/
def reports (message : Message) : List Event :=
  [.head message.head,
    .last {
      data := message.body.data
      trailers := ⟨message.body.trailers.filter fun field => !Chunked.isExcluded field.name⟩ }]

/-- A message whose parts are well-formed, and whose body is as long as its head says. -/
structure WellFormed (direction : Direction) (message : Message) : Prop where
  startLine : message.startLine.WellFormed direction
  fields : ∀ field ∈ message.fields, field.WellFormed
  body : ∃ length, BodyLength.select direction message.head = .ok length ∧
    message.body.WellFormed length

/-- A message whose lines keep to the limits, and whose body is of a kind that is accepted. -/
structure Admitted (limits : Limits) (message : Message) : Prop where
  startLine : (toBytes message.startLine.text).length ≤ limits.line
  sizes : ∀ line ∈ message.body.sizeLines, line.text.length ≤ limits.line
  fields : Fields.charge message.fields + Fields.charge message.body.trailers ≤ limits.header
  chunked : message.body.sizeLines ≠ [] → limits.chunked = true

/-- Whether no message can follow on the same connection: the body ends with the connection, or
another protocol takes over. -/
def IsFinal (direction : Direction) (message : Message) : Prop :=
  BodyLength.select direction message.head = .ok .untilClose ∨
    message.head.handsOver direction = true

end Message

end HttpWire
