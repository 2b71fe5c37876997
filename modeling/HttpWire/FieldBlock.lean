import HttpWire.Fields
import HttpWire.Fault
import HttpWire.Line

/-!
# Field blocks

The header and the trailer of a message are blocks of field lines, closed by an empty line. A line
that starts with a space or a tab continues the field before it. A block stays in the buffer until
its last line has arrived; until then a reader remembers how far it has come and where the field
that is still open stands, so that no line is looked at twice.

- `FieldSpans`: where the name and the value of a field stand in the buffer.
- `FieldSpans.field`: the field that stands there, unfolded and, if asked for, checked.
- `FieldBlock.read`: takes all complete lines of a block.
-/

set_option autoImplicit false

namespace HttpWire

open Text

/-! ## Fields in the buffer -/

/-- A colon, which ends a field name. -/
def colon : UInt8 := 58

/-- Where the name and the value of a field stand in the buffer. -/
structure FieldSpans where
  name : Span
  value : Span
  deriving Repr, DecidableEq

namespace FieldSpans

/-- Splits a field line. The name runs from the first byte that is not blank to a colon or a
blank; the value is what follows the first colon after the name, without the blanks around it. -/
def ofLine (buffer : Bytes) (line : Line) : FieldSpans :=
  let nameStart := Span.find (!isBlank ·) buffer line.toSpan
  let nameStop := Span.find (fun b => b == colon || isBlank b) buffer ⟨nameStart, line.stop⟩
  let mark := Span.find (· == colon) buffer ⟨nameStop, line.stop⟩
  let valueStart := Span.find (!isBlank ·) buffer ⟨min (mark + 1) line.stop, line.stop⟩
  { name := ⟨nameStart, nameStop⟩
    value :=
      if valueStart = line.stop then ⟨line.stop, line.stop⟩
      else ⟨valueStart, Span.textEnd buffer line.toSpan⟩ }

/-- Extends a field by a continuation line: an empty value moves to the text of the line, any
other value grows up to the end of that text. A blank line changes neither. -/
def extend (buffer : Bytes) (spans : FieldSpans) (line : Line) : FieldSpans :=
  if spans.value.isEmpty then
    let start := Span.find (!isBlank ·) buffer line.toSpan
    if start < line.stop then
      { spans with value := ⟨start, Span.textEnd buffer line.toSpan⟩ }
    else spans
  else
    { spans with
      value := ⟨spans.value.start, Span.textEnd buffer ⟨spans.value.stop, line.stop⟩⟩ }

end FieldSpans

/-- A value on one line: every line end, with the spaces and tabs before it and the blanks after
it, becomes one space. -/
def unfold (value : Bytes) : Bytes :=
  match _rest : value.dropWhile fun b => !isLineEnd b with
  | [] => value
  | _ :: rest =>
      dropTrailing isFold (value.takeWhile fun b => !isLineEnd b)
        ++ sp :: unfold (rest.dropWhile isBlank)
termination_by value.length
decreasing_by
  have h₁ := (List.dropWhile_suffix (l := value) fun b => !isLineEnd b).length_le
  have h₂ := (List.dropWhile_suffix (l := rest) isBlank).length_le
  rw [_rest] at h₁
  simp only [List.length_cons] at h₁
  omega

/-- A control byte that may not stand in a checked value: any but the tab. -/
def isForbiddenInValue (b : UInt8) : Bool :=
  isAsciiControl b && b != ht

/-- The field of a name and a value. A strict reader refuses a name that is not a token and a
value that holds a control. -/
def Field.check (strict : Bool) (name value : Bytes) : Except Fault Field :=
  if strict && (name.isEmpty || !name.all isTokenByte) then
    .error (.invalidHeaderName (ofBytes name))
  else if strict && value.any isForbiddenInValue then
    .error (.invalidHeaderValue (ofBytes name) (ofBytes value))
  else .ok ⟨ofBytes name, ofBytes value⟩

/-- The field that stands at the given positions. -/
def FieldSpans.field (strict : Bool) (buffer : Bytes) (spans : FieldSpans) : Except Fault Field :=
  Field.check strict (spans.name.bytes buffer) (unfold (spans.value.bytes buffer))

/-! ## Blocks -/

/-- How far a block has been read. -/
structure FieldBlock where
  /-- The bytes charged so far to the header and trailer lines of the message. -/
  charged : Nat := 0
  /-- The position of the first line that has not been taken. -/
  position : Nat := 0
  /-- The field that further lines may still continue. -/
  pending : Option FieldSpans := none
  deriving Repr, DecidableEq

namespace FieldBlock

/-- What is known of a block when no further line can be taken. -/
inductive Outcome where
  /-- The block is closed; `next` is the position after it. -/
  | complete (next charged : Nat)
  /-- More lines are to come. -/
  | incomplete (block : FieldBlock)
  /-- A line or a field is refused. -/
  | refused (cause : Fault)
  deriving Repr, DecidableEq

/-- Whether a line continues the field before it. -/
def continues (buffer : Bytes) (line : Line) : Bool :=
  (line.bytes buffer).head?.any isFold

/-- Takes one line, given the field that is still open. The answer holds the field that the line
completes, and the field that is open after it, which is missing exactly when the line closes the
block. -/
def takeLine (strict : Bool) (buffer : Bytes) (pending : Option FieldSpans) (line : Line) :
    Except Fault (Option Field × Option FieldSpans) :=
  match pending with
  | none =>
      .ok (none, if line.isEmpty then none else some (.ofLine buffer line))
  | some spans =>
      -- an empty line continues nothing
      if continues buffer line then .ok (none, some (spans.extend buffer line))
      else
        match spans.field strict buffer with
        | .error cause => .error cause
        | .ok field => .ok (some field, if line.isEmpty then none else some (.ofLine buffer line))

/-- Takes every complete line of a block. The answer holds the fields that these lines complete,
in order, and what is known of the block then. -/
def read (limit : Nat) (strict : Bool) (buffer : Bytes) (block : FieldBlock) :
    List Field × Outcome :=
  match _line : Line.scan limit block.charged buffer block.position with
  | .tooLong => ([], .refused (.headerTooLong limit))
  | .incomplete => ([], .incomplete block)
  | .found line =>
      let charged := block.charged + line.length
      match takeLine strict buffer block.pending line with
      -- the fields that were completed by earlier lines are kept
      | .error cause => ([], .refused cause)
      | .ok (done, none) => (done.toList, .complete line.next charged)
      | .ok (done, some spans) =>
          let further := read limit strict buffer ⟨charged, line.next, some spans⟩
          (done.toList ++ further.1, further.2)
termination_by buffer.length - block.position
decreasing_by
  have hf := Line.scan_found _line
  omega

/-- A block that is closed ends inside the buffer, after the position it was taken up at. -/
theorem read_complete {limit : Nat} {strict : Bool} {buffer : Bytes} {block : FieldBlock}
    {next charged : Nat} (h : (read limit strict buffer block).2 = .complete next charged) :
    block.position < next ∧ next ≤ buffer.length := by
  fun_induction read limit strict buffer block with
  | case1 => simp at h
  | case2 => simp at h
  | case3 => simp at h
  | case4 block line hline =>
      have hf := Line.scan_found hline
      simp only [Outcome.complete.injEq] at h
      omega
  | case5 block line hline _ done spans htake further ih =>
      have hf := Line.scan_found hline
      have := ih h
      simp only at this
      omega

end FieldBlock

end HttpWire
