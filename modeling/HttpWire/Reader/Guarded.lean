import HttpWire.Reader.Step

/-!
# A reader that checks every access

A reader cuts its buffer at positions that it remembers from one call to the next, although the
buffer is its owner's, who may have put other bytes there in between. This is the same reader with
every access guarded: bytes are taken only between ends that are in order and inside the buffer, a
number of bytes is passed over only if that many are there, a count is lowered by no more than it
holds, and a sum stays below the bound of machine numbers, if there is one. A guard that fails
leaves `none`.

- `Guarded.slice?`, `Guarded.after?`, `Guarded.difference?`, `Guarded.sum?`: the guards.
- `Guarded.scan?`, `Guarded.parts?`, `Guarded.ofLine?`, `Guarded.extend?`, `Guarded.field?`,
  `Guarded.read?`, `Guarded.size?`, `Guarded.piece?`: the parts of the reader.
- `Guarded.step?`: one step of the reader.
-/

set_option autoImplicit false

namespace HttpWire

instance (span : Span) (buffer : Bytes) : Decidable (span.Within buffer) :=
  inferInstanceAs (Decidable (_ ∧ _))

namespace Guarded

open Text

/-! ## Guards -/

/-- Whether a number is below the bound, if there is one. -/
def Fits (bound : Option Nat) (n : Nat) : Prop :=
  ∀ b ∈ bound, n < b

instance (bound : Option Nat) (n : Nat) : Decidable (Fits bound n) :=
  inferInstanceAs (Decidable (∀ b ∈ bound, n < b))

/-- The bytes at the positions of a span. -/
def slice? (buffer : Bytes) (span : Span) : Option Bytes :=
  if span.Within buffer then some (span.bytes buffer) else none

/-- The bytes after the first `count`. -/
def after? (buffer : Bytes) (count : Nat) : Option Bytes :=
  if count ≤ buffer.length then some (buffer.drop count) else none

/-- A count that is lowered. -/
def difference? (count less : Nat) : Option Nat :=
  if less ≤ count then some (count - less) else none

/-- A sum of machine numbers. -/
def sum? (bound : Option Nat) (a b : Nat) : Option Nat :=
  if Fits bound (a + b) then some (a + b) else none

/-! ## Searches -/

/-- The first position of a byte of the class `p`, or the end of the span if there is none. -/
def find? (bound : Option Nat) (p : UInt8 → Bool) (buffer : Bytes) (span : Span) :
    Option Nat := do
  let bytes ← slice? buffer span
  let offset := (bytes.takeWhile fun b => !p b).length
  if offset = bytes.length then some span.stop else sum? bound span.start offset

/-- The position after the last byte that is not blank, or the start of the span if all are. -/
def textEnd? (bound : Option Nat) (buffer : Bytes) (span : Span) : Option Nat := do
  let bytes ← slice? buffer span
  match (dropTrailing isBlank bytes).length with
  | 0 => some span.start
  | last + 1 => do
      let position ← sum? bound span.start last
      sum? bound position 1

/-- Looks for the line that starts at a position, which may lie beyond the buffer. -/
def scan? (bound : Option Nat) (limit charged : Nat) (buffer : Bytes) (start : Nat) :
    Option Line.Scan := do
  let tail := buffer.drop start
  let text := tail.takeWhile fun b => !isLineEnd b
  let total ← sum? bound charged text.length
  if limit < total then
    -- the charge is set to one more than the limit
    let _ ← sum? bound limit 1
    some .tooLong
  else if text.length = tail.length then some .incomplete
  else
    let stop ← sum? bound start text.length
    let next ← sum? bound stop 1
    let mark ← buffer[stop]?
    if mark = cr then
      match buffer[next]? with
      | none => some .incomplete
      | some b =>
          if b = lf then do
            let next ← sum? bound next 1
            some (.found ⟨⟨start, stop⟩, next⟩)
          else some (.found ⟨⟨start, stop⟩, next⟩)
    else some (.found ⟨⟨start, stop⟩, next⟩)

/-! ## Start lines -/

/-- The three parts of a start line. -/
def parts? (bound : Option Nat) (buffer : Bytes) (line : Line) :
    Option (Bytes × Bytes × Bytes) := do
  let firstStart ← find? bound (!isBlank ·) buffer line.toSpan
  let firstStop ← find? bound isBlank buffer ⟨firstStart, line.stop⟩
  let secondStart ← find? bound (!isBlank ·) buffer ⟨firstStop, line.stop⟩
  let secondStop ← find? bound isBlank buffer ⟨secondStart, line.stop⟩
  let restStart ← find? bound (!isBlank ·) buffer ⟨secondStop, line.stop⟩
  let textStop ← textEnd? bound buffer line.toSpan
  let first ← slice? buffer ⟨firstStart, firstStop⟩
  let second ← slice? buffer ⟨secondStart, secondStop⟩
  let rest ← slice? buffer ⟨restStart, max textStop restStart⟩
  some (first, second, rest)

/-- The start line that consists of three parts, as `StartLine.read` reads it. -/
def ofParts (direction : Direction) (line : Bytes) :
    Bytes × Bytes × Bytes → Except Fault (Option StartLine)
  | (first, second, rest) =>
      match direction with
      | .request =>
          if first.isEmpty || second.isEmpty || rest.isEmpty then .ok none
          else if (ofBytes first).toList.any isControl then .error (.invalidMethod (ofBytes first))
          else
            match Version.parse (ofBytes rest) with
            | .error cause => .error cause
            | .ok version => .ok (some (.request (ofBytes first) (ofBytes second) version))
      | .response =>
          if first.isEmpty || second.isEmpty then .ok none
          else
            match Version.parse (ofBytes first) with
            | .error cause => .error cause
            | .ok version =>
                match unsigned? (bitBound 16) (ofBytes second).toList with
                | none => .error (.invalidStatusLine (ofBytes line))
                | some code => .ok (some (.status version code (ofBytes rest)))

/-- Reads the start line of a message. -/
def startLine? (bound : Option Nat) (direction : Direction) (buffer : Bytes) (line : Line) :
    Option (Except Fault (Option StartLine)) := do
  let parts ← parts? bound buffer line
  let text ← slice? buffer line.toSpan
  some (ofParts direction text parts)

/-! ## Field blocks -/

/-- The position after the first colon, or the end of the span if there is none. -/
def afterColon? (bound : Option Nat) (buffer : Bytes) (span : Span) : Option Nat := do
  let mark ← find? bound (· == colon) buffer span
  if mark = span.stop then some span.stop else sum? bound mark 1

/-- Splits a field line. -/
def ofLine? (bound : Option Nat) (buffer : Bytes) (line : Line) : Option FieldSpans := do
  let nameStart ← find? bound (!isBlank ·) buffer line.toSpan
  let nameStop ← find? bound (fun b => b == colon || isBlank b) buffer ⟨nameStart, line.stop⟩
  let valueFrom ← afterColon? bound buffer ⟨nameStop, line.stop⟩
  let valueStart ← find? bound (!isBlank ·) buffer ⟨valueFrom, line.stop⟩
  if valueStart = line.stop then some ⟨⟨nameStart, nameStop⟩, ⟨line.stop, line.stop⟩⟩
  else
    let valueStop ← textEnd? bound buffer line.toSpan
    some ⟨⟨nameStart, nameStop⟩, ⟨valueStart, valueStop⟩⟩

/-- Extends a field by a continuation line. -/
def extend? (bound : Option Nat) (buffer : Bytes) (spans : FieldSpans) (line : Line) :
    Option FieldSpans := do
  if spans.value.isEmpty then
    let start ← find? bound (!isBlank ·) buffer line.toSpan
    if start < line.stop then
      let stop ← textEnd? bound buffer line.toSpan
      some { spans with value := ⟨start, stop⟩ }
    else some spans
  else
    let stop ← textEnd? bound buffer ⟨spans.value.stop, line.stop⟩
    some { spans with value := ⟨spans.value.start, stop⟩ }

/-- The field that stands at the given positions. -/
def field? (strict : Bool) (buffer : Bytes) (spans : FieldSpans) :
    Option (Except Fault Field) := do
  let name ← slice? buffer spans.name
  let value ← slice? buffer spans.value
  some (Field.check strict name (unfold value))

/-- Whether a line continues the field before it. -/
def continues? (buffer : Bytes) (line : Line) : Option Bool :=
  if line.isEmpty then some false else buffer[line.start]?.map isFold

/-- The field that a line opens, unless it is empty. -/
def opened? (bound : Option Nat) (buffer : Bytes) (line : Line) : Option (Option FieldSpans) :=
  if line.isEmpty then some none else (ofLine? bound buffer line).map some

/-- Takes one line, given the field that is still open. -/
def takeLine? (bound : Option Nat) (strict : Bool) (buffer : Bytes) (pending : Option FieldSpans)
    (line : Line) : Option (Except Fault (Option Field × Option FieldSpans)) := do
  -- the first byte of the line is looked at even if no field is open
  let folded ← continues? buffer line
  match pending with
  | none =>
      let opened ← opened? bound buffer line
      some (.ok (none, opened))
  | some spans =>
      if folded then
        let extended ← extend? bound buffer spans line
        some (.ok (none, some extended))
      else
        match ← field? strict buffer spans with
        | .error cause => some (.error cause)
        | .ok field =>
            let opened ← opened? bound buffer line
            some (.ok (some field, opened))

/-- A line that is found goes on behind its start, inside the buffer. -/
theorem scan?_found {bound : Option Nat} {limit charged : Nat} {buffer : Bytes} {start : Nat}
    {line : Line} (h : scan? bound limit charged buffer start = some (.found line)) :
    start < line.next ∧ line.next ≤ buffer.length := by
  have hsum : ∀ {a b n : Nat}, sum? bound a b = some n → n = a + b := by
    intro a b n hn
    unfold sum? at hn
    split at hn
    · exact (Option.some.inj hn).symm
    · cases hn
  simp only [scan?, Option.bind_eq_bind, Option.bind_eq_some_iff] at h
  obtain ⟨total, -, h⟩ := h
  split at h
  · simp [Option.bind_eq_some_iff] at h
  · split at h
    · cases h
    · simp only [Option.bind_eq_some_iff] at h
      obtain ⟨stop, hstop, next, hnext, mark, hmark, h⟩ := h
      obtain ⟨hlt, -⟩ := List.getElem?_eq_some_iff.1 hmark
      have hstop := hsum hstop
      have hnext := hsum hnext
      have hshort : ∀ {line : Line}, some (Line.Scan.found ⟨⟨start, stop⟩, next⟩) =
          some (.found line) → start < line.next ∧ line.next ≤ buffer.length := by
        rintro line ⟨⟩
        simp only
        omega
      split at h
      · split at h
        · cases h
        · rename_i b hb
          split at h
          · -- the mark has two bytes
            obtain ⟨hlt', -⟩ := List.getElem?_eq_some_iff.1 hb
            simp only [Option.bind_eq_some_iff] at h
            obtain ⟨next', hnext', ⟨⟩⟩ := h
            have hnext' := hsum hnext'
            simp only
            omega
          · exact hshort h
      · exact hshort h

/-- Takes every complete line of a block. -/
def read? (bound : Option Nat) (limit : Nat) (strict : Bool) (buffer : Bytes)
    (block : FieldBlock) : Option (List Field × FieldBlock.Outcome) :=
  match _line : scan? bound limit block.charged buffer block.position with
  | none => none
  | some .tooLong => some ([], .refused (.headerTooLong limit))
  | some .incomplete => some ([], .incomplete block)
  | some (.found line) =>
      -- the scan has computed this sum
      let charged := block.charged + line.length
      match takeLine? bound strict buffer block.pending line with
      | none => none
      | some (.error cause) => some ([], .refused cause)
      | some (.ok (done, none)) => some (done.toList, .complete line.next charged)
      | some (.ok (done, some spans)) =>
          (read? bound limit strict buffer ⟨charged, line.next, some spans⟩).map
            fun further => (done.toList ++ further.1, further.2)
termination_by buffer.length - block.position
decreasing_by
  have hline := scan?_found _line
  omega

/-! ## Bodies -/

/-- The size on a chunk-size line. -/
def size? (line : Bytes) : Option (Except Fault Nat) := do
  let digits ← after? line (line.takeWhile (· ≤ sp)).length
  let digits ← slice? digits ⟨0, (digits.takeWhile (!Chunked.endsSize ·)).length⟩
  match hexadecimal? (bitBound 64) (ofBytes digits).toList with
  | none => some (.error (.malformedChunkSize (ofBytes line)))
  | some size => some (.ok size)

/-- The next bytes of a body, `most` of them at most, and what follows them. -/
def piece? (most : Nat) (buffer : Bytes) : Option (Bytes × Bytes) := do
  let length := min buffer.length most
  let data ← slice? buffer ⟨0, length⟩
  let rest ← after? buffer length
  some (data, rest)

/-! ## Steps -/

/-- Drops padding. -/
def stepIdle? (buffer : Bytes) : Option Step :=
  let start := (buffer.takeWhile isPadding).length
  if start = buffer.length then some (.wait .idle [])
  else do
    let rest ← after? buffer start
    some (.proceed .startLine rest [])

/-- Reads a start line. -/
def stepStartLine? (bound : Option Nat) (direction : Direction) (limits : Limits)
    (buffer : Bytes) : Option Step := do
  match ← scan? bound limits.line 0 buffer 0 with
  | .incomplete => some (.wait .startLine buffer)
  | .tooLong => some (.refuse (.refusedHead (.placeholder direction) (.lineTooLong limits.line)))
  | .found line => do
      let first? ← startLine? bound direction buffer line
      let rest ← after? buffer line.next
      match first? with
      | .error cause => some (.refuse (.refusedHead (.placeholder direction) cause))
      | .ok none => some (.proceed .idle rest [])
      | .ok (some first) => some (.proceed (.header first {} {}) rest [])

/-- Reads header lines. -/
def stepHeader? (bound : Option Nat) (direction : Direction) (limits : Limits) (first : StartLine)
    (fields : Fields) (block : FieldBlock) (buffer : Bytes) : Option Step := do
  let (more, outcome) ← read? bound limits.header limits.strict buffer block
  let head : Head := { startLine := first, fields := fields.append more }
  match outcome with
  | .incomplete block => some (.wait (.header first head.fields block) buffer)
  | .refused cause => some (.refuse (.refusedHead head cause))
  | .complete next charged => do
      let rest ← after? buffer next
      some (Phase.stepHead direction limits head charged rest)

/-- Reads a piece of a body of known length. -/
def stepFixed? (limits : Limits) (length remaining : Nat) (switches : Bool) (buffer : Bytes) :
    Option Step := do
  let (data, rest) ← piece? (min limits.piece remaining) buffer
  if data.isEmpty then some (.wait (.fixed length remaining switches) buffer)
  else
    let left ← difference? remaining data.length
    if left = 0 then some (.proceed (Phase.afterMessage switches) rest [.last { data }])
    else some (.proceed (.fixed length left switches) rest [.body data])

/-- Reads a piece of a body that ends with the connection. -/
def stepUntilClose? (limits : Limits) (buffer : Bytes) : Option Step := do
  let (data, rest) ← piece? limits.piece buffer
  if data.isEmpty then some (.wait .untilClose buffer)
  else some (.proceed .untilClose rest [.body data])

/-- Reads a chunk-size line. -/
def stepChunkSize? (bound : Option Nat) (limits : Limits) (body : ChunkedBody) (buffer : Bytes) :
    Option Step := do
  match ← scan? bound limits.line 0 buffer 0 with
  | .incomplete => some (.wait (.chunkSize body) buffer)
  | .tooLong => some (.refuse (.refusedContent (.lineTooLong limits.line)))
  | .found line => do
      let text ← slice? buffer line.toSpan
      match ← size? text with
      | .error cause => some (.refuse (.refusedContent cause))
      | .ok size => do
          let rest ← after? buffer line.next
          if size = 0 then
            some (.proceed (.trailer body.switches {} { charged := body.charged }) rest [])
          else some (.proceed (.chunkData body size) rest [])

/-- Reads a piece of a chunk. -/
def stepChunkData? (limits : Limits) (body : ChunkedBody) (remaining : Nat) (buffer : Bytes) :
    Option Step := do
  let (data, rest) ← piece? (min limits.piece remaining) buffer
  if data.isEmpty then some (.wait (.chunkData body remaining) buffer)
  else
    let left ← difference? remaining data.length
    if left = 0 then some (.proceed (.chunkEnd body) rest [.body data])
    else some (.proceed (.chunkData body left) rest [.body data])

/-- Drops the rest of the line on which a chunk ends. -/
def stepChunkEnd? (bound : Option Nat) (body : ChunkedBody) (buffer : Bytes) : Option Step :=
  let position := (buffer.takeWhile (· != lf)).length
  if position = buffer.length then some (.wait (.chunkEnd body) [])
  else do
    let next ← sum? bound position 1
    let rest ← after? buffer next
    some (.proceed (.chunkSize body) rest [])

/-- Reads trailer lines. -/
def stepTrailer? (bound : Option Nat) (limits : Limits) (switches : Bool) (fields : Fields)
    (block : FieldBlock) (buffer : Bytes) : Option Step := do
  let (more, outcome) ← read? bound limits.header limits.strict buffer block
  let trailers := fields.append (Phase.keptTrailers more)
  match outcome with
  | .incomplete block => some (.wait (.trailer switches trailers block) buffer)
  | .refused cause => some (.refuse (.refusedContent cause))
  | .complete next _ => do
      let rest ← after? buffer next
      some (.proceed (Phase.afterMessage switches) rest [.last { trailers }])

/-- One step of the reader; `none` if a guard fails. -/
def step? (bound : Option Nat) (direction : Direction) (limits : Limits) :
    Phase → Bytes → Option Step
  | .idle => stepIdle?
  | .startLine => stepStartLine? bound direction limits
  | .header first fields block => stepHeader? bound direction limits first fields block
  | .fixed length remaining switches => stepFixed? limits length remaining switches
  | .untilClose => stepUntilClose? limits
  | .chunkSize body => stepChunkSize? bound limits body
  | .chunkData body remaining => stepChunkData? limits body remaining
  | .chunkEnd body => stepChunkEnd? bound body
  | .trailer switches fields block => stepTrailer? bound limits switches fields block
  -- neither of these looks at positions
  | .refused => fun _ => some (.wait .refused [])
  | .raw => fun buffer => some (Phase.stepRaw buffer)

end Guarded

end HttpWire
