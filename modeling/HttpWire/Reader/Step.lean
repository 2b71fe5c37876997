import HttpWire.Chunked
import HttpWire.Limits
import HttpWire.Reader.Phase

/-!
# Steps of a reader

One step takes something from the front of the buffer, or finds that it needs more bytes. Each
phase has its own step; `Phase.step` joins them.
-/

set_option autoImplicit false

namespace HttpWire

open Text

/-- What a step leaves behind: the next phase, the bytes that have not been read, the events that
it reports, and whether another step can follow at once. -/
structure Step where
  phase : Phase
  rest : Bytes
  events : List Event
  again : Bool
  deriving Repr, DecidableEq

namespace Step

/-- A step after which the reader goes on. -/
def proceed (phase : Phase) (rest : Bytes) (events : List Event) : Step :=
  ⟨phase, rest, events, true⟩

/-- A step after which the reader waits for more bytes. -/
def wait (phase : Phase) (rest : Bytes) : Step :=
  ⟨phase, rest, [], false⟩

/-- A step that refuses a message. Whatever else has arrived is dropped. -/
def refuse (event : Event) : Step :=
  ⟨.refused, [], [event], false⟩

end Step

namespace Phase

/-! ## The start of a message -/

/-- Drops padding up to the first byte of a start line. -/
def stepIdle (buffer : Bytes) : Step :=
  match buffer.dropWhile isPadding with
  | [] => .wait .idle []
  | b :: rest => .proceed .startLine (b :: rest) []

/-- Reads a start line; a line that is none is dropped. -/
def stepStartLine (direction : Direction) (limits : Limits) (buffer : Bytes) : Step :=
  match Line.scan limits.line 0 buffer 0 with
  | .incomplete => .wait .startLine buffer
  | .tooLong => .refuse (.refusedHead (.placeholder direction) (.lineTooLong limits.line))
  | .found line =>
      match StartLine.read direction (line.bytes buffer) with
      | .error cause => .refuse (.refusedHead (.placeholder direction) cause)
      -- the line end may be followed by padding again
      | .ok none => .proceed .idle (buffer.drop line.next) []
      | .ok (some first) => .proceed (.header first {} {}) (buffer.drop line.next) []

/-- Why a body of the given length is not accepted, if it is not. -/
def bodyFault? (limits : Limits) : BodyLength → Option Fault
  | .chunked => if limits.chunked then none else some .unsupportedChunked
  | .empty => none
  | .fixed _ => none
  | .untilClose => none

/-- The phase and the events with which a body of the given length begins, after a header block
that was charged `charged` bytes. A body without bytes ends at once. -/
def beginBody (charged : Nat) (switches : Bool) : BodyLength → Phase × List Event
  | .empty => (afterMessage switches, [.last {}])
  | .fixed 0 => (afterMessage switches, [.last {}])
  | .fixed length => (.fixed length length switches, [])
  | .chunked => (.chunkSize ⟨charged, switches⟩, [])
  | .untilClose => (.untilClose, [])

/-- Ends a header block: the head is complete, and its body begins where the block ends. -/
def stepHead (direction : Direction) (limits : Limits) (head : Head) (charged : Nat)
    (rest : Bytes) : Step :=
  match BodyLength.select direction head with
  | .error cause => .refuse (.refusedHead head cause)
  | .ok length =>
      match bodyFault? limits length with
      | some cause => .refuse (.refusedHead head cause)
      | none =>
          let switches := decide (direction = .response) && head.switchesProtocol
          let (phase, events) := beginBody charged switches length
          .proceed phase rest (.head head :: events)

/-- Reads header lines. -/
def stepHeader (direction : Direction) (limits : Limits) (first : StartLine)
    (fields : Fields) (block : FieldBlock) (buffer : Bytes) : Step :=
  let (more, outcome) := block.read limits.header limits.strict buffer
  let head : Head := { startLine := first, fields := fields.append more }
  match outcome with
  -- the lines that were taken stay in the buffer, where the open field stands
  | .incomplete block => .wait (.header first head.fields block) buffer
  | .refused cause => .refuse (.refusedHead head cause)
  | .complete next charged => stepHead direction limits head charged (buffer.drop next)

/-! ## Bodies of known length, and bodies that end with the connection -/

/-- The body bytes that one event takes from a buffer: no more than are still to come. -/
def nextPiece (limits : Limits) (remaining : Nat) (buffer : Bytes) : Bytes :=
  buffer.take (min limits.piece remaining)

/-- Reads a piece of a body of known length. The piece that completes the body ends the
message. -/
def stepFixed (limits : Limits) (length remaining : Nat) (switches : Bool) (buffer : Bytes) :
    Step :=
  let data := nextPiece limits remaining buffer
  let rest := buffer.drop data.length
  if data.isEmpty then .wait (.fixed length remaining switches) buffer
  else if data.length = remaining then .proceed (afterMessage switches) rest [.last { data }]
  else .proceed (.fixed length (remaining - data.length) switches) rest [.body data]

/-- Reads a piece of a body that ends with the connection. -/
def stepUntilClose (limits : Limits) (buffer : Bytes) : Step :=
  let data := buffer.take limits.piece
  if data.isEmpty then .wait .untilClose buffer
  else .proceed .untilClose (buffer.drop data.length) [.body data]

/-! ## Chunked bodies -/

/-- Reads a chunk-size line. The chunk of size zero is followed by the trailer. -/
def stepChunkSize (limits : Limits) (body : ChunkedBody) (buffer : Bytes) : Step :=
  match Line.scan limits.line 0 buffer 0 with
  | .incomplete => .wait (.chunkSize body) buffer
  | .tooLong => .refuse (.refusedContent (.lineTooLong limits.line))
  | .found line =>
      match Chunked.readSize (line.bytes buffer) with
      | .error cause => .refuse (.refusedContent cause)
      | .ok 0 =>
          -- header and trailer lines are charged against one limit
          .proceed (.trailer body.switches {} { charged := body.charged })
            (buffer.drop line.next) []
      | .ok size => .proceed (.chunkData body size) (buffer.drop line.next) []

/-- Reads a piece of a chunk. -/
def stepChunkData (limits : Limits) (body : ChunkedBody) (remaining : Nat) (buffer : Bytes) :
    Step :=
  let data := nextPiece limits remaining buffer
  let rest := buffer.drop data.length
  if data.isEmpty then .wait (.chunkData body remaining) buffer
  else if data.length = remaining then .proceed (.chunkEnd body) rest [.body data]
  else .proceed (.chunkData body (remaining - data.length)) rest [.body data]

/-- Drops the rest of the line on which a chunk ends, whatever it holds. -/
def stepChunkEnd (body : ChunkedBody) (buffer : Bytes) : Step :=
  match buffer.dropWhile (· != lf) with
  | [] => .wait (.chunkEnd body) []
  | _ :: rest => .proceed (.chunkSize body) rest []

/-- The fields that a trailer keeps. -/
def keptTrailers (fields : List Field) : List Field :=
  fields.filter fun field => !Chunked.isExcluded field.name

/-- Reads trailer lines. -/
def stepTrailer (limits : Limits) (switches : Bool) (fields : Fields) (block : FieldBlock)
    (buffer : Bytes) : Step :=
  let (more, outcome) := block.read limits.header limits.strict buffer
  let trailers := fields.append (keptTrailers more)
  match outcome with
  | .incomplete block => .wait (.trailer switches trailers block) buffer
  | .refused cause => .refuse (.refusedContent cause)
  | .complete next _ =>
      .proceed (afterMessage switches) (buffer.drop next) [.last { trailers }]

/-! ## Every phase -/

/-- Passes on everything that has arrived. -/
def stepRaw (buffer : Bytes) : Step :=
  ⟨.raw, [], if buffer.isEmpty then [] else [.raw buffer], false⟩

/-- One step of a reader. -/
def step (direction : Direction) (limits : Limits) : Phase → Bytes → Step
  | idle => stepIdle
  | startLine => stepStartLine direction limits
  | header first fields block => stepHeader direction limits first fields block
  | fixed length remaining switches => stepFixed limits length remaining switches
  | untilClose => stepUntilClose limits
  | chunkSize body => stepChunkSize limits body
  | chunkData body remaining => stepChunkData limits body remaining
  | chunkEnd body => stepChunkEnd body
  | trailer switches fields block => stepTrailer limits switches fields block
  | refused => fun _ => .wait .refused []
  | raw => stepRaw

end Phase

end HttpWire
