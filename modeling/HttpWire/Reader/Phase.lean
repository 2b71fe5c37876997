import HttpWire.BodyLength
import HttpWire.Event
import HttpWire.FieldBlock

/-!
# Phases of a reader

A reader of a connection is at every moment in one phase of one message. A phase carries exactly
what the rest of the message depends on, so that nothing of a message is left once the next one
begins: the phases between messages carry nothing.
-/

set_option autoImplicit false

namespace HttpWire

/-- What the chunks of a body and its trailer depend on. -/
structure ChunkedBody where
  /-- The bytes charged to the header block, which the trailer block adds to. -/
  charged : Nat
  /-- Whether another protocol takes over after the message. -/
  switches : Bool
  deriving Repr, DecidableEq

/-- Where a reader stands in the bytes of a connection. -/
inductive Phase where
  /-- Between messages, where padding is dropped. -/
  | idle
  /-- At the start line. -/
  | startLine
  /-- In the header block, with the fields read so far. -/
  | header (startLine : StartLine) (fields : Fields) (block : FieldBlock)
  /-- In a body of `length` bytes, of which `remaining` are still to come. -/
  | fixed (length remaining : Nat) (switches : Bool)
  /-- In a body that ends with the connection. -/
  | untilClose
  /-- At a chunk-size line. -/
  | chunkSize (body : ChunkedBody)
  /-- In a chunk of which `remaining` bytes are still to come. -/
  | chunkData (body : ChunkedBody) (remaining : Nat)
  /-- After the data of a chunk, before the end of its line. -/
  | chunkEnd (body : ChunkedBody)
  /-- In the trailer block, with the trailer fields read so far. -/
  | trailer (switches : Bool) (fields : Fields) (block : FieldBlock)
  /-- After a refused message; everything is dropped. -/
  | refused
  /-- After a switch of protocol; everything is passed on. -/
  | raw
  deriving Repr, DecidableEq

namespace Phase

/-- The phase after a message that is complete. -/
def afterMessage (switches : Bool) : Phase :=
  if switches then raw else idle

/-- How far the body extends that is being read. -/
def bodyLength? : Phase → Option BodyLength
  | fixed length _ _ => some (.fixed length)
  | untilClose => some .untilClose
  | chunkSize _ => some .chunked
  | chunkData _ _ => some .chunked
  | chunkEnd _ => some .chunked
  | trailer _ _ _ => some .chunked
  | idle => none
  | startLine => none
  | header _ _ _ => none
  | refused => none
  | raw => none

/-- Whether the body that is being read can still be called off by its receiver. -/
def canDeclineBody : Phase → Bool
  | fixed _ _ _ => true
  | untilClose => true
  | chunkSize _ => true
  | _ => false

/-- What the end of a connection reports in a phase: a message that is cut short, or the end of a
body that ends with the connection. Between messages there is nothing to report. -/
def atClose : Phase → Option Event
  | header first fields _ =>
      some (.refusedHead { startLine := first, fields } (.prematureClosure .headers))
  | untilClose => some (.last {})
  | fixed _ _ _ => some (.refusedContent (.prematureClosure .content))
  | chunkSize _ => some (.refusedContent (.prematureClosure .content))
  | chunkData _ _ => some (.refusedContent (.prematureClosure .content))
  | chunkEnd _ => some (.refusedContent (.prematureClosure .content))
  | trailer _ _ _ => some (.refusedContent (.prematureClosure .content))
  | idle => none
  | startLine => none
  | refused => none
  | raw => none

end Phase

end HttpWire
