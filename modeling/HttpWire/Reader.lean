import HttpWire.Reader.Progress

/-!
# Readers

A reader turns the bytes of one direction of a connection into events. It takes what it can from
the front of a buffer and leaves the rest there for the next call. A request to forget the current
message can come at any time; it takes effect when the next call begins.

- `Reader.start` sets up a reader, `Reader.feed` and `Reader.close` read a buffer.
- `Reader.requestReset` and `Reader.declineBody` ask it to forget the current message.
-/

set_option autoImplicit false

namespace HttpWire

/-- A reader of one direction of a connection. -/
structure Reader where
  direction : Direction
  limits : Limits
  /-- A reader works within valid limits only. -/
  valid : limits.Valid
  phase : Phase := .idle
  /-- Whether the message at hand is to be forgotten when the next call begins. -/
  resetRequested : Bool := false
  deriving DecidableEq

namespace Reader

/-- What a call leaves behind: the reader, the bytes that it has not read, and its events. -/
structure Answer where
  reader : Reader
  rest : Bytes
  events : List Event
  deriving DecidableEq

/-- A new reader within the given limits, which are refused if one of them is zero. -/
def start (direction : Direction) (limits : Limits) : Except Limits.Refusal Reader :=
  match limits.check with
  | .error refusal => .error refusal
  | .ok ⟨limits, valid⟩ => .ok { direction, limits, valid }

/-- How far the body extends that is being read, if one is. -/
def bodyLength? (reader : Reader) : Option BodyLength :=
  reader.phase.bodyLength?

/-- Asks for the message at hand to be forgotten. -/
def requestReset (reader : Reader) : Reader :=
  { reader with resetRequested := true }

/-- Asks for the rest of a body to be forgotten, after its sender was told not to send it. Outside
of a body, and inside a chunk, this does nothing. -/
def declineBody (reader : Reader) : Reader :=
  if reader.phase.canDeclineBody then reader.requestReset else reader

/-- The phase in which the next call begins. -/
def currentPhase (reader : Reader) : Phase :=
  if reader.resetRequested then .idle else reader.phase

/-- Reads a buffer as far as possible. -/
def feed (reader : Reader) (buffer : Bytes) : Answer :=
  let run := reader.currentPhase.run reader.direction reader.limits buffer
  { reader := { reader with phase := run.phase, resetRequested := false }
    rest := run.rest
    events := run.events }

/-- Reads a buffer after which nothing more will come, and reports what the end of the connection
means for the message at hand. The reader is then ready for another connection. -/
def close (reader : Reader) (buffer : Bytes) : Answer :=
  let answer := reader.feed buffer
  match answer.reader.phase.atClose with
  | none => answer
  | some event =>
      { answer with
        reader := { answer.reader with phase := .idle }
        events := answer.events ++ [event] }

end Reader

end HttpWire
