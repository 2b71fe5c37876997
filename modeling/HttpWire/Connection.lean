import HttpWire.Reader

/-!
# Connections

A connection is a reader together with the bytes that it has received and not yet read. Bytes can
be pushed in pieces of any size.
-/

set_option autoImplicit false

namespace HttpWire

/-- One direction of a connection: a reader and the bytes that wait for it. -/
structure Connection where
  reader : Reader
  buffer : Bytes := []
  deriving DecidableEq

namespace Connection

/-- A new connection within the given limits. -/
def start (direction : Direction) (limits : Limits) : Except Limits.Refusal Connection :=
  match Reader.start direction limits with
  | .error refusal => .error refusal
  | .ok reader => .ok { reader }

/-- The phase of the reader. -/
def phase (connection : Connection) : Phase :=
  connection.reader.phase

/-- The number of bytes that wait. -/
def buffered (connection : Connection) : Nat :=
  connection.buffer.length

/-- Receives bytes. -/
def push (connection : Connection) (bytes : Bytes) : Connection × List Event :=
  let answer := connection.reader.feed (connection.buffer ++ bytes)
  (⟨answer.reader, answer.rest⟩, answer.events)

/-- Learns that no more bytes will come. -/
def close (connection : Connection) : Connection × List Event :=
  let answer := connection.reader.close connection.buffer
  (⟨answer.reader, answer.rest⟩, answer.events)

/-- Asks for the message at hand to be forgotten. -/
def requestReset (connection : Connection) : Connection :=
  { connection with reader := connection.reader.requestReset }

/-- Asks for the rest of a body to be forgotten. -/
def declineBody (connection : Connection) : Connection :=
  { connection with reader := connection.reader.declineBody }

end Connection

end HttpWire
