import HttpWire.Capture.Report
import HttpWire.Connection

/-!
# Decoding a capture

A captured byte stream is pushed into a connection, slice by slice, and then the connection is closed.
If asked to, the run declines each body whose sender waits for leave to send it. How the limits and the
other options were given plays no part in it.

- `slices` cuts a capture into slices; `decode` is the run over slices within valid limits.
- `Outcome`: how a run ends, and what it prints; `decodeInput` is the run over a capture.
-/

set_option autoImplicit false

namespace HttpWire.Capture

/-- Consecutive slices of a byte sequence, each of the given size but for a shorter last one. The
size is positive; zero counts as one. -/
def slices (size : Nat) (bytes : Bytes) : List Bytes :=
  match bytes with
  | [] => []
  | b :: rest => (b :: rest.take (size - 1)) :: slices size (rest.drop (size - 1))
termination_by bytes.length
decreasing_by
  simp only [List.length_drop, List.length_cons]
  omega

/-- Whether an event is the head of a message whose sender waits for leave to send the body. -/
def asksLeave : Event → Bool
  | .head head => head.expectsContinue
  | _ => false

/-- Pushes a slice into a connection. If bodies are declined, a head that asks for leave declines
the body at hand. -/
def pushSlice (declines : Bool) (connection : Connection) (slice : Bytes) :
    Connection × List Event :=
  let (connection, events) := connection.push slice
  (if declines && events.any asksLeave then connection.declineBody else connection, events)

/-- Pushes slices one after the other. -/
def pushSlices (declines : Bool) (connection : Connection) :
    List Bytes → Connection × List Event
  | [] => (connection, [])
  | slice :: rest =>
      let (connection, events) := pushSlice declines connection slice
      let (connection, more) := pushSlices declines connection rest
      (connection, events ++ more)

/-- The events of a capture, and the number of bytes that are left at its end. -/
def decode (declines : Bool) (connection : Connection) (slices : List Bytes) :
    List Event × Nat :=
  let (connection, events) := pushSlices declines connection slices
  let (connection, last) := connection.close
  (events ++ last, connection.buffered)

/-- How a run ends. -/
inductive Outcome where
  /-- The arguments are not understood. -/
  | misused
  /-- The run is given up, for the stated reason. -/
  | failed (reason : String)
  /-- The events of the capture, and the number of bytes that are left at its end. -/
  | reported (events : List Event) (left : Nat)
  deriving DecidableEq

namespace Outcome

/-- The exit code of a run. -/
def exitCode : Outcome → Nat
  | misused => 2
  | failed _ => 1
  | reported _ _ => 0

/-- The lines that a run prints. -/
def lines : Outcome → List String
  | misused => []
  | failed _ => []
  | reported events _ => events.flatMap eventLines

/-- What a run prints: its lines, each followed by a line feed. -/
def output (outcome : Outcome) : String :=
  String.join (outcome.lines.map (· ++ "\n"))

end Outcome

/-- The run over a capture that has been read. -/
def decodeInput (direction : Direction) (declines : Bool) (limits : Limits) (valid : limits.Valid)
    (sliceSize : Nat) (input : Bytes) : Outcome :=
  let reader : Reader := { direction, limits, valid }
  let (events, left) := decode declines { reader } (slices sliceSize input)
  .reported events left

end HttpWire.Capture
