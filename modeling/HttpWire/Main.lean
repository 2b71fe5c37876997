import HttpWire.Capture.Run

/-!
# Command line

Prints the events of a captured HTTP/1.x byte stream. The capture is read from a file or from the
standard input; what went wrong, and the number of bytes that were left, go to the standard error.
-/

set_option autoImplicit false

namespace HttpWire.Main

open Capture

/-- Whether an error has the given number, which some calls report negated. -/
def hasNumber (code number : UInt32) : Bool :=
  code == number || code == 0 - number

/-- The cause of a failed read. -/
def fileFault : IO.Error → FileFault
  | .noFileOrDirectory _ _ _ => .missing
  | .inappropriateType _ code details =>
      if hasNumber code 20 then .notDirectory
      else if hasNumber code 21 then .isDirectory
      else .other details
  | error => .other (toString error)

/-- What an action on files gives, or why it failed. -/
def attempt (action : IO Bytes) : IO (Except FileFault Bytes) := do
  try return .ok (← action)
  catch error => return .error (fileFault error)

/-- Reads a file. -/
def readFile (path : String) : IO (Except FileFault Bytes) :=
  attempt do return (← IO.FS.readBinFile path).toList

/-- Reads a stream up to its end. -/
partial def readAll (stream : IO.FS.Stream) (read : ByteArray) : IO ByteArray := do
  let piece ← stream.read 65536
  if piece.isEmpty then return read else readAll stream (read ++ piece)

/-- Reads the standard input. -/
def readInput : IO (Except FileFault Bytes) :=
  attempt do return (← readAll (← IO.getStdin) ByteArray.empty).toList

/-- What a run says on the standard error. -/
def notice : Outcome → Option String
  | .misused => some "error: the arguments are not understood"
  | .failed reason => some ("error: " ++ reason)
  | .reported _ left =>
      if left = 0 then none
      else some ("undecoded bytes left at end of input: " ++ Text.decimal left)

end HttpWire.Main

/-- Runs the command line. -/
def main (args : List String) : IO UInt32 := do
  let outcome ← HttpWire.Capture.run HttpWire.Main.readFile HttpWire.Main.readInput args
  IO.print outcome.output
  if let some text := HttpWire.Main.notice outcome then IO.eprintln text
  return outcome.exitCode.toUInt32
