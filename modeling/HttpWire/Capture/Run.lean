import HttpWire.Capture.Decoding
import HttpWire.Capture.Options

/-!
# Runs

The outer layer of the program. A run reads its arguments, then its settings, then the capture, and
hands on what they say to `decodeInput`. Where files are read is left to the caller, so that the run is
the same over a file system and over known contents.
-/

set_option autoImplicit false

namespace HttpWire.Capture

/-- The slice size of a run that sets none. -/
def defaultSliceSize : Nat := 4096

/-- A run with the given arguments, where `readFile` reads a file by its path and `readInput` reads
the standard input. The slice size is looked at first, then the settings, then the capture. -/
def run {m : Type → Type} [Monad m] (readFile : String → m (Except FileFault Bytes))
    (readInput : m (Except FileFault Bytes)) (args : List String) : m Outcome := do
  match Options.parse args with
  | none => return .misused
  | some options =>
      let direction := options.direction.getD .request
      let sliceSize := options.sliceSize.getD defaultSliceSize
      if sliceSize = 0 then return .failed "--slice-size must be positive"
      else
        let settings ← match options.settings with
          | none => pure none
          | some path => some <$> readFile path
        match options.limits settings with
        | .error refusal => return .failed refusal.message
        | .ok ⟨limits, valid⟩ =>
            match options.input with
            | none =>
                match ← readInput with
                | .error fault => return .failed fault.message
                | .ok input =>
                    return decodeInput direction options.rejectContinue limits valid sliceSize input
            | some path =>
                match ← readFile path with
                | .error fault => return .failed (path ++ ": " ++ fault.message)
                | .ok input =>
                    return decodeInput direction options.rejectContinue limits valid sliceSize input

end HttpWire.Capture
