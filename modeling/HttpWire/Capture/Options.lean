import HttpWire.Settings
import HttpWire.StartLine

/-!
# Options of a run

A run is given its options as a list of arguments. An option begins with two hyphens; its value
follows an equals sign or is the next argument. One argument that is no option names the capture,
and after `--` that is all that an argument can do. Each option can be given once. A request for help
is not told apart from misuse: neither leads to a run.

- `Options.parse` reads the arguments, and refuses all that do not follow these rules.
- `Options.limits` applies the options to the limits of a settings file.
-/

set_option autoImplicit false

namespace HttpWire.Capture

/-- The options of a run, as far as they are given. -/
structure Options where
  /-- The file that holds the capture. -/
  input : Option String := none
  direction : Option Direction := none
  /-- The file that holds the settings. -/
  settings : Option String := none
  /-- The number of bytes to push at once. -/
  sliceSize : Option Nat := none
  line : Option Nat := none
  header : Option Nat := none
  piece : Option Nat := none
  /-- Whether chunked bodies are refused. -/
  noChunked : Bool := false
  /-- Whether fields go unchecked. -/
  lenient : Bool := false
  /-- Whether every body is declined whose sender waits for leave to send it. -/
  rejectContinue : Bool := false
  deriving Repr, DecidableEq

namespace Options

/-! ## Single options -/

/-- Gives a field its value, unless it has one. -/
def setOnce {α : Type} (current : Option α) (value : Option α) : Option (Option α) :=
  match current, value with
  | none, some value => some (some value)
  | _, _ => none

/-- A path, which is not empty. -/
def path? (value : String) : Option String :=
  if value.isEmpty then none else some value

/-- A direction by its name. -/
def direction? : String → Option Direction
  | "request" => some .request
  | "response" => some .response
  | _ => none

/-- A size below 2^64. -/
def size? (value : String) : Option Nat :=
  Text.unsigned? (Text.bitBound 64) value.toList

/-- Names the capture. -/
def setInput (options : Options) (value : String) : Option Options :=
  (setOnce options.input (path? value)).map ({ options with input := · })

/-- Sets the option of a name to a value; nothing if there is no such option, if it is set already
or if the value does not suit it. -/
def setValue (options : Options) (name value : String) : Option Options :=
  match name with
  | "direction" =>
      (setOnce options.direction (direction? value)).map ({ options with direction := · })
  | "config" => (setOnce options.settings (path? value)).map ({ options with settings := · })
  | "slice-size" =>
      (setOnce options.sliceSize (size? value)).map ({ options with sliceSize := · })
  | "max-initial-line-length" =>
      (setOnce options.line (size? value)).map ({ options with line := · })
  | "max-header-size" => (setOnce options.header (size? value)).map ({ options with header := · })
  | "max-chunk-size" => (setOnce options.piece (size? value)).map ({ options with piece := · })
  | _ => none

/-- Sets a switch by its name; nothing if there is no such switch or if it is set already. -/
def setSwitch (options : Options) (name : String) : Option Options :=
  match name with
  | "no-chunked" => if options.noChunked then none else some { options with noChunked := true }
  | "lenient-headers" => if options.lenient then none else some { options with lenient := true }
  | "reject-continue" =>
      if options.rejectContinue then none else some { options with rejectContinue := true }
  | _ => none

/-- Whether an option of this name takes no value. -/
def isSwitch (name : String) : Bool :=
  name ∈ ["no-chunked", "lenient-headers", "reject-continue"]

/-! ## Arguments -/

/-- What an argument is by its form. -/
inductive Argument where
  /-- The mark after which no argument is an option. -/
  | endOfOptions
  /-- An option, with the value that follows its equals sign. -/
  | option (name : String) (value : Option String)
  /-- Anything else that begins with a hyphen. -/
  | stray
  /-- An argument that is no option; a single hyphen is one. -/
  | plain (text : String)
  deriving Repr, DecidableEq

/-- The form of an argument. -/
def Argument.of (text : String) : Argument :=
  match text.toList with
  | ['-', '-'] => .endOfOptions
  | '-' :: '-' :: rest =>
      match rest.dropWhile (· != '=') with
      | [] => .option (String.ofList rest) none
      | _ :: value =>
          .option (String.ofList (rest.takeWhile (· != '='))) (some (String.ofList value))
  | '-' :: _ :: _ => .stray
  | _ => .plain text

/-- Reads the arguments that stand after the end of the options. -/
def parsePlain (options : Options) (args : List String) : Option Options :=
  args.foldlM setInput options

/-- Reads arguments into options. -/
def parseFrom (options : Options) : List String → Option Options
  | [] => some options
  | arg :: rest =>
      match Argument.of arg with
      | .endOfOptions => parsePlain options rest
      | .stray => none
      | .plain text =>
          match options.setInput text with
          | none => none
          | some options => parseFrom options rest
      | .option name (some value) =>
          match options.setValue name value with
          | none => none
          | some options => parseFrom options rest
      | .option name none =>
          -- without an equals sign the value is the next argument, if it looks like one
          if isSwitch name then
            match options.setSwitch name with
            | none => none
            | some options => parseFrom options rest
          else
            match rest with
            | [] => none
            | value :: rest =>
                match Argument.of value with
                | .plain value =>
                    match options.setValue name value with
                    | none => none
                    | some options => parseFrom options rest
                | _ => none

/-- Reads the arguments of a run. -/
def parse (args : List String) : Option Options :=
  parseFrom {} args

/-! ## Limits -/

/-- The limits with those replaced that are given as options. -/
def override (options : Options) (limits : Limits) : Limits where
  line := options.line.getD limits.line
  header := options.header.getD limits.header
  piece := options.piece.getD limits.piece
  chunked := limits.chunked && !options.noChunked
  strict := limits.strict && !options.lenient

/-- The limits of a run, given what reading its settings file gave if it has one. The limits of the
file have to be valid by themselves. -/
def limits (options : Options) (file : Option (Except FileFault Bytes)) :
    Except Limits.Refusal { limits : Limits // limits.Valid } :=
  match file.map Limits.ofFile with
  | none => (options.override {}).check
  | some (.error refusal) => .error refusal
  | some (.ok limits) => (options.override limits).check

end Options

end HttpWire.Capture
