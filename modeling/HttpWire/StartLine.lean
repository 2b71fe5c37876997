import HttpWire.Version

/-!
# Start lines

Connections carry requests in one direction and responses in the other; which of the two a start
line is read as depends on the direction alone. The parts of a start line are separated by blanks.
A request line has a method, a target and a version, which takes the rest of the line; a status line
has a version, a status code and a reason, which takes the rest and may be empty. A line with fewer
parts is no start line at all and is passed over.

- `StartLine.read` reads a line, `StartLine.text` writes one.
-/

set_option autoImplicit false

namespace HttpWire

open Text

/-- What a connection carries in the direction that is read. -/
inductive Direction where
  | request
  | response
  deriving Repr, DecidableEq

/-- The first line of a message. -/
inductive StartLine where
  /-- A request line. -/
  | request (method target : String) (version : Version)
  /-- A status line; the reason may be empty. -/
  | status (version : Version) (code : Nat) (reason : String)
  deriving Repr, DecidableEq

namespace StartLine

/-- The version that the start line names. -/
def version : StartLine → Version
  | request _ _ version => version
  | status version _ _ => version

/-- The status code of a response. -/
def code? : StartLine → Option Nat
  | request _ _ _ => none
  | status _ code _ => some code

/-- Whether the line begins a request. -/
def isRequest : StartLine → Bool
  | request _ _ _ => true
  | status _ _ _ => false

/-- The line that stands for a start line that could not be read. -/
def placeholder : Direction → StartLine
  | .request => .request "GET" "/bad-request" .http10
  | .response => .status .http10 999 "Unknown"

/-- A start line as text, its parts separated by single spaces. -/
def text : StartLine → String
  | request method target version => method ++ " " ++ target ++ " " ++ version.text
  | status version code reason => version.text ++ " " ++ Text.decimal code ++ " " ++ reason

/-- The first word of a line, and what follows it. -/
def word (line : Bytes) : Bytes × Bytes :=
  let text := line.dropWhile isBlank
  (text.takeWhile (!isBlank ·), text.dropWhile (!isBlank ·))

/-- The three parts of a line: two words, and the rest without the blanks around it. -/
def parts (line : Bytes) : Bytes × Bytes × Bytes :=
  let (first, rest) := word line
  let (second, rest) := word rest
  (first, second, trim isBlank rest)

/-- Reads a request line; a line with fewer than three parts gives nothing. -/
def readRequest (line : Bytes) : Except Fault (Option StartLine) :=
  let (method, target, version) := parts line
  if method.isEmpty || target.isEmpty || version.isEmpty then .ok none
  else if (ofBytes method).toList.any isControl then .error (.invalidMethod (ofBytes method))
  else
    match Version.parse (ofBytes version) with
    | .error cause => .error cause
    | .ok version => .ok (some (.request (ofBytes method) (ofBytes target) version))

/-- Reads a status line; a line with fewer than two parts gives nothing. The status code is a
number below 2^16, and a plus sign may stand before it. -/
def readStatus (line : Bytes) : Except Fault (Option StartLine) :=
  let (version, code, reason) := parts line
  if version.isEmpty || code.isEmpty then .ok none
  else
    match Version.parse (ofBytes version) with
    | .error cause => .error cause
    | .ok version =>
        match unsigned? (bitBound 16) (ofBytes code).toList with
        | none => .error (.invalidStatusLine (ofBytes line))
        | some code => .ok (some (.status version code (ofBytes reason)))

/-- Reads the start line of a message. -/
def read : Direction → Bytes → Except Fault (Option StartLine)
  | .request => readRequest
  | .response => readStatus

end StartLine

end HttpWire
