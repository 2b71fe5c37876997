import HttpWire.Fields
import HttpWire.StartLine

/-!
# Message heads

The head of a message is its start line and its header fields. From these two follows what the
message says about its connection: whether it stays open, and whether the sender waits for leave to
send the body. A head that is reported together with a fault carries that fault as its `verdict`.
-/

set_option autoImplicit false

namespace HttpWire

/-- Whether a part of a message was read without fault. -/
inductive Verdict where
  | success
  | failure (cause : Fault)
  deriving Repr, DecidableEq

/-- The start line and the header fields of a message. -/
structure Head where
  startLine : StartLine
  fields : Fields := {}
  verdict : Verdict := .success
  deriving Repr, DecidableEq

namespace Head

/-- The head that is reported when no start line could be read. -/
def placeholder (direction : Direction) : Head where
  startLine := .placeholder direction

/-- Whether the connection stays open after the message: `close` in a `Connection` field decides
first, then `keep-alive`, then the version. -/
def keepsAlive (head : Head) : Bool :=
  if head.fields.lists "connection" "close" then false
  else if head.fields.lists "connection" "keep-alive" then true
  else head.startLine.version.keepsAlive

/-- Whether the head is a request whose sender waits for leave to send the body. -/
def expectsContinue (head : Head) : Bool :=
  head.startLine.isRequest && head.fields.lists "expect" "100-continue"

end Head

end HttpWire
