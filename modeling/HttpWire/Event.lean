import HttpWire.Head

/-!
# Events of a connection

A reader reports what it has read as a sequence of events. A message is its head, then its body in
any number of pieces, then the end of the body; a fault takes the place of whatever is still
missing. After a response that switched to another protocol all further bytes are passed on raw.
-/

set_option autoImplicit false

namespace HttpWire

/-- The end of a message body: its last bytes and the fields that followed it. -/
structure Ending where
  data : Bytes := []
  trailers : Fields := {}
  verdict : Verdict := .success
  deriving Repr, DecidableEq

/-- Whether an ending carries neither bytes nor fields. -/
def Ending.isEmpty (ending : Ending) : Bool :=
  ending.data.isEmpty && ending.trailers.isEmpty

/-- The part of a message that a fault spoiled. -/
inductive Spoiled where
  /-- The head, as far as it was read. -/
  | head (head : Head)
  /-- The body. -/
  | content (ending : Ending)
  deriving Repr, DecidableEq

/-- What a reader reports. -/
inductive Event where
  /-- A message has begun, and this is its head. -/
  | head (head : Head)
  /-- A piece of the body, more of which follows. -/
  | body (data : Bytes)
  /-- The message is complete. -/
  | last (ending : Ending)
  /-- The message is refused. -/
  | failure (cause : Fault) (spoiled : Spoiled)
  /-- Bytes of another protocol. -/
  | raw (data : Bytes)
  deriving Repr, DecidableEq

namespace Event

/-- The event for a head that is refused. -/
def refusedHead (head : Head) (cause : Fault) : Event :=
  .failure cause (.head { head with verdict := .failure cause })

/-- The event for a body that is refused. -/
def refusedContent (cause : Fault) : Event :=
  .failure cause (.content { verdict := .failure cause })

end Event

end HttpWire
