import HttpWire.Head

/-!
# The length of a message body

Where the body of a message ends is decided by its head alone, together with the direction of the
connection. The rules apply in this order.

1. A response to which no body can belong has none: an informational one, a 204 and a 304.
2. A body whose `Transfer-Encoding` lists `chunked` consists of chunks.
3. The first `Content-Length` declares the number of bytes.
4. The two handshakes of the early websocket drafts are followed by a key of fixed length.
5. Otherwise a request has no body, and a response extends to the end of the connection.

`BodyLength.select` combines them.
-/

set_option autoImplicit false

namespace HttpWire

/-- How far a message body extends. -/
inductive BodyLength where
  /-- There is no body. -/
  | empty
  /-- The body has this many bytes. -/
  | fixed (length : Nat)
  /-- The body is a sequence of chunks, each with its own size. -/
  | chunked
  /-- The body ends with the connection. -/
  | untilClose
  deriving Repr, DecidableEq

/-- Whether a head is the answer to a websocket handshake of draft 76: a 101 response that
upgrades to `websocket` without the acceptance key of the final protocol. -/
def Head.answersDraftHandshake (head : Head) : Bool :=
  head.startLine.code? == some 101
    && !head.fields.contains "sec-websocket-accept"
    && (head.fields.getAll "upgrade").any fun value => Text.sameFold value "websocket"

/-- Whether a response is one that never has a body. -/
def Head.isBodiless (head : Head) : Bool :=
  match head.startLine.code? with
  | none => false
  | some code =>
      if 100 ≤ code ∧ code < 200 then !head.answersDraftHandshake
      else code == 204 || code == 304

/-- Whether the body of a message is chunked. -/
def Head.isChunked (head : Head) : Bool :=
  head.fields.lists "transfer-encoding" "chunked"

/-- Whether a response hands the connection over to a protocol other than HTTP/1.x. A 101 response
does so unless its first `Upgrade` field names HTTP/1.0 or HTTP/1.1. -/
def Head.switchesProtocol (head : Head) : Bool :=
  head.startLine.code? == some 101 &&
    match head.fields.get? "upgrade" with
    | none => true
    | some value =>
        !Text.occursIn "HTTP/1.0".toList value.toList
          && !Text.occursIn "HTTP/1.1".toList value.toList

namespace BodyLength

/-- The length that a `Content-Length` value declares: a number below 2^64 in ASCII digits, with
white space around it ignored. -/
def declared (value : String) : Except Fault Nat :=
  match Text.decimal? (Text.bitBound 64) (Text.trim Text.isSpace value.toList) with
  | none => .error (.invalidContentLength value)
  | some length => .ok length

/-- The length of the key that follows a draft websocket handshake. -/
def handshakeKey? (head : Head) : Option Nat :=
  match head.startLine with
  | .request method _ _ =>
      if method == "GET" && head.fields.contains "sec-websocket-key1"
          && head.fields.contains "sec-websocket-key2" then some 8
      else none
  | .status _ _ _ => if head.answersDraftHandshake then some 16 else none

/-- The number of body bytes that a head announces, if it announces one. -/
def announced (head : Head) : Except Fault (Option Nat) :=
  match head.fields.get? "content-length" with
  | some value => (declared value).map some
  | none => .ok (handshakeKey? head)

/-- How far the body of a message with this head extends. -/
def select (direction : Direction) (head : Head) : Except Fault BodyLength :=
  -- the status decides before any field is looked at
  if direction = .response ∧ head.isBodiless = true then .ok .empty
  else if head.isChunked then .ok .chunked
  else
    match announced head with
    | .error fault => .error fault
    | .ok (some length) => .ok (.fixed length)
    | .ok none =>
        match direction with
        | .request => .ok .empty
        | .response => .ok .untilClose

end BodyLength

end HttpWire
