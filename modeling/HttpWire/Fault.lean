import HttpWire.Text.Numeral
import HttpWire.Text.Quoted

/-!
# Why a message is refused

A `Fault` is one cause for which reading of a message stops. Each constructor carries the text or
the limit that the cause is about; `Fault.message` gives its wording.
-/

set_option autoImplicit false

namespace HttpWire

/-- The part of a message that was being read when its connection closed. -/
inductive Missing where
  /-- The field lines of the head. -/
  | headers
  /-- The body, with its trailer fields. -/
  | content
  deriving Repr, DecidableEq

/-- The cause for which a message is refused. -/
inductive Fault where
  /-- A start line or a chunk-size line holds more than `limit` bytes. -/
  | lineTooLong (limit : Nat)
  /-- The header and trailer lines of a message hold more than `limit` bytes together. -/
  | headerTooLong (limit : Nat)
  /-- A chunk-size line gives no size below 2^64. -/
  | malformedChunkSize (line : String)
  /-- The connection closed inside a message. -/
  | prematureClosure (missing : Missing)
  /-- The body is chunked and chunked bodies are not accepted. -/
  | unsupportedChunked
  /-- A version without any text. -/
  | emptyVersion
  /-- A text that is not a version. -/
  | invalidVersion (text : String)
  /-- A method that holds a control character. -/
  | invalidMethod (method : String)
  /-- A status line whose second token is not a status code. -/
  | invalidStatusLine (line : String)
  /-- A declared length that is not a number below 2^64. -/
  | invalidContentLength (value : String)
  /-- A field name that is not a token. -/
  | invalidHeaderName (name : String)
  /-- A field value that holds a control character. -/
  | invalidHeaderValue (name value : String)
  deriving Repr, DecidableEq

namespace Fault

/-- The wording of a fault. -/
def message : Fault → String
  | lineTooLong limit => "an HTTP line is larger than " ++ Text.decimal limit ++ " bytes"
  | headerTooLong limit => "HTTP header is larger than " ++ Text.decimal limit ++ " bytes"
  | malformedChunkSize line => "invalid chunk size: " ++ line
  | prematureClosure .headers => "premature closure: connection closed before received headers"
  | prematureClosure .content => "premature closure: connection closed before received content"
  | unsupportedChunked => "chunked messages not supported"
  | emptyVersion => "invalid version: empty version (possibly HTTP/0.9)"
  | invalidVersion text => "invalid version: " ++ text
  | invalidMethod method => "invalid method: " ++ method
  | invalidStatusLine line => "invalid status line: " ++ line
  | invalidContentLength value => "invalid content-length: " ++ value
  | invalidHeaderName name => "invalid header name: " ++ name
  | invalidHeaderValue name value =>
      "invalid header value: " ++ name ++ ": " ++ Text.quoted value

end Fault

end HttpWire
