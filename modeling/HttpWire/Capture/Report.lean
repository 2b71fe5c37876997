import HttpWire.Event

/-!
# Reports

An event is reported as one line, and the fields that come with it as one line each. No part of a
message holds a line break, so what was on the wire cannot pass for a line of its own.
-/

set_option autoImplicit false

namespace HttpWire.Capture

/-- The lines for fields, each behind the same indent. -/
def fieldLines (indent : String) (fields : Fields) : List String :=
  fields.toList.map fun field => indent ++ field.name ++ ": " ++ field.value

/-- A number of bytes. -/
def amount (data : Bytes) : String :=
  Text.decimal data.length ++ " bytes"

/-- The lines for an event. -/
def eventLines : Event → List String
  | .head head => ("head  " ++ head.startLine.text) :: fieldLines "      " head.fields
  | .body data => ["body  " ++ amount data]
  | .last ending => ("last  " ++ amount ending.data) :: fieldLines "trailer " ending.trailers
  | .failure cause (.head head) =>
      ["error " ++ cause.message ++ " (head: " ++ head.startLine.text ++ ")"]
  | .failure cause (.content _) => ["error " ++ cause.message ++ " (body)"]
  | .raw data => ["raw   " ++ amount data]

end HttpWire.Capture
