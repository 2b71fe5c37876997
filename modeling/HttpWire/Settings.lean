import HttpWire.Limits
import HttpWire.Text.Latin
import HttpWire.Toml.Document

/-!
# Limits from a settings document

A settings document sets limits by the names of its outermost keys. What it does not set keeps its
default, and keys of other names have no effect. A ceiling is set by an integer that is not
negative, a switch by a boolean.

- `Limits.ofEntries?` reads the limits off the entries of a document.
- `Limits.ofDocument` reads them off its text, `Limits.ofFile` off the bytes of a file.
-/

set_option autoImplicit false

namespace HttpWire.Limits

/-- What an entry sets a ceiling to. -/
def ceiling? : Toml.Tree → Option Nat
  | .leaf (.integer n) => if 0 ≤ n then some n.toNat else none
  | _ => none

/-- What an entry sets a switch to. -/
def switch? : Toml.Tree → Option Bool
  | .leaf (.boolean b) => some b
  | _ => none

/-- The setting of a name, or the default if it is not set. -/
def setting {α : Type} (read : Toml.Tree → Option α) (default : α) (entries : Toml.Entries)
    (name : String) : Option α :=
  match entries.lookup name with
  | none => some default
  | some tree => read tree

/-- The limits that the entries of a document set. -/
def ofEntries? (entries : Toml.Entries) : Option Limits := do
  let default : Limits := {}
  let line ← setting ceiling? default.line entries Ceiling.line.name
  let header ← setting ceiling? default.header entries Ceiling.header.name
  let piece ← setting ceiling? default.piece entries Ceiling.piece.name
  let chunked ← setting switch? default.chunked entries "chunked_supported"
  let strict ← setting switch? default.strict entries "validate_header_names"
  return { line, header, piece, chunked, strict }

/-- The limits that a settings document sets. -/
def ofDocument (text : String) : Except Refusal { limits : Limits // limits.Valid } :=
  match (Toml.Document.read text).bind ofEntries? with
  | none => .error .malformed
  | some limits => limits.check

/-- The limits that a settings file sets, given what reading it gave. -/
def ofFile (file : Except FileFault Bytes) : Except Refusal { limits : Limits // limits.Valid } :=
  match file with
  | .error fault => .error (.unreadable fault)
  | .ok bytes =>
      match String.fromUTF8? bytes.toByteArray with
      | none => .error (.unreadable .notText)
      | some text => ofDocument text

end HttpWire.Limits
