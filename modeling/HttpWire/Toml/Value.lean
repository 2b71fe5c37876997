import HttpWire.Toml.Moment
import HttpWire.Toml.Number
import HttpWire.Toml.Tree

/-!
# Values

A value is a scalar, an array or an inline table. Arrays may extend over several lines and end on a
comma; inline tables may do neither. `value` reads one, with a bound on how deep arrays and inline
tables stand inside each other.
-/

set_option autoImplicit false

namespace HttpWire.Toml

/-- Reads a boolean or a number, or reads over a string, a date or a time. -/
def scalar (cs : List Char) : Option (Value × List Char) :=
  match cs with
  | 't' :: 'r' :: 'u' :: 'e' :: rest => some (.boolean true, rest)
  | 'f' :: 'a' :: 'l' :: 's' :: 'e' :: rest => some (.boolean false, rest)
  | _ =>
      match skipString? cs with
      | some rest => some (.other, rest)
      | none =>
          match skipMoment? cs with
          | some rest => some (.other, rest)
          | none =>
              match number cs with
              | some (.integer n, rest) => some (.integer n, rest)
              | some (.float, rest) => some (.other, rest)
              | none => none

/-- One step through an array, after its bracket or a comma. -/
def arrayStep (element : Parser Value) (cs : List Char) : Option (Taken Unit) := do
  match ← filler cs with
  -- an array may be empty, and may end on a comma
  | ']' :: rest => return .last [] rest
  | cs =>
      let (_, rest) ← element cs
      match ← filler rest with
      | ']' :: rest => return .last [] rest
      | ',' :: rest => return .more [] rest
      | _ => none

/-- Reads over an array, after its bracket. -/
def array (element : Parser Value) (cs : List Char) : Option (Value × List Char) :=
  (collect (arrayStep element) cs).map fun (_, rest) => (.other, rest)

/-- Reads a path, an equals sign and a value. -/
def pair (element : Parser Value) (cs : List Char) :
    Option ((Place × Value) × List Char) := do
  let (place, rest) ← path cs
  let rest ← skip? '=' rest
  let (value, rest) ← element (skipBlanks rest)
  return ((place, value), rest)

/-- One step through an inline table, after its brace or a comma. -/
def inlineStep (element : Parser Value) (cs : List Char) :
    Option (Taken (Place × Value)) := do
  let (entry, rest) ← pair element cs
  match skipBlanks rest with
  | ',' :: rest => return .more [entry] rest
  | '}' :: rest => return .last [entry] rest
  | _ => none

/-- Reads over an inline table, after its brace. Its keys are held to the rules of tables. -/
def inlineTable (element : Parser Value) (cs : List Char) : Option (Value × List Char) := do
  match skipBlanks cs with
  | '}' :: rest => return (.other, rest)
  | cs =>
      let (pairs, rest) ← collect (inlineStep element) cs
      let _ ← pairs.foldlM (fun entries (place, value) => Entries.insert place value entries) []
      return (.other, rest)

/-- Reads a value in which arrays and inline tables stand at most `depth` deep. -/
def value (depth : Nat) (cs : List Char) : Option (Value × List Char) :=
  match depth with
  | 0 => scalar cs
  | depth + 1 =>
      match cs with
      | '[' :: rest => array (value depth) rest
      | '{' :: rest => inlineTable (value depth) rest
      | cs => scalar cs

/-- How deep arrays and inline tables may stand inside each other. -/
def maxDepth : Nat := 79

end HttpWire.Toml
