import HttpWire.Toml.Value

/-!
# Documents

A document is a sequence of lines: a pair of a path and a value, the header of a table, or the
header of an element of an array of tables. A pair belongs to the table of the last header before
it. `Document.read` reads a document and gives the entries of its outermost table, or nothing if it
is not well-formed.
-/

set_option autoImplicit false

namespace HttpWire.Toml

/-- One line of a document. -/
inductive Statement where
  /-- A value for a key. -/
  | pair (place : Place) (value : Value)
  /-- The header of a table. -/
  | table (place : Place)
  /-- The header of an element of an array of tables. -/
  | element (place : Place)

namespace Document

/-- Reads the header of an element, after its two brackets. -/
def elementHeader (cs : List Char) : Option (Statement × List Char) := do
  let (place, rest) ← path cs
  let rest ← skip? ']' rest
  let rest ← skip? ']' rest
  return (.element place, rest)

/-- Reads the header of a table, after its bracket. -/
def tableHeader (cs : List Char) : Option (Statement × List Char) := do
  let (place, rest) ← path cs
  let rest ← skip? ']' rest
  return (.table place, rest)

/-- Reads a statement. -/
def statement : Parser Statement
  | '[' :: '[' :: rest => elementHeader rest
  | '[' :: rest => tableHeader rest
  | cs => (pair (value maxDepth) cs).map fun ((place, value), rest) => (.pair place value, rest)

/-- One step through a document: a line, which may be blank or hold only a comment. -/
def lineStep (cs : List Char) : Option (Taken Statement) := do
  match skipBlanks cs with
  | [] => return .last [] []
  | c :: rest =>
      if c == '#' || c == '\n' || c == '\r' then return .more [] (← lineEnd? (c :: rest))
      else
        let (statement, rest) ← statement (c :: rest)
        return .more [statement] (← lineEnd? rest)

/-- The entries of a document so far, and the table that pairs belong to. -/
structure State where
  entries : Entries := []
  current : List String := []

/-- Takes a statement into the document. -/
def State.add (state : State) : Statement → Option State
  | .pair place value =>
      (Entries.change false (fun _ sub => Entries.insert place value sub) state.current .header
        state.entries).map fun entries => { state with entries }
  | .table place =>
      (Entries.openTable place state.entries).map fun entries => ⟨entries, place.keys⟩
  | .element place =>
      (Entries.addElement place state.entries).map fun entries => ⟨entries, place.keys⟩

/-- The text without a byte-order mark at its front. -/
def skipMark : List Char → List Char
  | c :: rest => if c.toNat = 0xFEFF then rest else c :: rest
  | [] => []

/-- The entries of the outermost table of a document. -/
def read (text : String) : Option Entries := do
  let (statements, _) ← collect lineStep (skipMark text.toList)
  let state ← statements.foldlM State.add {}
  return state.entries

end Document

end HttpWire.Toml
