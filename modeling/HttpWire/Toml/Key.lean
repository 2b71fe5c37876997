import HttpWire.Toml.Quote

/-!
# Keys

A key is a bare word or a quoted string. Keys joined by points lead through tables; `path` reads
such a path and gives the tables that it leads through apart from the key at its end.
-/

set_option autoImplicit false

namespace HttpWire.Toml

/-- A character of a bare key. -/
def isKeyChar (c : Char) : Bool :=
  c.isAlphanum || c == '-' || c == '_'

/-- Reads one key. -/
def key : Parser String
  | '"' :: rest => basic rest
  | '\'' :: rest => literal rest
  | cs =>
      let word := cs.takeWhile isKeyChar
      if word.isEmpty then none else some (String.ofList word, cs.drop word.length)

/-- Where a value or a table is to stand: the tables on the way, and the last key. -/
structure Place where
  tables : List String
  name : String
  deriving Repr, DecidableEq

/-- The keys of a place, in order. -/
def Place.keys (place : Place) : List String :=
  place.tables ++ [place.name]

/-- Reads a path with at most `more` points. Blanks may surround its keys. -/
def pathWithin (more : Nat) (cs : List Char) : Option (Place × List Char) :=
  match key (skipBlanks cs) with
  | none => none
  | some (name, rest) =>
      match skipBlanks rest, more with
      | '.' :: rest, more + 1 =>
          (pathWithin more rest).map fun (place, rest) =>
            ({ place with tables := name :: place.tables }, rest)
      | rest, _ => some (⟨[], name⟩, rest)

/-- The most keys that a path may have. -/
def maxKeys : Nat := 79

/-- Reads a path. -/
def path : Parser Place :=
  pathWithin (maxKeys - 1)

end HttpWire.Toml
