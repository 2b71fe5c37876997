import HttpWire.Toml.Key

/-!
# Tables

A document defines a tree of tables. A table comes into being in one of three ways, which decide
whether it may be added to later: under a header of its own, on the way to another header, or on the
way of a path of keys.

- `Entries.insert` adds a value, `Entries.openTable` and `Entries.addElement` begin the table of a
  header. Each of them refuses what would define a thing twice.
-/

set_option autoImplicit false

namespace HttpWire.Toml

/-- The value of a key. Only integers and booleans are used as settings; of any other value it
matters only that it is well-formed. -/
inductive Value where
  | integer (n : Int)
  | boolean (b : Bool)
  | other
  deriving Repr, DecidableEq

/-- How a table came into being. -/
inductive Origin where
  /-- Under its own header; the whole document, and every element of an array of tables. -/
  | header
  /-- On the way to the header of another table. -/
  | implied
  /-- On the way of a path of keys. -/
  | dotted
  deriving Repr, DecidableEq

/-- What a key stands for. -/
inductive Tree where
  /-- A value, which is not changed any more. -/
  | leaf (value : Value)
  /-- A table. -/
  | table (origin : Origin) (entries : List (String × Tree))
  /-- An array of tables, of which only the newest can still be changed. -/
  | tables (newest : List (String × Tree))

/-- The entries of a table. -/
abbrev Entries := List (String × Tree)

namespace Entries

/-- Gives a key its meaning, in place of an earlier one if there is one. -/
def put (key : String) (tree : Tree) : Entries → Entries
  | [] => [(key, tree)]
  | (other, old) :: rest =>
      if other == key then (key, tree) :: rest else (other, old) :: put key tree rest

/-- Changes the table that a path leads to, making the tables that are missing on the way. A path of
keys does not lead into a table that has a header of its own. -/
def change (dotted : Bool) (f : Origin → Entries → Option Entries) :
    List String → Origin → Entries → Option Entries
  | [], origin, entries => f origin entries
  | key :: path, _, entries =>
      match entries.lookup key with
      | none =>
          let origin := if dotted then .dotted else .implied
          (change dotted f path origin []).map fun sub => put key (.table origin sub) entries
      | some (.leaf _) => none
      | some (.table origin sub) =>
          if dotted && origin == .header then none
          else (change dotted f path origin sub).map fun sub => put key (.table origin sub) entries
      | some (.tables newest) =>
          (change dotted f path .header newest).map fun sub => put key (.tables sub) entries

/-- Adds a value at a place below a table. The place has to be free, and a path of keys may end only
in a table that such a path has made. -/
def insert (place : Place) (value : Value) (entries : Entries) : Option Entries :=
  change true
    (fun origin sub =>
      if (origin == .dotted) == place.tables.isEmpty then none
      else
        match sub.lookup place.name with
        | some _ => none
        | none => some (put place.name (.leaf value) sub))
    place.tables .header entries

/-- Begins the table of a header. A table that was only implied so far keeps its entries. -/
def openTable (place : Place) (entries : Entries) : Option Entries :=
  change false
    (fun _ sub =>
      match sub.lookup place.name with
      | none => some (put place.name (.table .header []) sub)
      -- other tables under this one came first
      | some (.table .implied inner) => some (put place.name (.table .header inner) sub)
      | some _ => none)
    place.tables .header entries

/-- Adds an element to the array of tables of a header. -/
def addElement (place : Place) (entries : Entries) : Option Entries :=
  change false
    (fun _ sub =>
      match sub.lookup place.name with
      | none => some (put place.name (.tables []) sub)
      | some (.tables _) => some (put place.name (.tables []) sub)
      | some _ => none)
    place.tables .header entries

end Entries

end HttpWire.Toml
