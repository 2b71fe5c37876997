/-!
# Scanning a settings document

Settings are kept in a TOML document. Its parsers read a list of characters from the front and
answer with what they read and what is left, or with nothing if the text is not well-formed.

- `collect` repeats one step of a parser until the step says that it is done. Each step that goes on
  has to take at least one character, which is why every repetition ends.
- `lineEnd?` and `filler` read what may stand between the parts of a document.
-/

set_option autoImplicit false

namespace HttpWire.Toml

/-- A parser: what it reads from the front of a text, and the rest of the text. -/
abbrev Parser (α : Type) := List Char → Option (α × List Char)

/-! ## Repetition -/

/-- What one step of a repetition takes: some items, whether another step follows, and the rest of
the text. -/
structure Taken (α : Type) where
  items : List α
  again : Bool
  rest : List Char

namespace Taken

variable {α : Type}

/-- A step after which another one follows. -/
def more (items : List α) (rest : List Char) : Taken α :=
  ⟨items, true, rest⟩

/-- The last step. -/
def last (items : List α) (rest : List Char) : Taken α :=
  ⟨items, false, rest⟩

end Taken

/-- Repeats a step up to the last one, and joins the items of all steps. -/
def collect {α : Type} (step : List Char → Option (Taken α)) (cs : List Char) :
    Option (List α × List Char) :=
  match step cs with
  | none => none
  | some taken =>
      if taken.again then
        if _shorter : taken.rest.length < cs.length then
          (collect step taken.rest).map fun (items, rest) => (taken.items ++ items, rest)
        else none
      else some (taken.items, taken.rest)
termination_by cs.length
decreasing_by exact _shorter

/-! ## Blanks, comments and line ends -/

/-- A blank inside a line: a space or a tab. -/
def isBlank (c : Char) : Bool :=
  c == ' ' || c == '\t'

/-- A character of a comment: a tab, or any character but the ASCII controls. -/
def isCommentChar (c : Char) : Bool :=
  c == '\t' || (0x20 ≤ c.toNat && c.toNat ≠ 0x7F)

/-- The text without the blanks at its front. -/
def skipBlanks (cs : List Char) : List Char :=
  cs.dropWhile isBlank

/-- The text after a line end, which is a line feed with or without a carriage return before it. -/
def newline? : List Char → Option (List Char)
  | '\n' :: rest => some rest
  | '\r' :: '\n' :: rest => some rest
  | _ => none

/-- The text without a comment at its front. -/
def skipComment : List Char → List Char
  | '#' :: rest => rest.dropWhile isCommentChar
  | cs => cs

/-- The text of the next line, if nothing but blanks and a comment is left on this one. -/
def lineEnd? (cs : List Char) : Option (List Char) :=
  match skipComment (skipBlanks cs) with
  | [] => some []
  | rest => newline? rest

/-- One step over blanks, line ends and comments. A comment reaches to the end of its line. -/
def fillerStep (cs : List Char) : Option (Taken Unit) :=
  match skipBlanks cs with
  | '#' :: rest => (newline? (rest.dropWhile isCommentChar)).map (.more [])
  | '\n' :: rest => some (.more [] rest)
  | '\r' :: rest => (newline? ('\r' :: rest)).map (.more [])
  | rest => some (.last [] rest)

/-- The text without the blanks, line ends and comments at its front. -/
def filler (cs : List Char) : Option (List Char) :=
  (collect fillerStep cs).map Prod.snd

end HttpWire.Toml
