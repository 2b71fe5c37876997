import HttpWire.Text.Numeral
import HttpWire.Toml.Scan

/-!
# Quoted strings

Strings stand in double quotes, where a backslash begins an escape, or in single quotes, where
every character stands for itself. Three quotes begin a string that may extend over several lines.

`basic` and `literal` read a string on one line, after its first quote; `multiline` reads over a
string of either kind on several lines.
-/

set_option autoImplicit false

namespace HttpWire.Toml

/-- A character that may stand in a string: a tab, or any character but the ASCII controls. -/
def isTextChar (c : Char) : Bool :=
  isCommentChar c

/-- The character with the given code point, unless that is a surrogate or too large. -/
def scalar? (n : Nat) : Option Char :=
  if n.isValidChar then some (Char.ofNat n) else none

/-- The character that some hexadecimal digits denote. -/
def codePoint? (digits : List Char) : Option Char :=
  (Text.hexadecimal? (Text.bitBound 32) digits).bind scalar?

/-- Reads an escape, after its backslash. -/
def escape : Parser Char
  | 'b' :: rest => some (Char.ofNat 8, rest)
  | 't' :: rest => some ('\t', rest)
  | 'n' :: rest => some ('\n', rest)
  | 'f' :: rest => some (Char.ofNat 12, rest)
  | 'r' :: rest => some ('\r', rest)
  | '"' :: rest => some ('"', rest)
  | '\\' :: rest => some ('\\', rest)
  | 'u' :: rest =>
      if rest.length < 4 then none else (codePoint? (rest.take 4)).map (·, rest.drop 4)
  | 'U' :: rest =>
      if rest.length < 8 then none else (codePoint? (rest.take 8)).map (·, rest.drop 8)
  | _ => none

/-! ## Strings on one line -/

/-- One step through a string in double quotes. -/
def basicStep : List Char → Option (Taken Char)
  | '"' :: rest => some (.last [] rest)
  | '\\' :: rest => (escape rest).map fun (c, rest) => .more [c] rest
  | c :: rest => if isTextChar c then some (.more [c] rest) else none
  | [] => none

/-- Reads a string in double quotes, after the first of them. -/
def basic (cs : List Char) : Option (String × List Char) :=
  (collect basicStep cs).map fun (text, rest) => (String.ofList text, rest)

/-- One step through a string in single quotes. -/
def literalStep : List Char → Option (Taken Char)
  | '\'' :: rest => some (.last [] rest)
  | c :: rest => if isTextChar c then some (.more [c] rest) else none
  | [] => none

/-- Reads a string in single quotes, after the first of them. -/
def literal (cs : List Char) : Option (String × List Char) :=
  (collect literalStep cs).map fun (text, rest) => (String.ofList text, rest)

/-! ## Strings on several lines -/

/-- One step over the white space that an escaped line end takes with it. -/
def continuationStep (cs : List Char) : Option (Taken Unit) :=
  let rest := skipBlanks cs
  match newline? rest with
  | some after => some (.more [] after)
  | none => some (.last [] rest)

/-- The text after an escaped line end and all white space that follows it. -/
def continuation? (cs : List Char) : Option (List Char) :=
  match newline? (skipBlanks cs) with
  | none => none
  | some rest => (collect continuationStep rest).map Prod.snd

/-- One step through a string on several lines, within three of the given quotes. Up to two quotes
may stand inside the string, also right before the three that close it. -/
def multilineStep (quote : Char) (cs : List Char) : Option (Taken Unit) :=
  match cs with
  | [] => none
  | c :: rest =>
      if c == quote then
        let run := (cs.takeWhile (· == quote)).length
        if run < 3 then some (.more [] (cs.drop run))
        else if run ≤ 5 then some (.last [] (cs.drop run))
        else none
      else if c == '\\' && quote == '"' then
        match continuation? rest with
        | some after => some (.more [] after)
        | none => (escape rest).map fun (_, after) => .more [] after
      else if isTextChar c then some (.more [] rest)
      else (newline? cs).map (.more [])

/-- The text after a string on several lines, from after its first three quotes. -/
def multiline (quote : Char) (cs : List Char) : Option (List Char) :=
  (collect (multilineStep quote) cs).map Prod.snd

/-- The text after a string of any kind, which stands at the front of the text. -/
def skipString? : List Char → Option (List Char)
  | '"' :: '"' :: '"' :: rest => multiline '"' rest
  | '\'' :: '\'' :: '\'' :: rest => multiline '\'' rest
  | '"' :: rest => (basic rest).map Prod.snd
  | '\'' :: rest => (literal rest).map Prod.snd
  | _ => none

end HttpWire.Toml
