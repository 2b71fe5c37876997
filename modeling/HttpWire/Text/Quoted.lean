import HttpWire.Text.Latin

/-!
# Quoted text

A refused field value is shown in double quotes, with everything that would not be visible, and
the two characters that the quotes make special, written as an escape. A quoted text of Latin-1
characters therefore holds no control character and no line break.
-/

set_option autoImplicit false

namespace HttpWire.Text

/-- A Latin-1 character that is not shown as it stands: a control, the no-break space or the soft
hyphen. -/
def isHidden (c : Char) : Bool :=
  c.toNat < 32 || (127 ≤ c.toNat && c.toNat ≤ 160) || c.toNat == 173

/-- One character inside quotes: five have an escape of their own, the other hidden ones are
written by their code point in lower-case hexadecimal. -/
def quoteChar (c : Char) : List Char :=
  if c == Char.ofNat 0 then ['\\', '0']
  else if c == '\t' then ['\\', 't']
  else if c == '\n' then ['\\', 'n']
  else if c == '\r' then ['\\', 'r']
  else if c == '"' then ['\\', '"']
  else if c == '\\' then ['\\', '\\']
  else if isHidden c then
    ['\\', 'u', '{'] ++ Nat.toDigits 16 c.toNat ++ ['}']
  else [c]

/-- A text in double quotes. -/
def quoted (text : String) : String :=
  String.ofList ('"' :: text.toList.flatMap quoteChar ++ ['"'])

end HttpWire.Text
