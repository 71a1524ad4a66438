import Ebml.Text.Unprintable

/-!
# Text

How text is shown: in the cells of a table, filled up with blanks to a width that counts characters,
and between double quotes, on one line and without anything a reader cannot see.
-/

namespace Ebml.Text

/-! ## Cells

Text that is longer than its cell stays whole. -/

def blanks (n : Nat) : String :=
  String.ofList (List.replicate n ' ')

/-- `s` at the left of a cell. -/
def alignLeft (width : Nat) (s : String) : String :=
  s ++ blanks (width - s.length)

/-- `s` at the right of a cell. -/
def alignRight (width : Nat) (s : String) : String :=
  blanks (width - s.length) ++ s

/-! ## Quotes

A quote and a backslash get a backslash, the usual control characters their letter, and other
characters that have no shape of their own or would combine with their neighbour their code point. -/

/-- A code point in lower-case hexadecimal digits between braces. -/
def codePoint (c : Char) : String :=
  "\\u\x7b" ++ String.ofList (Nat.toDigits 16 c.toNat) ++ "\x7d"

/-- One character inside quotes. -/
def escape (c : Char) : String :=
  if c = '\x00' then "\\0"
  else if c = '\t' then "\\t"
  else if c = '\r' then "\\r"
  else if c = '\n' then "\\n"
  else if c = '"' then "\\\""
  else if c = '\\' then "\\\\"
  else if 0x20 ≤ c.toNat ∧ c.toNat < 0x7f then c.toString
  else if inRanges extending c.toNat ∨ inRanges unprintable c.toNat then codePoint c
  else c.toString

/-- `s` between double quotes. -/
def quoted (s : String) : String :=
  "\"" ++ String.join (s.toList.map escape) ++ "\""

end Ebml.Text
