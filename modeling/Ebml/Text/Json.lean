import Ebml.Decimal.Layout
import Ebml.Bytes

/-!
# JSON

Values of JSON and their text on one line, without blanks between the tokens. The members of an
object keep their order.
-/

namespace Ebml.Text

/-- A value of JSON. There are no arrays. -/
inductive Json
  | bool (b : Bool)
  | integer (n : Int)
  /-- A number, or `null` for what is no number or infinite. -/
  | float (x : Binary64)
  | text (s : String)
  | object (members : List (String × Json))

namespace Json

/-- One character inside quotes: a quote, a backslash and the control characters of ASCII are
escaped, all others stand for themselves. -/
def escape (c : Char) : String :=
  if c = '"' then "\\\""
  else if c = '\\' then "\\\\"
  else if c = '\x08' then "\\b"
  else if c = '\x0c' then "\\f"
  else if c = '\n' then "\\n"
  else if c = '\r' then "\\r"
  else if c = '\t' then "\\t"
  else if c.toNat < 0x20 then "\\u00" ++ String.ofList (hexByte c.toNat.toUInt8)
  else c.toString

/-- `s` between double quotes. -/
def quote (s : String) : String :=
  "\"" ++ String.join (s.toList.map escape) ++ "\""

mutual

def render : Json → String
  | bool true => "true"
  | bool false => "false"
  | integer n => toString n
  | float x => x.jsonText?.getD "null"
  | text s => quote s
  | object members => "\x7b" ++ ",".intercalate (renderMembers members) ++ "\x7d"

/-- The members of an object. -/
def renderMembers : List (String × Json) → List String
  | [] => []
  | (key, value) :: rest => (quote key ++ ":" ++ render value) :: renderMembers rest

end

end Json

end Ebml.Text
