import Ebml.Binary64
import Ebml.Decimal.Shortest

/-!
# Floating-point numbers as text

Two ways to lay out the shortest decimal of a number. Plain text never uses an exponent and shows a
whole number without a point. Numbers in JSON always have a point or an exponent; the exponent
comes in from `10 ^ 16` up and below `10 ^ -5`, and what is no number has no text.
-/

namespace Ebml.Decimal

private def zeros (n : Nat) : String :=
  String.ofList (List.replicate n '0')

/-- `digits` with a point after the first `point` of them, filled up with zeros before or after. -/
def positional (digits : String) (point : Int) : String :=
  let length : Int := digits.length
  if length ≤ point then digits ++ zeros (point - length).toNat
  else if 0 < point then
    String.ofList (digits.toList.take point.toNat) ++ "." ++
      String.ofList (digits.toList.drop point.toNat)
  else "0." ++ zeros (-point).toNat ++ digits

/-- `digits` with a point after the first of them and an exponent, which always has a sign. -/
def scientific (digits : String) (point : Int) : String :=
  let mantissa := match digits.toList with
    | first :: second :: rest => String.ofList (first :: '.' :: second :: rest)
    | _ => digits
  mantissa ++ (if 0 < point then "e+" else "e") ++ toString (point - 1)

/-- A number of a JSON text. -/
def jsonLayout (digits : String) (point : Int) : String :=
  if (digits.length : Int) ≤ point ∧ point ≤ 16 then positional digits point ++ ".0"
  else if -5 < point ∧ point ≤ 16 then positional digits point
  else scientific digits point

end Ebml.Decimal

namespace Ebml.Binary64

private def sign (x : Binary64) : String :=
  if x.isNegative then "-" else ""

/-- A number as plain text. Ties between shortest decimals go up. -/
def text (x : Binary64) : String :=
  match x.classify with
  | .nan => "NaN"
  | .infinite => x.sign ++ "inf"
  | .finite mantissa exponent narrow =>
    if mantissa = 0 then x.sign ++ "0"
    else
      let d := Decimal.shortest .up mantissa exponent narrow
      let digits := toString d.digits
      x.sign ++ Decimal.positional digits (digits.length + d.exponent)

/-- A number as JSON text. Ties between shortest decimals go to the even one. -/
def jsonText? (x : Binary64) : Option String :=
  match x.classify with
  | .nan => none
  | .infinite => none
  | .finite mantissa exponent narrow =>
    if mantissa = 0 then some (x.sign ++ "0.0")
    else
      let d := Decimal.shortest .toEven mantissa exponent narrow
      let digits := toString d.digits
      some (x.sign ++ Decimal.jsonLayout digits (digits.length + d.exponent))

end Ebml.Binary64
