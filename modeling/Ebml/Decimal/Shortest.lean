import Ebml.Bytes

/-!
# Shortest decimals

A binary floating-point number stands for every real number that rounds to it. Among the decimals in
that interval, those with the fewest digits lie on the coarsest grid of multiples of a power of ten
that meets it at all, and on each grid only the two neighbours of the number itself need be looked
at. All arithmetic is exact.
-/

namespace Ebml

/-- A decimal `digits * 10 ^ exponent`. -/
structure Decimal where
  digits : Nat
  exponent : Int
  deriving DecidableEq, Repr, Inhabited

namespace Decimal

/-- Which neighbour wins when both are equally near. -/
inductive Tie
  | up
  | toEven
  deriving DecidableEq, Repr

/-- The reals that round to a number: `center` over `scale`, and how far the interval reaches below
and above it in the same unit. -/
structure Interval where
  center : Nat
  below : Nat
  above : Nat
  scale : Nat
  /-- Whether the ends belong to it. -/
  closed : Bool
  deriving DecidableEq, Repr

/-- The reals that round to `mantissa * 2 ^ exponent`: half the distance to each neighbour, with the
ends if the mantissa is even. -/
def Interval.ofBinary (mantissa : Nat) (exponent : Int) (narrowBelow : Bool) : Interval :=
  let unit := 2 ^ (exponent - 2).toNat
  { center := 4 * mantissa * unit
    below := (if narrowBelow then 1 else 2) * unit
    above := 2 * unit
    scale := 2 ^ (2 - exponent).toNat
    closed := mantissa % 2 = 0 }

/-- The best multiple of `10 ^ exponent` in the interval, if there is one. -/
def Interval.onGrid? (i : Interval) (tie : Tie) (exponent : Int) : Option Decimal :=
  let step := i.scale * 10 ^ exponent.toNat
  let shift := 10 ^ (-exponent).toNat
  let floor := i.center * shift / step
  let gapDown := i.center * shift % step
  let gapUp := step - gapDown
  let reaches (gap bound : Nat) : Bool := if i.closed then gap ≤ bound else gap < bound
  let down := reaches gapDown (i.below * shift)
  let up := reaches gapUp (i.above * shift)
  let preferUp :=
    gapUp < gapDown || (gapUp == gapDown && (tie == .up || floor % 2 == 1))
  if up && (!down || preferUp) then some ⟨floor + 1, exponent⟩
  else if down then some ⟨floor, exponent⟩
  else none

/-- The grids tried, coarsest first. They span the range of 64-bit numbers. -/
def grids : List Int :=
  (List.range 660).map fun (k : Nat) => 310 - (k : Int)

/-- The decimal with the fewest digits that rounds to the positive number
`mantissa * 2 ^ exponent`, the nearest of them if there are several. -/
def shortest (tie : Tie) (mantissa : Nat) (exponent : Int) (narrowBelow : Bool) : Decimal :=
  let i := Interval.ofBinary mantissa exponent narrowBelow
  (grids.findSome? (i.onGrid? tie)).getD default

end Decimal

end Ebml
