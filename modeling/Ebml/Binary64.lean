import Ebml.Bytes

/-!
# Floating-point numbers as bit patterns

Floating-point values are kept as the 64 bits of the interchange format, so that reading and
showing them is integer arithmetic. `Binary64.ofSingle` widens a 32-bit pattern, which loses
nothing; `Binary64.classify` takes a pattern apart.
-/

namespace Ebml

/-- The 64-bit pattern of a floating-point number. -/
structure Binary64 where
  bits : Nat
  deriving DecidableEq, Repr, Inhabited

/-- What a pattern stands for. -/
inductive FloatClass
  | nan
  | infinite
  /-- The magnitude `mantissa * 2 ^ exponent`. The number below it is half as far away as the one
  above it exactly when `narrowBelow`. -/
  | finite (mantissa : Nat) (exponent : Int) (narrowBelow : Bool)
  deriving DecidableEq, Repr

namespace Binary64

/-- Bits of the fraction. -/
abbrev fractionWidth : Nat := 52

/-- Bits of the exponent and the fraction, above which stands the sign. -/
abbrev magnitudeWidth : Nat := 63

def isNegative (x : Binary64) : Bool :=
  x.bits / 2 ^ magnitudeWidth % 2 == 1

/-- The value of a pattern without its sign: 11 bits of exponent over the fraction. -/
def classify (x : Binary64) : FloatClass :=
  let exponent : Nat := x.bits / 2 ^ fractionWidth % 2048
  let fraction : Nat := x.bits % 2 ^ fractionWidth
  if exponent = 2047 then
    if fraction = 0 then .infinite else .nan
  else if exponent = 0 then .finite fraction (-1074) false
  else
    .finite (2 ^ fractionWidth + fraction) ((exponent : Int) - 1075)
      (fraction == 0 && exponent != 1)

def isNaN (x : Binary64) : Bool :=
  x.classify == .nan

/-- The pattern with the given sign bit, exponent and fraction. -/
def ofFields (sign exponent fraction : Nat) : Binary64 :=
  ⟨sign * 2 ^ magnitudeWidth + exponent * 2 ^ fractionWidth + fraction⟩

/-! ## Single precision -/

/-- Bits of the fraction of a 32-bit pattern. -/
abbrev singleFractionWidth : Nat := 23

/-- Bits of the exponent and the fraction of a 32-bit pattern. -/
abbrev singleMagnitudeWidth : Nat := 31

/-- Bits that the fraction gains. -/
abbrev widening : Nat := fractionWidth - singleFractionWidth

/-- The fraction of a pattern that is no number. Its first bit is set; it says that using the
pattern is no error. -/
def quietFraction (fraction : Nat) : Nat :=
  2 ^ (fractionWidth - 1) + fraction % 2 ^ (singleFractionWidth - 1) * 2 ^ widening

/-- The number of a 32-bit pattern: 8 bits of exponent over the fraction. A denormal one has a
normal 64-bit pattern, found by moving its leading bit into place. -/
def ofSingle (bits : Nat) : Binary64 :=
  let sign := bits / 2 ^ singleMagnitudeWidth % 2
  let exponent := bits / 2 ^ singleFractionWidth % 256
  let fraction := bits % 2 ^ singleFractionWidth
  if exponent = 255 then ofFields sign 2047 (if fraction = 0 then 0 else quietFraction fraction)
  else if exponent ≠ 0 then ofFields sign (exponent + 896) (fraction * 2 ^ widening)
  else if fraction = 0 then ofFields sign 0 0
  else
    let top := Nat.log2 fraction
    ofFields sign (top + 874) (fraction * 2 ^ (fractionWidth - top) - 2 ^ fractionWidth)

end Binary64

end Ebml
