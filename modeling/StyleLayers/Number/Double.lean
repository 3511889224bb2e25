/-!
Finite 64-bit floating-point numbers as an exact sign, mantissa and power of two, with the one
rounding that every operation ends in: to the nearest, a tie to the even mantissa.
-/

namespace StyleLayers

/-- The number `± mantissa · 2 ^ exponent`. One built by `Double.ofRat` has `mantissa < 2 ^ 53` and
`-1074 ≤ exponent ≤ 971`, and `2 ^ 52 ≤ mantissa` unless the exponent is the least. -/
structure Double where
  negative : Bool
  mantissa : Nat
  exponent : Int
  deriving DecidableEq, Repr

namespace Double

def zero : Double := ⟨false, 0, -1074⟩

def neg (x : Double) : Double := { x with negative := !x.negative }

def isZero (x : Double) : Bool := x.mantissa == 0

def magnitude (x : Double) : Rat := (x.mantissa : Rat) * (2 : Rat) ^ x.exponent

def roundEven (q : Rat) : Int :=
  let low := q.floor
  let rest := q - low
  if rest < 1 / 2 then low
  else if 1 / 2 < rest then low + 1
  else if low % 2 = 0 then low else low + 1

def binaryScale (q : Rat) : Int :=
  let guess : Int := (q.num.natAbs.log2 : Int) - (q.den.log2 : Int)
  if q < (2 : Rat) ^ guess then guess - 1 else guess

/-- The double nearest to a number that is not negative, or `none` beyond the largest. -/
def ofRat (q : Rat) : Option Double :=
  if q ≤ 0 then some zero
  else
    let exponent := max (binaryScale q - 52) (-1074)
    let mantissa := (roundEven (q * (2 : Rat) ^ (-exponent))).toNat
    let x : Double :=
      if mantissa = Nat.pow 2 53 then ⟨false, Nat.pow 2 52, exponent + 1⟩
      else ⟨false, mantissa, exponent⟩
    if 971 < x.exponent then none else some x

end Double

end StyleLayers
