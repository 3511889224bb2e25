import StyleLayers.Number.Double

/-!
The shortest decimal that reads back as a given double: of all decimals in the interval that
rounds to the double, one with the fewest digits, and of those the nearest.
-/

namespace StyleLayers

/-- The number `digits · 10 ^ power`. -/
structure Decimal where
  digits : Nat
  power : Int
  deriving DecidableEq, Repr

namespace Decimal

def value (d : Decimal) : Rat := (d.digits : Rat) * (10 : Rat) ^ d.power

def stripped (digits : Nat) (power : Int) : Decimal :=
  if digits ≠ 0 ∧ digits % 10 = 0 then stripped (digits / 10) (power + 1) else ⟨digits, power⟩
termination_by digits

/-- Positional for decimal exponents -5 to 15 with at least one digit after the point, otherwise
one digit before the point and a signed exponent. -/
def text (d : Decimal) : String :=
  let digits := Nat.toDigits 10 d.digits
  let zeros (n : Int) := List.replicate n.toNat '0'
  let exponent := (digits.length : Int) - 1 + d.power
  String.ofList <|
    if -5 ≤ exponent ∧ exponent ≤ 15 then
      if 0 ≤ d.power then digits ++ zeros d.power ++ ['.', '0']
      else if 0 ≤ exponent then
        digits.take (exponent.toNat + 1) ++ ['.'] ++ digits.drop (exponent.toNat + 1)
      else ['0', '.'] ++ zeros (-exponent - 1) ++ digits
    else
      let fraction := digits.drop 1
      digits.take 1 ++ (if fraction.isEmpty then [] else '.' :: fraction) ++
        ['e', if 0 ≤ exponent then '+' else '-'] ++ Nat.toDigits 10 exponent.natAbs

end Decimal

namespace Double

/-- The double nearest to a decimal, or `none` beyond the largest. Where the size of the decimal
alone settles it, its value is not computed. -/
def ofDecimal (d : Decimal) : Option Double :=
  let size := (Nat.toDigits 10 d.digits).length + d.power
  if d.digits = 0 ∨ size < -400 then some zero
  else if 400 < size then none
  else ofRat d.value

/-- The gap to the next smaller double is half as wide at the least mantissa of a binade. -/
def gapBelow (x : Double) : Rat :=
  if x.mantissa = Nat.pow 2 52 ∧ -1074 < x.exponent then (2 : Rat) ^ (x.exponent - 1)
  else (2 : Rat) ^ x.exponent

/-- Whether a number lies in the interval that rounds to the magnitude of `x`: the ends count when
the mantissa is even. -/
def readsBack (x : Double) (q : Rat) : Bool :=
  let low := x.magnitude - x.gapBelow / 2
  let high := x.magnitude + (2 : Rat) ^ x.exponent / 2
  if x.mantissa % 2 = 0 then low ≤ q && q ≤ high else low < q && q < high

/-- The neighbour of `x` on the grid of multiples of `10 ^ power` that reads back as `x`; of two the
nearer, of two as near the even one. -/
def gridHit? (x : Double) (power : Int) : Option Decimal :=
  let below : Decimal := ⟨(x.magnitude * (10 : Rat) ^ (-power)).floor.toNat, power⟩
  let above : Decimal := ⟨below.digits + 1, power⟩
  match x.readsBack below.value, x.readsBack above.value with
  | true, true =>
    let down := x.magnitude - below.value
    let up := above.value - x.magnitude
    if down < up then some below
    else if up < down then some above
    else if below.digits % 2 = 0 then some below else some above
  | true, false => some below
  | false, true => some above
  | false, false => none

def decimalScale (q : Rat) : Int :=
  if 1 ≤ q then ((Nat.toDigits 10 q.floor.toNat).length : Int) - 1
  else -((Nat.toDigits 10 ((1 / q).ceil.toNat - 1)).length : Int)

/-- Searches the grids of one digit, two digits and so on; seventeen digits always suffice. -/
def shortest (x : Double) : Decimal :=
  let scale := decimalScale x.magnitude
  match (List.range 17).findSome? fun (n : Nat) => x.gridHit? (scale - n) with
  | some d => Decimal.stripped d.digits d.power
  | none => ⟨0, 0⟩

def text (x : Double) : String :=
  let digits := if x.mantissa = 0 then "0.0" else x.shortest.text
  if x.negative then "-" ++ digits else digits

end Double

end StyleLayers
