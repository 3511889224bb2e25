import StyleLayers.Json.Value

/-!
Numerals of a JSON text. A whole numeral that fits 64 bits is an integer. Any other is the double
got from at most twenty leading digits, scaled by one multiplication or division with a power of
ten per 308 decimal places, each rounded.
-/

namespace StyleLayers.Json

structure Numeral where
  negative : Bool
  whole : List Char
  /-- Present when there is a decimal point. -/
  fraction : Option (List Char)
  exponent : Option Int
  deriving DecidableEq, Repr

namespace Numeral

def digitValue (c : Char) : Nat := c.toNat - '0'.toNat

def digitsValue (ds : List Char) : Nat := ds.foldl (fun n c => 10 * n + digitValue c) 0

def exponentOf : List Char → Option Int
  | '+' :: ds => if ds ≠ [] ∧ ds.all Char.isDigit then some (digitsValue ds) else none
  | '-' :: ds => if ds ≠ [] ∧ ds.all Char.isDigit then some (-(digitsValue ds : Int)) else none
  | ds => if ds ≠ [] ∧ ds.all Char.isDigit then some (digitsValue ds) else none

/-- Digits, an optional point with digits after it and an optional exponent; no zero in front of
another digit. -/
def ofUnsigned (negative : Bool) (cs : List Char) : Option Numeral :=
  let whole := cs.takeWhile Char.isDigit
  let rest := cs.dropWhile Char.isDigit
  if whole = [] ∨ (whole.head? = some '0' ∧ whole.length ≠ 1) then none
  else
    let (fraction, rest) := match rest with
      | '.' :: rest => (some (rest.takeWhile Char.isDigit), rest.dropWhile Char.isDigit)
      | rest => (none, rest)
    if fraction = some [] then none
    else match rest with
      | [] => some ⟨negative, whole, fraction, none⟩
      | e :: rest =>
        if e = 'e' ∨ e = 'E' then
          (exponentOf rest).map fun exponent => ⟨negative, whole, fraction, some exponent⟩
        else none

def ofChars : List Char → Option Numeral
  | '-' :: cs => ofUnsigned true cs
  | cs => ofUnsigned false cs

def maxWord : Nat := Nat.pow 2 64 - 1

/-- Takes digits into a 64-bit word up to the first that does not fit; also gives the digits left
over from there on. -/
def takeWord (word : Nat) : List Char → Nat × List Char
  | [] => (word, [])
  | c :: cs =>
    let next := 10 * word + digitValue c
    if maxWord < next then (word, c :: cs) else takeWord next cs

/-- Digits of the whole part that are left over count as places. Digits of the fraction count as
negative places as far as they are taken, and are dropped from the first that does not fit. -/
def word (n : Numeral) : Nat × Int :=
  let (word, left) := takeWord 0 n.whole
  let fraction := n.fraction.getD []
  let (word, dropped) := takeWord word fraction
  (word, (left.length : Int) - (fraction.length - dropped.length : Nat))

/-- The product of `x` and a power of ten, by steps of at most 308 places; `none` beyond the largest
double. -/
def scale (x : Double) (power : Int) : Option Double :=
  if 0 ≤ power then
    if power ≤ 308 then
      (Double.ofDecimal ⟨1, power⟩).bind fun ten => Double.ofRat (x.magnitude * ten.magnitude)
    else if x.isZero then some x else none
  else if -308 ≤ power then
    (Double.ofDecimal ⟨1, -power⟩).bind fun ten => Double.ofRat (x.magnitude / ten.magnitude)
  else if x.isZero then some x
  else
    (Double.ofDecimal ⟨1, 308⟩).bind fun ten =>
      (Double.ofRat (x.magnitude / ten.magnitude)).bind fun y => scale y (power + 308)
termination_by power.natAbs
decreasing_by omega

def float (n : Numeral) : Option Number :=
  let (word, places) := n.word
  (Double.ofRat word).bind fun x =>
    (scale x (places + n.exponent.getD 0)).map fun y => .float (if n.negative then y.neg else y)

def number (n : Numeral) : Option Number :=
  if n.fraction.isSome ∨ n.exponent.isSome then n.float
  else
    let value := digitsValue n.whole
    if n.negative then
      if 0 < value ∧ value ≤ Nat.pow 2 63 then some (.integer (-(value : Int))) else n.float
    else if value ≤ maxWord then some (.integer value) else n.float

end Numeral

end StyleLayers.Json
