import StyleLayers.Json.Value
import StyleLayers.Yaml.Node

/-!
What a scalar stands for. A plain scalar without a tag is null, a truth value, a number or a string,
by its spelling; a tag of the core schema asks for one of these.
-/

namespace StyleLayers.Yaml.Schema

def isNull (s : String) : Bool := s ∈ ["null", "Null", "NULL", "~"]

def bool? (s : String) : Option Bool :=
  if s ∈ ["true", "True", "TRUE"] then some true
  else if s ∈ ["false", "False", "FALSE"] then some false
  else none

def digitIn (base : Nat) (c : Char) : Option Nat := (hexValue c).filter (· < base)

def digits? (base : Nat) (cs : List Char) : Option Nat :=
  if cs = [] then none
  else cs.foldlM (fun n c => (digitIn base c).map (base * n + ·)) 0

def based? : List Char → Option Nat
  | '0' :: 'x' :: cs => digits? 16 cs
  | '0' :: 'o' :: cs => digits? 8 cs
  | '0' :: 'b' :: cs => digits? 2 cs
  | cs => digits? 10 cs

def withoutSign : List Char → List Char
  | '+' :: cs => cs
  | '-' :: cs => cs
  | cs => cs

/-- More than one digit with a zero in front; such a text is a string. -/
def isPaddedDigits (cs : List Char) : Bool :=
  let ds := withoutSign cs
  1 < ds.length && ds.head? == some '0' && ds.all Char.isDigit

def int? (cs : List Char) : Option Int :=
  if isPaddedDigits cs then none
  else match cs with
    | '-' :: rest => (based? rest).map fun n => -(n : Int)
    | '+' :: rest => (based? rest).map fun n => (n : Int)
    | rest => (based? rest).map fun n => (n : Int)

/-- A whole number as a value. One beyond 64 bits fails, unless it is beyond 128 bits; then it is
not read as a whole number. -/
def intValue? (cs : List Char) : Option (Option Value) :=
  match int? cs with
  | none => none
  | some n =>
    if -Int.pow 2 63 ≤ n ∧ n < Int.pow 2 64 then some (some (.number (.integer n)))
    else if -Int.pow 2 127 ≤ n ∧ n < Int.pow 2 128 then some none
    else none

def isInfinity (cs : List Char) : Bool := cs ∈ [".inf".toList, ".Inf".toList, ".INF".toList]

def isNan (cs : List Char) : Bool := cs ∈ [".nan".toList, ".NaN".toList, ".NAN".toList]

def exponent? : List Char → Option Int
  | '+' :: ds => (digits? 10 ds).map fun n => (n : Int)
  | '-' :: ds => (digits? 10 ds).map fun n => -(n : Int)
  | ds => (digits? 10 ds).map fun n => (n : Int)

def decimal? (cs : List Char) : Option Decimal :=
  let whole := cs.takeWhile Char.isDigit
  let rest := cs.dropWhile Char.isDigit
  let (fraction, rest) := match rest with
    | '.' :: rest => (rest.takeWhile Char.isDigit, rest.dropWhile Char.isDigit)
    | rest => ([], rest)
  match digits? 10 (whole ++ fraction), rest with
  | some n, [] => some ⟨n, -(fraction.length : Int)⟩
  | some n, e :: rest =>
    if e = 'e' ∨ e = 'E' then
      (exponent? rest).map fun exponent => ⟨n, exponent - fraction.length⟩
    else none
  | none, _ => none

/-- A number with a fraction or an exponent. Infinities and what is no number are null. -/
def float? (cs : List Char) : Option Value :=
  let unsigned := withoutSign cs
  let negative := cs.head? == some '-'
  if isNan cs || isInfinity unsigned then some .null
  else (decimal? unsigned).bind fun d =>
    (Double.ofDecimal d).map fun x => .number (.float (if negative then x.neg else x))

def plain (text : String) : Option Value :=
  let cs := text.toList
  if text = "" ∨ isNull text then some .null
  else match bool? text with
    | some b => some (.bool b)
    | none => match intValue? cs with
      | some v => v
      | none =>
        if isPaddedDigits cs then some (.string text)
        else some ((float? cs).getD (.string text))

/-- The value of a scalar; nothing when it does not fit its tag, or the tag is a local one. Other
tags make strings, but for those that only start as local ones do. -/
def scalar (tag : Option Tag) (text : String) (isPlain : Bool) : Option Value :=
  match tag with
  | none => if isPlain then plain text else some (.string text)
  | some t =>
    if t.isLocal then none
    else if t = .core "bool" then (bool? text).map .bool
    else if t = .core "int" then (intValue? text.toList).join
    else if t = .core "float" then float? text.toList
    else if t = .core "null" then if isNull text then some .null else none
    else if t.startsLocally ∧ isPlain then plain text
    else some (.string text)

end StyleLayers.Yaml.Schema
