import StyleLayers.Number.Decimal

/-!
Tree values: null, truth values, numbers, strings, arrays and mappings whose entries keep the order
in which their keys were first set.
-/

namespace StyleLayers

/-- A whole number that fits 64 bits, or a double. -/
inductive Number where
  | integer (value : Int)
  | float (value : Double)
  deriving DecidableEq, Repr

namespace Number

def text : Number → String
  | integer n =>
    let digits := Nat.toDigits 10 n.natAbs
    String.ofList (if n < 0 then '-' :: digits else digits)
  | float x => x.text

def isZero : Number → Bool
  | integer n => n == 0
  | float x => x.isZero

end Number

inductive Value where
  | null
  | bool (value : Bool)
  | number (value : Number)
  | string (value : String)
  | array (items : List Value)
  | object (entries : List (String × Value))
  deriving Repr, Inhabited

abbrev Entries := List (String × Value)

namespace Entries

/-- Sets a key: a key that is present keeps its place, a new one goes to the end. -/
def insert (key : String) (value : Value) : Entries → Entries
  | [] => [(key, value)]
  | (k, v) :: rest => if k = key then (k, value) :: rest else (k, v) :: insert key value rest

def ofList (pairs : List (String × Value)) : Entries :=
  pairs.foldl (fun entries pair => insert pair.1 pair.2 entries) []

def get? (entries : Entries) (key : String) : Option Value := entries.lookup key

end Entries

namespace Value

inductive Kind where
  | null
  | boolean
  | number
  | string
  | array
  | mapping
  deriving DecidableEq, Repr

def Kind.name : Kind → String
  | null => "null"
  | boolean => "boolean"
  | number => "number"
  | string => "string"
  | array => "array"
  | mapping => "mapping"

def kind : Value → Kind
  | null => .null
  | bool _ => .boolean
  | number _ => .number
  | string _ => .string
  | array _ => .array
  | object _ => .mapping

def string? : Value → Option String
  | string s => some s
  | _ => none

def entries? : Value → Option Entries
  | object entries => some entries
  | _ => none

def entry? (value : Value) (key : String) : Option Value :=
  value.entries?.bind (Entries.get? · key)

/-- Switches are off at null, false, zero and the empty string. -/
def isOn : Value → Bool
  | null => false
  | bool b => b
  | number n => !n.isZero
  | string s => s ≠ ""
  | array _ => true
  | object _ => true

end Value

end StyleLayers
