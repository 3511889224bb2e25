import StyleLayers.Json.Numeral

/-!
The tokens of a JSON text. Between punctuation, white space and strings stand words, which are the
three literals and the numerals.
-/

namespace StyleLayers.Json

inductive Token where
  | openArray
  | closeArray
  | openObject
  | closeObject
  | comma
  | colon
  | scalar (value : Value)
  deriving Repr

namespace Token

def isSpace (c : Char) : Bool := c = ' ' || c = '\n' || c = '\t' || c = '\r'

def ofMark (c : Char) : Option Token :=
  if c = '[' then some openArray
  else if c = ']' then some closeArray
  else if c = '\x7b' then some openObject
  else if c = '\x7d' then some closeObject
  else if c = ',' then some comma
  else if c = ':' then some colon
  else none

def ofWord (cs : List Char) : Option Token :=
  if cs = "null".toList then some (scalar .null)
  else if cs = "true".toList then some (scalar (.bool true))
  else if cs = "false".toList then some (scalar (.bool false))
  else ((Numeral.ofChars cs).bind Numeral.number).map fun n => scalar (.number n)

def isHighSurrogate (n : Nat) : Bool := 0xD800 ≤ n && n ≤ 0xDBFF

def isLowSurrogate (n : Nat) : Bool := 0xDC00 ≤ n && n ≤ 0xDFFF

def hexValue (c : Char) : Option Nat :=
  let n := c.toNat
  if '0'.toNat ≤ n ∧ n ≤ '9'.toNat then some (n - '0'.toNat)
  else if 'a'.toNat ≤ n ∧ n ≤ 'f'.toNat then some (n - 'a'.toNat + 10)
  else if 'A'.toNat ≤ n ∧ n ≤ 'F'.toNat then some (n - 'A'.toNat + 10)
  else none

def codeUnit (a b c d : Char) : Option Nat := do
  some (0x1000 * (← hexValue a) + 0x100 * (← hexValue b) + 0x10 * (← hexValue c) + (← hexValue d))

def pairedCode (high low : Nat) : Nat := 0x10000 + (high - 0xD800) * 0x400 + (low - 0xDC00)

def simpleEscape (c : Char) : Option Char :=
  if c = '"' ∨ c = '\\' ∨ c = '/' then some c
  else if c = 'b' then some '\x08'
  else if c = 'f' then some '\x0c'
  else if c = 'n' then some '\n'
  else if c = 'r' then some '\r'
  else if c = 't' then some '\t'
  else none

mutual

def tokens : List Char → Option (List Token)
  | [] => some []
  | c :: rest =>
    if isSpace c then tokens rest
    else if c = '"' then afterQuote [] rest
    else match ofMark c with
      | some t => (tokens rest).map (t :: ·)
      | none => inWord [c] rest

/-- Inside a word whose characters so far are given last first. -/
def inWord (read : List Char) : List Char → Option (List Token)
  | [] => (ofWord read.reverse).map ([·])
  | c :: rest =>
    if isSpace c then
      (ofWord read.reverse).bind fun w => (tokens rest).map (w :: ·)
    else if c = '"' then
      (ofWord read.reverse).bind fun w => (afterQuote [] rest).map (w :: ·)
    else match ofMark c with
      | some t => (ofWord read.reverse).bind fun w => (tokens rest).map (w :: t :: ·)
      | none => inWord (c :: read) rest

/-- Inside a string. A surrogate escape has to be the first of a pair. -/
def afterQuote (read : List Char) : List Char → Option (List Token)
  | '"' :: rest => (tokens rest).map (scalar (.string (String.ofList read.reverse)) :: ·)
  | '\\' :: 'u' :: a :: b :: c :: d :: rest =>
    match codeUnit a b c d with
    | none => none
    | some unit =>
      if isHighSurrogate unit then
        match rest with
        | '\\' :: 'u' :: e :: f :: g :: h :: rest =>
          match codeUnit e f g h with
          | none => none
          | some low =>
            if isLowSurrogate low then afterQuote (Char.ofNat (pairedCode unit low) :: read) rest
            else none
        | _ => none
      else if isLowSurrogate unit then none
      else afterQuote (Char.ofNat unit :: read) rest
  | '\\' :: c :: rest => (simpleEscape c).bind fun c => afterQuote (c :: read) rest
  | c :: rest => if c.toNat < 0x20 then none else afterQuote (c :: read) rest
  | [] => none

end

end Token

end StyleLayers.Json
