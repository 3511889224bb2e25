import StyleLayers.Json.Value

/-!
The compact text of a value: no spaces, mappings in their own order, and in strings an escape for
the quote, the backslash and the characters below U+0020 only.
-/

namespace StyleLayers.Json

def hexDigit (n : Nat) : Char := Nat.digitChar n

def escapeChar (c : Char) : List Char :=
  if c = '"' then ['\\', '"']
  else if c = '\\' then ['\\', '\\']
  else if c = '\n' then ['\\', 'n']
  else if c = '\r' then ['\\', 'r']
  else if c = '\t' then ['\\', 't']
  else if c = '\x08' then ['\\', 'b']
  else if c = '\x0c' then ['\\', 'f']
  else if c.toNat < 0x20 then
    ['\\', 'u', '0', '0', hexDigit (c.toNat / 16), hexDigit (c.toNat % 16)]
  else [c]

def quoted (s : String) : String :=
  String.ofList ('"' :: s.toList.flatMap escapeChar ++ ['"'])

mutual

def print : Value → String
  | .null => "null"
  | .bool true => "true"
  | .bool false => "false"
  | .number n => n.text
  | .string s => quoted s
  | .array items => "[" ++ printItems items ++ "]"
  | .object entries => "\x7b" ++ printEntries entries ++ "\x7d"

def printItems : List Value → String
  | [] => ""
  | [v] => print v
  | v :: rest => print v ++ "," ++ printItems rest

def printEntries : List (String × Value) → String
  | [] => ""
  | [(k, v)] => quoted k ++ ":" ++ print v
  | (k, v) :: rest => quoted k ++ ":" ++ print v ++ "," ++ printEntries rest

end

end StyleLayers.Json

namespace StyleLayers.Value

/-- A value as it stands in a declaration: a string bare, anything else as its compact text. -/
def css : Value → String
  | string s => s
  | v => Json.print v

end StyleLayers.Value
