/-!
The tokens of CSS text, and the classes of characters that tell them apart.
-/

namespace StyleLayers.Css

inductive Bracket where
  | round
  | square
  | curly
  deriving DecidableEq, Repr

/-- Names and string texts are given with their escapes resolved. -/
inductive Token where
  | ident (name : String)
  | function (name : String)
  | atKeyword (name : String)
  /-- A hash whose name is an identifier. -/
  | idHash (name : String)
  | hash (name : String)
  | quoted (text : String)
  | badString
  | url (text : String)
  | badUrl
  | delim (char : Char)
  | number
  | percentage
  | dimension (unit : String)
  | space
  | comment
  | colon
  | semicolon
  | comma
  /-- A character of `$*^|~` and an equals sign. -/
  | attributeMatch (operator : Char)
  | openComment
  | closeComment
  | opening (bracket : Bracket)
  | closing (bracket : Bracket)
  deriving DecidableEq, Repr

def replacement : Char := '\uFFFD'

def isNewline (c : Char) : Bool := c = '\n' || c = '\r' || c = '\x0c'

def isSpace (c : Char) : Bool := c = ' ' || c = '\t' || isNewline c

def isAsciiDigit (c : Char) : Bool := '0' ≤ c && c ≤ '9'

def isAsciiLetter (c : Char) : Bool := ('a' ≤ c && c ≤ 'z') || ('A' ≤ c && c ≤ 'Z')

def isAscii (c : Char) : Bool := c.toNat < 0x80

def isHexDigit (c : Char) : Bool :=
  isAsciiDigit c || ('a' ≤ c && c ≤ 'f') || ('A' ≤ c && c ≤ 'F')

/-- NUL stands for the replacement character, which is not ASCII. -/
def isNameStart (c : Char) : Bool := isAsciiLetter c || c = '_' || c = '\x00' || !isAscii c

def isNameChar (c : Char) : Bool := isNameStart c || isAsciiDigit c || c = '-'

def nulReplaced (c : Char) : Char := if c = '\x00' then replacement else c

end StyleLayers.Css
