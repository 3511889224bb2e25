/-!
YAML text with the place of every character. Line breaks of one or two control characters are one
line feed; the line and paragraph separators break lines too, but stay themselves.
-/

namespace StyleLayers.Yaml

structure Located where
  char : Char
  /-- The number of bytes before it, each line break being one character. -/
  offset : Nat
  line : Nat
  column : Nat
  deriving DecidableEq, Repr

abbrev Source := List Located

/-- Control characters other than tabs and line breaks may not occur. -/
def isAllowed (c : Char) : Bool :=
  let n := c.toNat
  n == 0x09 || n == 0x0A || n == 0x0D || (0x20 ≤ n && n ≤ 0x7E) || n == 0x85 ||
    (0xA0 ≤ n && n ≤ 0xD7FF) || (0xE000 ≤ n && n ≤ 0xFFFD) || 0x10000 ≤ n

def withPlainBreaks : List Char → List Char
  | '\r' :: '\n' :: rest => '\n' :: withPlainBreaks rest
  | c :: rest => (if c = '\r' ∨ c = '\u0085' then '\n' else c) :: withPlainBreaks rest
  | [] => []

def isBreak (c : Char) : Bool := c = '\n' || c = '\u2028' || c = '\u2029'

def isBlank (c : Char) : Bool := c = ' ' || c = '\t'

def isSpacing (c : Char) : Bool := isBlank c || isBreak c

def located (offset line column : Nat) : List Char → Source
  | [] => []
  | c :: rest =>
    ⟨c, offset, line, column⟩ ::
      if isBreak c then located (offset + c.utf8Size) (line + 1) 0 rest
      else located (offset + c.utf8Size) line (column + 1) rest

namespace Source

def ofText? (text : List Char) : Option Source :=
  if text.all isAllowed then some (located 0 0 0 (withPlainBreaks text)) else none

def spanChars (p : Char → Bool) (s : Source) : List Char × Source :=
  ((s.takeWhile fun l => p l.char).map Located.char, s.dropWhile fun l => p l.char)

def startsWith (p : Char → Bool) : Source → Bool
  | [] => false
  | l :: _ => p l.char

def endsWord : Source → Bool
  | [] => true
  | l :: _ => isSpacing l.char

def isMarkerOf (c : Char) : Source → Bool
  | l₁ :: l₂ :: l₃ :: rest =>
    l₁.column = 0 && l₁.char = c && l₂.char = c && l₃.char = c && endsWord rest
  | _ => false

def isMarker (s : Source) : Bool := isMarkerOf '-' s || isMarkerOf '.' s

/-- The rest of a line without anything but white space and a comment in it, after its break. -/
def afterLine? (s : Source) : Option Source :=
  let rest := s.dropWhile fun l => isBlank l.char
  let rest := if startsWith (· = '#') rest then rest.dropWhile fun l => !isBreak l.char else rest
  match rest with
  | [] => some []
  | l :: after => if isBreak l.char then some after else none

end Source

end StyleLayers.Yaml
