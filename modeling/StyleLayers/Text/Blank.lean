/-!
White space in text: the characters with the Unicode property `White_Space`, trimming, and the
first word of a text.
-/

namespace StyleLayers.Text

/-- The 25 characters with the Unicode property White_Space. -/
def isBlank (c : Char) : Bool :=
  let n := c.toNat
  (9 ≤ n && n ≤ 13) || n == 0x20 || n == 0x85 || n == 0xA0 || n == 0x1680 ||
    (0x2000 ≤ n && n ≤ 0x200A) || n == 0x2028 || n == 0x2029 || n == 0x202F || n == 0x205F ||
    n == 0x3000

def trimStart (cs : List Char) : List Char := cs.dropWhile isBlank

def trimEnd (cs : List Char) : List Char := (cs.reverse.dropWhile isBlank).reverse

def trim (cs : List Char) : List Char := trimEnd (trimStart cs)

/-- The first maximal run of characters that are not blank; empty when there is none. -/
def firstWord (cs : List Char) : List Char :=
  (trimStart cs).takeWhile fun c => !isBlank c

def trimmed (s : String) : String := String.ofList (trim s.toList)

end StyleLayers.Text
