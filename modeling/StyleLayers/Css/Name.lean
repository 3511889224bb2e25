import StyleLayers.Css.Token

/-!
Names in CSS text: reading them with their escapes resolved, and writing any text as an identifier.
Reading leaves a suffix of the text.
-/

namespace StyleLayers.Css

def hexDigitValue (c : Char) : Nat :=
  if isAsciiDigit c then c.toNat - '0'.toNat
  else if 'a' ≤ c then c.toNat - 'a'.toNat + 10
  else c.toNat - 'A'.toNat + 10

def hexValue (digits : List Char) : Nat := digits.foldl (fun n c => 16 * n + hexDigitValue c) 0

/-- The character with a code point; the replacement character for zero, the surrogates and what
lies beyond the last code point. -/
def charOfCode (n : Nat) : Char :=
  if n ≠ 0 ∧ n.isValidChar then Char.ofNat n else replacement

/-- One space, tab or line break, a carriage return and line feed being one break. -/
def dropOneSpace : List Char → List Char
  | '\r' :: '\n' :: rest => rest
  | c :: rest => if isSpace c then rest else c :: rest
  | [] => []

/-- The character that the text after a backslash stands for, and the rest: up to six hexadecimal
digits with one space after them, or any other character for itself. -/
def readEscape : List Char → Char × List Char
  | [] => (replacement, [])
  | c :: rest =>
    if isHexDigit c then
      let digits := (rest.take 5).takeWhile isHexDigit
      (charOfCode (hexValue (c :: digits)), dropOneSpace (rest.drop digits.length))
    else (nulReplaced c, rest)

theorem dropOneSpace_suffix (cs : List Char) : dropOneSpace cs <:+ cs := by
  unfold dropOneSpace
  split
  · exact ⟨['\r', '\n'], rfl⟩
  · split
    · exact List.suffix_cons _ _
    · exact List.suffix_rfl
  · exact List.suffix_rfl

theorem readEscape_suffix (cs : List Char) : (readEscape cs).2 <:+ cs := by
  unfold readEscape
  split
  · exact List.suffix_rfl
  · split
    · exact ((dropOneSpace_suffix _).trans (List.drop_suffix _ _)).trans (List.suffix_cons _ _)
    · exact List.suffix_cons _ _

def startsWithNewline : List Char → Bool
  | [] => false
  | c :: _ => isNewline c

def readName : List Char → List Char × List Char
  | [] => ([], [])
  | c :: rest =>
    if c = '\\' then
      if startsWithNewline rest then ([], c :: rest)
      else
        let first := readEscape rest
        let name := readName first.2
        (first.1 :: name.1, name.2)
    else if isNameChar c then
      let name := readName rest
      (nulReplaced c :: name.1, name.2)
    else ([], c :: rest)
termination_by cs => cs.length
decreasing_by
  · have := (readEscape_suffix rest).length_le
    simp only [List.length_cons]
    omega
  · simp

theorem readName_suffix (cs : List Char) : (readName cs).2 <:+ cs := by
  fun_induction readName cs with
  | case1 => exact List.suffix_rfl
  | case2 => exact List.suffix_rfl
  | case3 rest _ first name ih =>
    exact (ih.trans (readEscape_suffix rest)).trans (List.suffix_cons _ _)
  | case4 c rest _ _ name ih => exact ih.trans (List.suffix_cons _ _)
  | case5 => exact List.suffix_rfl

/-- Whether an identifier starts here. After a hyphen any backslash counts as an escape. -/
def startsIdent : List Char → Bool
  | [] => false
  | '-' :: c :: _ => isNameStart c || c = '-' || c = '\\'
  | '\\' :: rest => !startsWithNewline rest
  | c :: _ => isNameStart c

def codeEscape (c : Char) : List Char := '\\' :: Nat.toDigits 16 c.toNat ++ [' ']

/-- A character inside a name: escaped by code where it is a control character, by a backslash
where it is ASCII and not part of names. -/
def escapedChar (c : Char) : List Char :=
  if isAsciiLetter c || isAsciiDigit c || c = '_' || c = '-' || !isAscii c then [c]
  else if c = '\x00' then [replacement]
  else if c.toNat < 0x20 || c = '\x7f' then codeEscape c
  else ['\\', c]

/-- A leading digit would not start an identifier. -/
def escapedStart : List Char → List Char
  | [] => []
  | c :: rest =>
    if isAsciiDigit c then codeEscape c ++ rest.flatMap escapedChar
    else (c :: rest).flatMap escapedChar

def escaped : List Char → List Char
  | '-' :: '-' :: rest => '-' :: '-' :: rest.flatMap escapedChar
  | ['-'] => ['\\', '-']
  | '-' :: rest => '-' :: escapedStart rest
  | cs => escapedStart cs

def escape (text : String) : String := String.ofList (escaped text.toList)

end StyleLayers.Css
