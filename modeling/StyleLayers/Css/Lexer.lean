import StyleLayers.Css.Name

/-!
The lexemes of CSS text. Each is a token with the characters it was read from, and together the
lexemes give back the text.
-/

namespace StyleLayers.Css

structure Lexeme where
  token : Token
  text : List Char
  deriving DecidableEq, Repr

abbrev Reading := Token × List Char

/-- What follows the opening quote: up to the closing quote or the end. An unescaped line break
makes the string bad and is left in place, an escaped one is skipped. -/
def readString (quote : Char) (read : List Char) : List Char → Reading
  | [] => (.quoted (String.ofList read.reverse), [])
  | c :: rest =>
    if c = quote then (.quoted (String.ofList read.reverse), rest)
    else if isNewline c then (.badString, c :: rest)
    else if c = '\\' then
      match rest with
      | [] => (.quoted (String.ofList read.reverse), [])
      | d :: after =>
        if isNewline d then readString quote read (dropOneSpace (d :: after))
        else readString quote ((readEscape (d :: after)).1 :: read) (readEscape (d :: after)).2
    else readString quote (nulReplaced c :: read) rest
termination_by cs => cs.length
decreasing_by
  · have := (dropOneSpace_suffix (d :: after)).length_le
    simp only [List.length_cons] at this ⊢
    omega
  · have := (readEscape_suffix (d :: after)).length_le
    simp only [List.length_cons] at this ⊢
    omega
  · simp

/-- A bad URL ends after the first closing parenthesis that no backslash escapes. -/
def skipBadUrl : List Char → List Char
  | [] => []
  | '\\' :: c :: rest => if c = ')' ∨ c = '\\' then skipBadUrl rest else skipBadUrl (c :: rest)
  | c :: rest => if c = ')' then rest else skipBadUrl rest

def isUrlBreaker (c : Char) : Bool :=
  let n := c.toNat
  (1 ≤ n && n ≤ 8) || n == 0x0B || (0x0E ≤ n && n ≤ 0x1F) || n == 0x7F ||
    c = '"' || c = '\'' || c = '('

/-- After white space in a bare URL only its end may follow. -/
def readUrlEnd (text : List Char) (cs : List Char) : Reading :=
  match cs.dropWhile isSpace with
  | [] => (.url (String.ofList text.reverse), [])
  | c :: rest =>
    if c = ')' then (.url (String.ofList text.reverse), rest) else (.badUrl, skipBadUrl rest)

def readUrlText (read : List Char) : List Char → Reading
  | [] => (.url (String.ofList read.reverse), [])
  | c :: rest =>
    if c = ')' then (.url (String.ofList read.reverse), rest)
    else if isSpace c then readUrlEnd read rest
    else if isUrlBreaker c then (.badUrl, skipBadUrl rest)
    else if c = '\\' then
      if startsWithNewline rest then (.badUrl, skipBadUrl rest)
      else readUrlText ((readEscape rest).1 :: read) (readEscape rest).2
    else readUrlText (nulReplaced c :: read) rest
termination_by cs => cs.length
decreasing_by
  · have := (readEscape_suffix rest).length_le
    simp only [List.length_cons]
    omega
  · simp

/-- What follows `url(`. A quoted URL is a function with a string in it. -/
def readUrl (name : String) (cs : List Char) : Reading :=
  match cs.dropWhile isSpace with
  | [] => (.url "", [])
  | c :: rest =>
    if c = '"' ∨ c = '\'' then (.function name, cs)
    else if c = ')' then (.url "", rest)
    else readUrlText [] (c :: rest)

def isUrlName (name : List Char) : Bool := name.map Char.toLower = ['u', 'r', 'l']

/-- An identifier whose first character is given with its escape resolved, or a function. -/
def readIdentLike (first : Char) (cs : List Char) : Reading :=
  let name := readName cs
  match name.2 with
  | '(' :: rest =>
    if isUrlName (first :: name.1) then readUrl (String.ofList (first :: name.1)) rest
    else (.function (String.ofList (first :: name.1)), rest)
  | rest => (.ident (String.ofList (first :: name.1)), rest)

def startsNumber : List Char → Bool
  | '.' :: c :: _ => isAsciiDigit c
  | c :: _ => isAsciiDigit c
  | [] => false

def dropFraction : List Char → List Char
  | '.' :: c :: rest => if isAsciiDigit c then rest.dropWhile isAsciiDigit else '.' :: c :: rest
  | cs => cs

def isExponentMark (c : Char) : Bool := c = 'e' || c = 'E'

def dropExponent : List Char → List Char
  | e :: sign :: c :: rest =>
    if isExponentMark e && isAsciiDigit sign then (c :: rest).dropWhile isAsciiDigit
    else if isExponentMark e && (sign = '+' || sign = '-') && isAsciiDigit c then
      rest.dropWhile isAsciiDigit
    else e :: sign :: c :: rest
  | [e, c] => if isExponentMark e && isAsciiDigit c then [] else [e, c]
  | cs => cs

def readNumber (cs : List Char) : Reading :=
  match dropExponent (dropFraction (cs.dropWhile isAsciiDigit)) with
  | '%' :: rest => (.percentage, rest)
  | rest =>
    if startsIdent rest then
      (.dimension (String.ofList (readName rest).1), (readName rest).2)
    else (.number, rest)

def skipComment : List Char → List Char
  | '*' :: '/' :: rest => rest
  | _ :: rest => skipComment rest
  | [] => []

def readHash (cs : List Char) : Reading :=
  if startsIdent cs then (.idHash (String.ofList (readName cs).1), (readName cs).2)
  else match cs with
    | c :: _ =>
      if isAsciiDigit c ∨ c = '-' then (.hash (String.ofList (readName cs).1), (readName cs).2)
      else (.delim '#', cs)
    | [] => (.delim '#', cs)

def readMatch (operator : Char) : List Char → Reading
  | '=' :: rest => (.attributeMatch operator, rest)
  | cs => (.delim operator, cs)

def bracketToken : Char → Option Token
  | '(' => some (.opening .round)
  | ')' => some (.closing .round)
  | '[' => some (.opening .square)
  | ']' => some (.closing .square)
  | '\x7b' => some (.opening .curly)
  | '\x7d' => some (.closing .curly)
  | ',' => some .comma
  | ':' => some .colon
  | ';' => some .semicolon
  | _ => none

def readPlus (cs : List Char) : Reading :=
  if startsNumber cs then readNumber cs else (.delim '+', cs)

def readMinus (cs : List Char) : Reading :=
  if startsNumber cs then readNumber cs
  else match cs with
    | '-' :: '>' :: rest => (.closeComment, rest)
    | _ => if startsIdent ('-' :: cs) then readIdentLike '-' cs else (.delim '-', cs)

def readPoint (cs : List Char) : Reading :=
  match cs with
  | c :: _ => if isAsciiDigit c then readNumber ('.' :: cs) else (.delim '.', cs)
  | [] => (.delim '.', cs)

def readSlash : List Char → Reading
  | '*' :: rest => (.comment, skipComment rest)
  | cs => (.delim '/', cs)

def readLess : List Char → Reading
  | '!' :: '-' :: '-' :: rest => (.openComment, rest)
  | cs => (.delim '<', cs)

def readAt (cs : List Char) : Reading :=
  if startsIdent cs then (.atKeyword (String.ofList (readName cs).1), (readName cs).2)
  else (.delim '@', cs)

def readBackslash (cs : List Char) : Reading :=
  if startsWithNewline cs then (.delim '\\', cs)
  else readIdentLike (readEscape cs).1 (readEscape cs).2

def isMatchMark (c : Char) : Bool := c = '$' || c = '*' || c = '^' || c = '|' || c = '~'

def readToken (c : Char) (cs : List Char) : Reading :=
  if isSpace c then (.space, cs.dropWhile isSpace)
  else if c = '"' ∨ c = '\'' then readString c [] cs
  else if c = '#' then readHash cs
  else if isMatchMark c then readMatch c cs
  else if c = '+' then readPlus cs
  else if c = '-' then readMinus cs
  else if c = '.' then readPoint cs
  else if c = '/' then readSlash cs
  else if c = '<' then readLess cs
  else if c = '@' then readAt cs
  else if c = '\\' then readBackslash cs
  else if isAsciiDigit c then readNumber cs
  else if isNameStart c then readIdentLike (nulReplaced c) cs
  else match bracketToken c with
    | some t => (t, cs)
    | none => (.delim c, cs)

theorem readString_suffix (quote : Char) (read cs : List Char) :
    (readString quote read cs).2 <:+ cs := by
  fun_induction readString quote read cs with
  | case1 => exact List.suffix_rfl
  | case2 => exact List.suffix_cons _ _
  | case3 => exact List.suffix_rfl
  | case4 => exact List.suffix_cons _ _
  | case5 read _ _ d after _ ih =>
    exact (ih.trans (dropOneSpace_suffix _)).trans (List.suffix_cons _ _)
  | case6 read _ _ d after _ ih =>
    exact (ih.trans (readEscape_suffix _)).trans (List.suffix_cons _ _)
  | case7 read c rest _ _ _ ih => exact ih.trans (List.suffix_cons _ _)

theorem skipBadUrl_suffix (cs : List Char) : skipBadUrl cs <:+ cs := by
  fun_induction skipBadUrl cs with
  | case1 => exact List.suffix_rfl
  | case2 c rest _ ih => exact ih.trans ((List.suffix_cons _ _).trans (List.suffix_cons _ _))
  | case3 c rest _ ih => exact ih.trans (List.suffix_cons _ _)
  | case4 => exact List.suffix_cons _ _
  | case5 c rest _ _ ih => exact ih.trans (List.suffix_cons _ _)

theorem readUrlEnd_suffix (text cs : List Char) : (readUrlEnd text cs).2 <:+ cs := by
  have h := List.dropWhile_suffix isSpace (l := cs)
  unfold readUrlEnd
  split
  · exact List.nil_suffix
  · rename_i c rest hcs
    rw [hcs] at h
    have hrest := (List.suffix_cons c rest).trans h
    split
    · exact hrest
    · exact (skipBadUrl_suffix rest).trans hrest

theorem readUrlText_suffix (read cs : List Char) : (readUrlText read cs).2 <:+ cs := by
  fun_induction readUrlText read cs with
  | case1 => exact List.suffix_rfl
  | case2 => exact List.suffix_cons _ _
  | case3 read c rest _ _ => exact (readUrlEnd_suffix _ _).trans (List.suffix_cons _ _)
  | case4 => exact (skipBadUrl_suffix _).trans (List.suffix_cons _ _)
  | case5 => exact (skipBadUrl_suffix _).trans (List.suffix_cons _ _)
  | case6 read rest _ _ _ _ ih =>
    exact (ih.trans (readEscape_suffix _)).trans (List.suffix_cons _ _)
  | case7 read c rest _ _ _ _ ih => exact ih.trans (List.suffix_cons _ _)

theorem readUrl_suffix (name : String) (cs : List Char) : (readUrl name cs).2 <:+ cs := by
  have h := List.dropWhile_suffix isSpace (l := cs)
  unfold readUrl
  split
  · exact List.nil_suffix
  · rename_i c rest hcs
    rw [hcs] at h
    split
    · exact List.suffix_rfl
    · split
      · exact (List.suffix_cons c rest).trans h
      · exact (readUrlText_suffix [] (c :: rest)).trans h

theorem readIdentLike_suffix (first : Char) (cs : List Char) :
    (readIdentLike first cs).2 <:+ cs := by
  have h := readName_suffix cs
  simp only [readIdentLike]
  split
  · rename_i rest hname
    rw [hname] at h
    have hrest := (List.suffix_cons _ rest).trans h
    split
    · exact (readUrl_suffix _ rest).trans hrest
    · exact hrest
  · exact h

theorem dropFraction_suffix (cs : List Char) : dropFraction cs <:+ cs := by
  unfold dropFraction
  split
  · split
    · exact (List.dropWhile_suffix _).trans
        ((List.suffix_cons _ _).trans (List.suffix_cons _ _))
    · exact List.suffix_rfl
  · exact List.suffix_rfl

theorem dropExponent_suffix (cs : List Char) : dropExponent cs <:+ cs := by
  unfold dropExponent
  split
  · split
    · exact (List.dropWhile_suffix _).trans
        ((List.suffix_cons _ _).trans (List.suffix_cons _ _))
    · split
      · exact (List.dropWhile_suffix _).trans
          ((List.suffix_cons _ _).trans ((List.suffix_cons _ _).trans (List.suffix_cons _ _)))
      · exact List.suffix_rfl
  · split
    · exact List.nil_suffix
    · exact List.suffix_rfl
  · exact List.suffix_rfl

theorem readNumber_suffix_of (cs : List Char) {after : List Char}
    (h : dropExponent (dropFraction (cs.dropWhile isAsciiDigit)) <:+ after) :
    (readNumber cs).2 <:+ after := by
  unfold readNumber
  split
  · rename_i rest hcs
    rw [hcs] at h
    exact (List.suffix_cons _ rest).trans h
  · split
    · exact (readName_suffix _).trans h
    · exact h

theorem readNumber_suffix (cs : List Char) : (readNumber cs).2 <:+ cs :=
  readNumber_suffix_of cs
    (((dropExponent_suffix _).trans (dropFraction_suffix _)).trans (List.dropWhile_suffix _))

theorem skipComment_suffix (cs : List Char) : skipComment cs <:+ cs := by
  fun_induction skipComment cs with
  | case1 => exact (List.suffix_cons _ _).trans (List.suffix_cons _ _)
  | case2 c rest _ ih => exact ih.trans (List.suffix_cons _ _)
  | case3 => exact List.suffix_rfl

theorem readHash_suffix (cs : List Char) : (readHash cs).2 <:+ cs := by
  unfold readHash
  split
  · exact readName_suffix _
  · split
    · split
      · exact readName_suffix _
      · exact List.suffix_rfl
    · exact List.suffix_rfl

theorem readMatch_suffix (operator : Char) (cs : List Char) :
    (readMatch operator cs).2 <:+ cs := by
  unfold readMatch
  split
  · exact List.suffix_cons _ _
  · exact List.suffix_rfl

theorem readPlus_suffix (cs : List Char) : (readPlus cs).2 <:+ cs := by
  unfold readPlus
  split
  · exact readNumber_suffix _
  · exact List.suffix_rfl

theorem readMinus_suffix (cs : List Char) : (readMinus cs).2 <:+ cs := by
  unfold readMinus
  split
  · exact readNumber_suffix _
  · split
    · exact (List.suffix_cons _ _).trans (List.suffix_cons _ _)
    · split
      · exact readIdentLike_suffix _ _
      · exact List.suffix_rfl

theorem readPoint_suffix (cs : List Char) : (readPoint cs).2 <:+ cs := by
  unfold readPoint
  split
  · rename_i c rest
    split
    · rename_i hdigit
      refine readNumber_suffix_of _ ((dropExponent_suffix _).trans ?_)
      have hpoint : isAsciiDigit '.' = false := by decide
      simp only [List.dropWhile_cons, hpoint, Bool.false_eq_true, if_false, dropFraction, hdigit,
        if_true]
      exact (List.dropWhile_suffix _).trans (List.suffix_cons _ _)
    · exact List.suffix_rfl
  · exact List.suffix_rfl

theorem readSlash_suffix (cs : List Char) : (readSlash cs).2 <:+ cs := by
  unfold readSlash
  split
  · exact (skipComment_suffix _).trans (List.suffix_cons _ _)
  · exact List.suffix_rfl

theorem readLess_suffix (cs : List Char) : (readLess cs).2 <:+ cs := by
  unfold readLess
  split
  · exact (List.suffix_cons _ _).trans ((List.suffix_cons _ _).trans (List.suffix_cons _ _))
  · exact List.suffix_rfl

theorem readAt_suffix (cs : List Char) : (readAt cs).2 <:+ cs := by
  unfold readAt
  split
  · exact readName_suffix _
  · exact List.suffix_rfl

theorem readBackslash_suffix (cs : List Char) : (readBackslash cs).2 <:+ cs := by
  unfold readBackslash
  split
  · exact List.suffix_rfl
  · exact (readIdentLike_suffix _ _).trans (readEscape_suffix _)

theorem ite_suffix {p : Prop} [Decidable p] {x y : Reading} {cs : List Char}
    (hx : x.2 <:+ cs) (hy : y.2 <:+ cs) : (if p then x else y).2 <:+ cs := by
  by_cases h : p
  · rwa [if_pos h]
  · rwa [if_neg h]

theorem readToken_suffix (c : Char) (cs : List Char) : (readToken c cs).2 <:+ cs := by
  unfold readToken
  refine ite_suffix (List.dropWhile_suffix _) ?_
  refine ite_suffix (readString_suffix _ _ _) ?_
  refine ite_suffix (readHash_suffix _) ?_
  refine ite_suffix (readMatch_suffix _ _) ?_
  refine ite_suffix (readPlus_suffix _) ?_
  refine ite_suffix (readMinus_suffix _) ?_
  refine ite_suffix (readPoint_suffix _) ?_
  refine ite_suffix (readSlash_suffix _) ?_
  refine ite_suffix (readLess_suffix _) ?_
  refine ite_suffix (readAt_suffix _) ?_
  refine ite_suffix (readBackslash_suffix _) ?_
  refine ite_suffix (readNumber_suffix _) ?_
  refine ite_suffix (readIdentLike_suffix _ _) ?_
  cases bracketToken c <;> exact List.suffix_rfl

def textBefore (cs rest : List Char) : List Char := cs.take (cs.length - rest.length)

theorem textBefore_append {cs rest : List Char} (h : rest <:+ cs) :
    textBefore cs rest ++ rest = cs := by
  obtain ⟨front, rfl⟩ := h
  simp [textBefore]

def lexemes : List Char → List Lexeme
  | [] => []
  | c :: cs =>
    let reading := readToken c cs
    ⟨reading.1, c :: textBefore cs reading.2⟩ :: lexemes reading.2
termination_by cs => cs.length
decreasing_by
  have := (readToken_suffix c cs).length_le
  simp only [List.length_cons]
  omega

theorem flatMap_text_lexemes (cs : List Char) : (lexemes cs).flatMap Lexeme.text = cs := by
  fun_induction lexemes cs with
  | case1 => rfl
  | case2 c cs reading ih =>
    simp only [List.flatMap_cons, List.cons_append, ih]
    rw [textBefore_append (readToken_suffix c cs)]

def tokens (text : String) : List Token := (lexemes text.toList).map Lexeme.token

end StyleLayers.Css
