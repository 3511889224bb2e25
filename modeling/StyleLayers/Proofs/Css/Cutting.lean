import StyleLayers.Proofs.Css.Agreeing

/-!
Tokens read from two texts side by side. As long as none goes on over the comma they are the same,
whatever stands behind it and with white space just in front of it left out; only a line break that
breaks a string has to stay.
-/

namespace StyleLayers.Css.Cut

variable {k : Cut} {x x' : List Char}

theorem dropFraction_other (cs : List Char) (noPoint : ∀ rest, cs ≠ '.' :: rest) :
    Css.dropFraction cs = cs := by
  unfold Css.dropFraction
  split
  · exact absurd rfl (noPoint _)
  · rfl

theorem Beside.dropFraction (beside : k.Beside x x') :
    k.Beside (dropFraction x) (dropFraction x') := by
  rcases beside.literal ['.'] (by decide) with ⟨y, y', rfl, rfl, after⟩ | ⟨noPoint, noPoint'⟩
  · obtain ⟨d, z, d', z', rfl, rfl, same⟩ := after.heads
    have digits := same_class isAsciiDigit (by decide) same
    cases digit : isAsciiDigit d with
    | true =>
        obtain ⟨u, same, behind⟩ := after.tail (free_of isAsciiDigit (by decide) d digit)
        cases same
        simp only [List.singleton_append, Css.dropFraction, digit, if_true]
        exact behind.dropWhile isAsciiDigit rfl rfl
    | false =>
        simpa only [List.singleton_append, Css.dropFraction, ← digits, digit, Bool.false_eq_true,
          if_false] using beside
  · rwa [dropFraction_other x noPoint, dropFraction_other x' noPoint']

def isSign (c : Char) : Bool := c = '+' || c = '-'

theorem dropExponent_none (e : Char) (cs : List Char)
    (none : isExponentMark e = false ∨ ∀ s ∈ cs.head?, isAsciiDigit s = false ∧ isSign s = false) :
    Css.dropExponent (e :: cs) = e :: cs := by
  match cs with
  | [] => rfl
  | [s] => rcases none with mark | stop <;> simp_all [Css.dropExponent]
  | s :: c :: cs =>
    rcases none with mark | stop
    · simp [Css.dropExponent, mark]
    · obtain ⟨noDigit, noSign⟩ := stop s rfl
      unfold isSign at noSign
      simp [Css.dropExponent, noDigit, noSign]

theorem dropExponent_digit (e s : Char) (cs : List Char) (mark : isExponentMark e = true)
    (digit : isAsciiDigit s = true) :
    Css.dropExponent (e :: s :: cs) = cs.dropWhile isAsciiDigit := by
  cases cs with
  | nil => simp [Css.dropExponent, mark, digit]
  | cons c cs => simp only [Css.dropExponent, mark, digit, Bool.and_self, if_true]

theorem dropExponent_sign (e s c : Char) (cs : List Char) (mark : isExponentMark e = true)
    (sign : isSign s = true) (noDigit : isAsciiDigit s = false) :
    Css.dropExponent (e :: s :: c :: cs) =
      if isAsciiDigit c then cs.dropWhile isAsciiDigit else e :: s :: c :: cs := by
  unfold isSign at sign
  simp [Css.dropExponent, mark, noDigit, sign]

theorem Beside.dropExponent (beside : k.Beside x x') :
    k.Beside (dropExponent x) (dropExponent x') := by
  obtain ⟨e, y, e', y', rfl, rfl, same⟩ := beside.heads
  have marks := same_class isExponentMark (by decide) same
  cases mark : isExponentMark e with
  | false =>
      rwa [dropExponent_none e y (Or.inl mark), dropExponent_none e' y' (Or.inl (marks ▸ mark))]
  | true =>
      obtain ⟨u, shape, after⟩ := beside.tail (free_of isExponentMark (by decide) e mark)
      cases shape
      obtain ⟨s, z, s', z', rfl, rfl, same⟩ := after.heads
      have digits := same_class isAsciiDigit (by decide) same
      have signs := same_class isSign (by decide) same
      cases digit : isAsciiDigit s with
      | true =>
          obtain ⟨u, shape, behind⟩ := after.tail (free_of isAsciiDigit (by decide) s digit)
          cases shape
          rw [dropExponent_digit e s z mark digit, dropExponent_digit e s z' mark digit]
          exact behind.dropWhile isAsciiDigit rfl rfl
      | false =>
          rw [digit] at digits
          cases sign : isSign s with
          | true =>
              obtain ⟨u, shape, behind⟩ := after.tail (free_of isSign (by decide) s sign)
              cases shape
              obtain ⟨c, v, c', v', rfl, rfl, same⟩ := behind.heads
              have digits := same_class isAsciiDigit (by decide) same
              rw [dropExponent_sign e s c v mark sign digit,
                dropExponent_sign e s c' v' mark sign digit, ← digits]
              split
              · next digit =>
                obtain ⟨u, shape, left⟩ := behind.tail (free_of isAsciiDigit (by decide) c digit)
                cases shape
                exact left.dropWhile isAsciiDigit rfl rfl
              · exact beside
          | false =>
              rw [sign] at signs
              rwa [dropExponent_none e (s :: z) (Or.inr (by simp [digit, sign])),
                dropExponent_none e (s' :: z') (Or.inr (by simp [← digits, ← signs]))]

def numberReading (cs : List Char) : Reading :=
  match cs with
  | '%' :: rest => (.percentage, rest)
  | rest =>
    if startsIdent rest then
      (.dimension (String.ofList (readName rest).1), (readName rest).2)
    else (.number, rest)

theorem numberReading_other (cs : List Char) (noPercent : ∀ rest, cs ≠ '%' :: rest) :
    numberReading cs =
      if startsIdent cs then (.dimension (String.ofList (readName cs).1), (readName cs).2)
      else (.number, cs) := by
  unfold numberReading
  split
  · exact absurd rfl (noPercent _)
  · rfl

theorem numberReading_agree (beside : k.Beside x x') :
    k.Agree (numberReading x) (numberReading x') := by
  rcases beside.literal ['%'] (by decide) with ⟨y, y', rfl, rfl, after⟩ | ⟨noPercent, noPercent'⟩
  · exact .here _ after
  · rw [numberReading_other x noPercent, numberReading_other x' noPercent', ← beside.startsIdent]
    split
    · exact (readName_agree beside).map fun unit => Token.dimension (String.ofList unit)
    · exact .here _ beside

theorem readNumber_agree (beside : k.Beside x x') : k.Agree (readNumber x) (readNumber x') :=
  numberReading_agree ((beside.dropWhile isAsciiDigit rfl rfl).dropFraction).dropExponent

theorem readString_newline (quote : Char) (read : List Char) (c : Char) (cs : List Char)
    (noQuote : c ≠ quote) (newline : isNewline c = true) :
    readString quote read (c :: cs) = (.badString, c :: cs) := by
  rw [readString.eq_def]
  simp [noQuote, newline]

theorem readString_other (quote : Char) (read : List Char) (c : Char) (cs : List Char)
    (noQuote : c ≠ quote) (sameLine : isNewline c = false) (noEscape : c ≠ '\\') :
    readString quote read (c :: cs) = readString quote (nulReplaced c :: read) cs := by
  rw [readString.eq_def]
  simp [noQuote, sameLine, noEscape]

theorem readString_escape (quote : Char) (read : List Char) (c : Char) (cs : List Char)
    (noQuote : '\\' ≠ quote) :
    readString quote read ('\\' :: c :: cs) =
      if isNewline c then readString quote read (dropOneSpace (c :: cs))
      else readString quote ((readEscape (c :: cs)).1 :: read) (readEscape (c :: cs)).2 := by
  have sameLine : isNewline '\\' = false := rfl
  rw [readString.eq_def]
  simp [noQuote, sameLine]

theorem readString_trail (quote : Char) (isQuote : quote = '"' ∨ quote = '\'')
    (read left : List Char) (part : left <:+ k.trail) :
    (readString quote read (left ++ ',' :: k.behind)).2 <:+ k.behind ∨
      k.trail ≠ [] ∧ (readString quote read (left ++ ',' :: k.behind)).1 = .badString := by
  induction left generalizing read with
  | nil =>
      have noQuote : ',' ≠ quote := by
        rcases isQuote with rfl | rfl <;> decide
      rw [List.nil_append, readString_other quote read ',' _ noQuote rfl (by decide)]
      exact Or.inl (readString_suffix quote _ k.behind)
  | cons c left ih =>
      have space := k.blank c (part.subset List.mem_cons_self)
      have noQuote : c ≠ quote := by
        rintro rfl
        rcases isQuote with rfl | rfl <;> cases space
      have noEscape := space_ne space '\\' rfl
      rw [List.cons_append]
      cases newline : isNewline c with
      | true =>
          rw [readString_newline quote read c _ noQuote newline]
          refine Or.inr ⟨?_, rfl⟩
          intro none
          rw [none] at part
          cases List.suffix_nil.mp part
      | false =>
          rw [readString_other quote read c _ noQuote newline noEscape]
          exact ih _ ((List.suffix_cons c left).trans part)

/-- A string that is open at the comma goes on over it, unless a line break in front breaks it. -/
theorem readString_agree (quote : Char) (isQuote : quote = '"' ∨ quote = '\'') (read : List Char)
    (beside : k.Beside x x')
    (unbroken : k.trail = [] ∨ (readString quote read x).1 ≠ .badString) :
    k.Agree (readString quote read x) (readString quote read x') := by
  have onComma (read left : List Char) (r' : Reading) (part : left <:+ k.trail)
      (unbroken : k.trail = [] ∨ (readString quote read (left ++ ',' :: k.behind)).1 ≠ .badString) :
      k.Agree (readString quote read (left ++ ',' :: k.behind)) r' := by
    rcases readString_trail quote isQuote read left part with past | ⟨some, broken⟩
    · exact .beyond r' past
    · exact absurd broken (unbroken.resolve_left some)
  induction read, x using readString.induct quote generalizing x' with
  | case1 read =>
    obtain ⟨_, _, _, _, shape, _⟩ := beside.heads
    cases shape
  | case2 read rest =>
    obtain ⟨y', rfl, after⟩ := beside.tail (by rcases isQuote with rfl | rfl <;> decide)
    have closed (cs : List Char) :
        readString quote read (quote :: cs) = (.quoted (String.ofList read.reverse), cs) := by
      rw [readString.eq_def]
      simp
    rw [closed, closed]
    exact .here _ after
  | case3 read c rest noQuote newline =>
    cases beside with
    | comma left part shape =>
        rw [shape] at unbroken ⊢
        exact onComma read left _ part unbroken
    | other c plain after =>
        rw [readString_newline quote read c _ noQuote newline,
          readString_newline quote read c _ noQuote newline]
        exact .here _ (.other c plain after)
    | escape => cases newline
    | escapedComma => cases newline
  | case4 read noQuote noNewline =>
    rcases beside.backslash with ⟨_, _, _, shape, _⟩ | ⟨shape, _⟩
    · cases shape
    · cases shape
  | case5 read d rest newline noQuote noNewline ih =>
    rw [readString_escape quote read d rest noQuote, if_pos newline] at unbroken ⊢
    rcases beside.backslash with ⟨_, z, z', shape, rfl, after⟩ | ⟨shape, _⟩
    · cases shape
      have plain : d ≠ '\\' := by
        rintro rfl
        cases newline
      rw [readString_escape quote read d z' noQuote, if_pos newline]
      exact ih (Beside.other d plain after).dropOneSpace unbroken
    · cases shape
      cases newline
  | case6 read d rest sameLine noQuote noNewline ih =>
    rw [readString_escape quote read d rest noQuote, if_neg sameLine] at unbroken ⊢
    rcases beside.backslash with ⟨_, z, z', shape, rfl, after⟩ | ⟨shape, _⟩
    · cases shape
      obtain ⟨same, left⟩ := after.readEscape d
      rw [readString_escape quote read d z' noQuote, if_neg sameLine, ← same]
      exact ih left unbroken
    · cases shape
      exact .beyond _ (readString_suffix quote _ k.behind)
  | case7 read c rest noQuote newline noEscape ih =>
    have sameLine : isNewline c = false := by simpa using newline
    cases beside with
    | comma left part shape =>
        rw [shape] at unbroken ⊢
        exact onComma read left _ part unbroken
    | other c plain after =>
        rw [readString_other quote read c _ noQuote sameLine noEscape] at unbroken ⊢
        rw [readString_other quote read c _ noQuote sameLine noEscape]
        exact ih after unbroken
    | escape => exact absurd rfl noEscape
    | escapedComma => exact absurd rfl noEscape

theorem skipComment_other (c : Char) (cs : List Char)
    (goesOn : ¬(c = '*' ∧ cs.head? = some '/')) : skipComment (c :: cs) = skipComment cs := by
  rw [skipComment]
  rintro rest rfl rfl
  exact goesOn ⟨rfl, rfl⟩

theorem skipComment_trail (left : List Char) (part : left <:+ k.trail) :
    skipComment (left ++ ',' :: k.behind) <:+ k.behind := by
  induction left with
  | nil =>
      rw [List.nil_append, skipComment_other ',' k.behind (by simp)]
      exact skipComment_suffix k.behind
  | cons c left ih =>
      have space := k.blank c (part.subset List.mem_cons_self)
      have goesOn : ¬(c = '*' ∧ (left ++ ',' :: k.behind).head? = some '/') :=
        fun both => space_ne space '*' rfl both.1
      rw [List.cons_append, skipComment_other c _ goesOn]
      exact ih ((List.suffix_cons c left).trans part)

theorem skipComment_further (t : Token) (beside : k.Beside x x')
    (agree : k.Agree (t, skipComment x) (t, skipComment x')) (c : Char) :
    k.Agree (t, skipComment (c :: x)) (t, skipComment (c :: x')) := by
  by_cases ends : c = '*' ∧ x.head? = some '/'
  · obtain ⟨rfl, first⟩ := ends
    obtain ⟨y, rfl⟩ := List.head?_eq_some_iff.mp first
    obtain ⟨y', rfl, after⟩ := beside.tail (by decide)
    exact .here t after
  · have goesOn : ¬(c = '*' ∧ x'.head? = some '/') := fun both =>
      ends ⟨both.1, beside.head_same both.2 (by decide)⟩
    rwa [skipComment_other c x ends, skipComment_other c x' goesOn]

theorem skipComment_agree (t : Token) (beside : k.Beside x x') :
    k.Agree (t, skipComment x) (t, skipComment x') := by
  induction beside with
  | @comma x left part shape =>
      subst shape
      exact .beyond _ (skipComment_trail left part)
  | other c plain after ih => exact skipComment_further t after ih c
  | escape c after ih =>
      rw [skipComment_other '\\' _ (by simp), skipComment_other '\\' _ (by simp)]
      exact skipComment_further t after ih c
  | escapedComma =>
      rw [skipComment_other '\\' _ (by simp), skipComment_other ',' k.behind (by simp)]
      exact .beyond _ (skipComment_suffix k.behind)

theorem ite_agree {p : Prop} [Decidable p] {r s r' s' : Reading} (left : k.Agree r r')
    (right : k.Agree s s') : k.Agree (if p then r else s) (if p then r' else s') := by
  split
  · exact left
  · exact right

theorem startsNumber_other (c : Char) (cs : List Char) (noPoint : c ≠ '.') :
    startsNumber (c :: cs) = isAsciiDigit c := by
  unfold startsNumber
  split
  · next shape =>
    cases shape
    exact absurd rfl noPoint
  · next shape =>
    cases shape
    rfl
  · next shape => cases shape

theorem Beside.startsNumber (beside : k.Beside x x') : startsNumber x = startsNumber x' := by
  rcases beside.literal ['.'] (by decide) with ⟨y, y', rfl, rfl, after⟩ | ⟨noPoint, noPoint'⟩
  · obtain ⟨d, z, d', z', rfl, rfl, same⟩ := after.heads
    exact same_class isAsciiDigit (by decide) same
  · obtain ⟨c, y, c', y', rfl, rfl, same⟩ := beside.heads
    have other : c ≠ '.' := by
      rintro rfl
      exact noPoint y rfl
    have other' : c' ≠ '.' := by
      rintro rfl
      exact noPoint' y' rfl
    rw [startsNumber_other c y other, startsNumber_other c' y' other']
    exact same_class isAsciiDigit (by decide) same

theorem readMatch_other (operator : Char) (cs : List Char) (noEquals : ∀ rest, cs ≠ '=' :: rest) :
    readMatch operator cs = (.delim operator, cs) := by
  unfold readMatch
  split
  · exact absurd rfl (noEquals _)
  · rfl

theorem readMatch_agree (operator : Char) (beside : k.Beside x x') :
    k.Agree (readMatch operator x) (readMatch operator x') := by
  rcases beside.literal ['='] (by decide) with ⟨y, y', rfl, rfl, after⟩ | ⟨noEquals, noEquals'⟩
  · exact .here _ after
  · rw [readMatch_other operator x noEquals, readMatch_other operator x' noEquals']
    exact .here _ beside

theorem readPlus_agree (beside : k.Beside x x') : k.Agree (readPlus x) (readPlus x') := by
  unfold readPlus
  rw [← beside.startsNumber]
  exact ite_agree (readNumber_agree beside) (.here _ beside)

theorem readMinus_other (cs : List Char) (noEnd : ∀ rest, cs ≠ '-' :: '>' :: rest) :
    readMinus cs =
      if startsNumber cs then readNumber cs
      else if startsIdent ('-' :: cs) then readIdentLike '-' cs
      else (.delim '-', cs) := by
  unfold readMinus
  split
  · rfl
  · split
    · exact absurd rfl (noEnd _)
    · rfl

theorem readMinus_agree (beside : k.Beside x x') : k.Agree (readMinus x) (readMinus x') := by
  rcases beside.literal ['-', '>'] (by decide) with ⟨y, y', rfl, rfl, after⟩ | ⟨noEnd, noEnd'⟩
  · exact .here _ after
  · have starts := (Beside.other '-' (by decide) beside).startsIdent
    rw [readMinus_other x noEnd, readMinus_other x' noEnd', ← beside.startsNumber, ← starts]
    exact ite_agree (readNumber_agree beside)
      (ite_agree (readIdentLike_agree '-' beside) (.here _ beside))

theorem readPoint_agree (beside : k.Beside x x') : k.Agree (readPoint x) (readPoint x') := by
  have number := readNumber_agree (Beside.other '.' (by decide) beside)
  obtain ⟨c, y, c', y', rfl, rfl, same⟩ := beside.heads
  change k.Agree (if isAsciiDigit c then readNumber ('.' :: c :: y) else (.delim '.', c :: y))
    (if isAsciiDigit c' then readNumber ('.' :: c' :: y') else (.delim '.', c' :: y'))
  rw [← same_class isAsciiDigit (by decide) same]
  exact ite_agree number (.here _ beside)

theorem readSlash_other (cs : List Char) (noStar : ∀ rest, cs ≠ '*' :: rest) :
    readSlash cs = (.delim '/', cs) := by
  unfold readSlash
  split
  · exact absurd rfl (noStar _)
  · rfl

theorem readSlash_agree (beside : k.Beside x x') : k.Agree (readSlash x) (readSlash x') := by
  rcases beside.literal ['*'] (by decide) with ⟨y, y', rfl, rfl, after⟩ | ⟨noStar, noStar'⟩
  · exact skipComment_agree _ after
  · rw [readSlash_other x noStar, readSlash_other x' noStar']
    exact .here _ beside

theorem readLess_other (cs : List Char) (noStart : ∀ rest, cs ≠ '!' :: '-' :: '-' :: rest) :
    readLess cs = (.delim '<', cs) := by
  unfold readLess
  split
  · exact absurd rfl (noStart _)
  · rfl

theorem readLess_agree (beside : k.Beside x x') : k.Agree (readLess x) (readLess x') := by
  rcases beside.literal ['!', '-', '-'] (by decide) with
    ⟨y, y', rfl, rfl, after⟩ | ⟨noStart, noStart'⟩
  · exact .here _ after
  · rw [readLess_other x noStart, readLess_other x' noStart']
    exact .here _ beside

theorem readBackslash_agree (c : Char) (beside : k.Beside x x') :
    k.Agree (readBackslash (c :: x)) (readBackslash (c :: x')) := by
  obtain ⟨same, left⟩ := beside.readEscape c
  change k.Agree
    (if isNewline c then (.delim '\\', c :: x)
      else readIdentLike (readEscape (c :: x)).1 (readEscape (c :: x)).2)
    (if isNewline c then (.delim '\\', c :: x')
      else readIdentLike (readEscape (c :: x')).1 (readEscape (c :: x')).2)
  rw [← same]
  split
  · next newline =>
    have plain : c ≠ '\\' := by
      rintro rfl
      cases newline
    exact .here _ (.other c plain beside)
  · exact readIdentLike_agree _ left

theorem readBackslash_comma (r' : Reading) : k.Agree (readBackslash (',' :: k.behind)) r' :=
  .beyond r' (readIdentLike_suffix ',' k.behind)

/-- A token that starts in front of the comma is the same in both texts, or goes on over it. -/
theorem readToken_agree (c : Char) (plain : c ≠ '\\') (beside : k.Beside x x')
    (unbroken : k.trail = [] ∨ (readToken c x).1 ≠ .badString) :
    k.Agree (readToken c x) (readToken c x') := by
  by_cases quote : c = '"' ∨ c = '\''
  · have noSpace : isSpace c = false := by
      rcases quote with rfl | rfl <;> rfl
    have string (cs : List Char) : readToken c cs = readString c [] cs := by
      simp [readToken, noSpace, quote]
    rw [string] at unbroken
    rw [string, string]
    exact readString_agree c quote [] beside unbroken
  · unfold readToken
    rw [if_neg quote, if_neg quote, if_neg plain, if_neg plain]
    refine ite_agree (.here _ (beside.dropWhile isSpace rfl rfl)) ?_
    refine ite_agree (readHash_agree beside) ?_
    refine ite_agree (readMatch_agree c beside) ?_
    refine ite_agree (readPlus_agree beside) ?_
    refine ite_agree (readMinus_agree beside) ?_
    refine ite_agree (readPoint_agree beside) ?_
    refine ite_agree (readSlash_agree beside) ?_
    refine ite_agree (readLess_agree beside) ?_
    refine ite_agree (readAt_agree beside) ?_
    refine ite_agree (readNumber_agree beside) ?_
    refine ite_agree (readIdentLike_agree _ beside) ?_
    cases bracketToken c with
    | none => exact .here _ beside
    | some t => exact .here t beside

end StyleLayers.Css.Cut
