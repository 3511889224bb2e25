import StyleLayers.Proofs.Css.Identifier

/-!
Where one lexeme ends and the next begins: the tokens that selectors are made of, each read in front
of any text that does not go on with it.
-/

namespace StyleLayers.Css

def nameReading (name : List Char) (rest : List Char) : Reading :=
  match rest with
  | '(' :: after =>
    if isUrlName name then readUrl (String.ofList name) after
    else (.function (String.ofList name), after)
  | rest => (.ident (String.ofList name), rest)

theorem readIdentLike_eq (first : Char) (cs : List Char) :
    readIdentLike first cs = nameReading (first :: (readName cs).1) (readName cs).2 := rfl

theorem nameReading_ident (name rest : List Char) (noArguments : rest.head? ≠ some '(') :
    nameReading name rest = (.ident (String.ofList name), rest) := by
  cases rest with
  | nil => rfl
  | cons c rest =>
      have other : c ≠ '(' := by
        rintro rfl
        exact noArguments rfl
      simp [nameReading, other]

theorem readToken_nameStart (c : Char) (cs : List Char) (start : isNameStart c = true) :
    readToken c cs = readIdentLike (nulReplaced c) cs := by
  have other (d : Char) (outside : isNameStart d = false) : c ≠ d := by
    rintro rfl
    simp [start] at outside
  have notSpace : isSpace c = false := by
    simp [isSpace, isNewline, other ' ' (by decide), other '\t' (by decide),
      other '\n' (by decide), other '\r' (by decide), other '\x0c' (by decide)]
  have notMark : isMatchMark c = false := by
    simp [isMatchMark, other '$' (by decide), other '*' (by decide), other '^' (by decide),
      other '|' (by decide), other '~' (by decide)]
  simp [readToken, notSpace, notMark, nameStart_not_digit c start, start,
    other '"' (by decide), other '\'' (by decide), other '#' (by decide), other '+' (by decide),
    other '-' (by decide), other '.' (by decide), other '/' (by decide), other '<' (by decide),
    other '@' (by decide), other '\\' (by decide)]

theorem readMinus_name (cs : List Char) (starts : startsIdent ('-' :: cs) = true)
    (noComment : ∀ tail, cs ≠ '-' :: '>' :: tail) : readMinus cs = readIdentLike '-' cs := by
  have noNumber : startsNumber cs = false := by
    cases cs with
    | nil => rfl
    | cons d ds =>
        have second : (isNameStart d = true ∨ d = '-') ∨ d = '\\' := by
          simpa [startsIdent] using starts
        rcases second with (start | rfl) | rfl
        · have notDigit := nameStart_not_digit d start
          unfold startsNumber
          split
          · next shape =>
            cases shape
            exact absurd start (by decide)
          · next shape =>
            cases shape
            exact notDigit
          · rfl
        · rfl
        · rfl
  simp only [readMinus, noNumber, Bool.false_eq_true, if_false, starts, if_true]

theorem readToken_name (c : Char) (cs : List Char) (starts : startsIdent (c :: cs) = true)
    (noComment : ∀ tail, c :: cs ≠ '-' :: '-' :: '>' :: tail) :
    readToken c cs = nameReading (readName (c :: cs)).1 (readName (c :: cs)).2 := by
  by_cases hyphen : c = '-'
  · subst hyphen
    have minus := readMinus_name cs starts (by
      rintro tail rfl
      exact noComment tail rfl)
    rw [readName_nameChar '-' cs (by decide)]
    exact minus
  · by_cases backslash : c = '\\'
    · subst backslash
      have sameLine : startsWithNewline cs = false := by simpa [startsIdent] using starts
      rw [readName_escape cs sameLine]
      change readBackslash cs = _
      rw [readBackslash, sameLine]
      rfl
    · have start : isNameStart c = true := by
        unfold startsIdent at starts
        split at starts
        · next shape => cases shape
        · next shape =>
          cases shape
          exact absurd rfl hyphen
        · next shape =>
          cases shape
          exact absurd rfl backslash
        · next shape =>
          cases shape
          exact starts
      rw [readToken_nameStart c cs start, readName_nameChar c cs (nameStart_nameChar c start)]
      rfl

theorem lexemes_nil : lexemes [] = [] := by rw [lexemes]

theorem lexemes_cons (c : Char) (cs rest : List Char) (t : Token)
    (read : readToken c (cs ++ rest) = (t, rest)) :
    lexemes (c :: cs ++ rest) = ⟨t, c :: cs⟩ :: lexemes rest := by
  rw [List.cons_append, lexemes]
  simp [read, textBefore]

theorem name_notClosing (cs name rest : List Char) (read : readName (cs ++ rest) = (name, rest))
    (noComment : rest.head? ≠ some '>') : ∀ tail, cs ++ rest ≠ '-' :: '-' :: '>' :: tail := by
  intro tail shape
  rw [shape, readName_nameChar '-' _ (by decide), readName_nameChar '-' _ (by decide),
    stopsName_cons '>' tail (by decide) (by decide)] at read
  cases read
  exact noComment rfl

theorem lexemes_name (cs name rest : List Char) (nonempty : cs ≠ [])
    (starts : startsIdent (cs ++ rest) = true) (read : readName (cs ++ rest) = (name, rest))
    (noArguments : rest.head? ≠ some '(')
    (notClosing : ∀ tail, cs ++ rest ≠ '-' :: '-' :: '>' :: tail) :
    lexemes (cs ++ rest) = ⟨.ident (String.ofList name), cs⟩ :: lexemes rest := by
  cases cs with
  | nil => exact absurd rfl nonempty
  | cons c cs =>
      apply lexemes_cons
      have reading := readToken_name c (cs ++ rest) starts notClosing
      rw [List.cons_append] at read
      rw [reading, read, nameReading_ident name rest noArguments]

theorem escaped_nonempty (cs : List Char) (nonempty : cs ≠ []) : escaped cs ≠ [] := by
  intro none
  have starts := escaped_startsIdent cs [] nonempty
  rw [none] at starts
  exact absurd starts (by decide)

theorem lexemes_escaped (cs rest : List Char) (nonempty : cs ≠ []) (stops : StopsName rest)
    (noArguments : rest.head? ≠ some '(') (noComment : rest.head? ≠ some '>') :
    lexemes (escaped cs ++ rest) =
      ⟨.ident (String.ofList (cs.map nulReplaced)), escaped cs⟩ :: lexemes rest :=
  have read := readName_escaped cs rest stops
  lexemes_name (escaped cs) _ rest (escaped_nonempty cs nonempty)
    (escaped_startsIdent cs rest nonempty) read noArguments
    (name_notClosing _ _ rest read noComment)

theorem lexemes_single (c : Char) (rest : List Char) (t : Token)
    (read : readToken c rest = (t, rest)) : lexemes (c :: rest) = ⟨t, [c]⟩ :: lexemes rest :=
  lexemes_cons c [] rest t read

theorem startsIdent_not_digit (c : Char) (cs : List Char) (starts : startsIdent (c :: cs) = true) :
    isAsciiDigit c = false := by
  unfold startsIdent at starts
  split at starts
  · next shape => cases shape
  · next shape =>
    cases shape
    rfl
  · next shape =>
    cases shape
    rfl
  · next shape =>
    cases shape
    exact nameStart_not_digit _ starts

theorem lexemes_point (cs : List Char) (starts : startsIdent cs = true) :
    lexemes ('.' :: cs) = ⟨.delim '.', ['.']⟩ :: lexemes cs := by
  apply lexemes_single
  change readPoint cs = _
  cases cs with
  | nil => rfl
  | cons c cs => simp [readPoint, startsIdent_not_digit c cs starts]

theorem lexemes_hash (cs name rest : List Char) (starts : startsIdent (cs ++ rest) = true)
    (read : readName (cs ++ rest) = (name, rest)) :
    lexemes ('#' :: cs ++ rest) = ⟨.idHash (String.ofList name), '#' :: cs⟩ :: lexemes rest := by
  apply lexemes_cons
  change readHash (cs ++ rest) = _
  simp [readHash, starts, read]

theorem lexemes_function (cs name rest : List Char) (nonempty : cs ≠ [])
    (starts : startsIdent (cs ++ '(' :: rest) = true)
    (read : readName (cs ++ '(' :: rest) = (name, '(' :: rest))
    (notUrl : isUrlName name = false) :
    lexemes (cs ++ '(' :: rest) =
      ⟨.function (String.ofList name), cs ++ ['(']⟩ :: lexemes rest := by
  cases cs with
  | nil => exact absurd rfl nonempty
  | cons c cs =>
      have shape : c :: cs ++ '(' :: rest = c :: (cs ++ ['(']) ++ rest := by simp
      rw [shape]
      apply lexemes_cons
      have reading := readToken_name c (cs ++ '(' :: rest) starts
        (name_notClosing (c :: cs) name _ read (by simp))
      rw [List.cons_append] at read
      rw [List.append_assoc, List.singleton_append, reading, read]
      simp [nameReading, notUrl]

theorem lexemes_space (rest : List Char) (ends : ∀ c ∈ rest.head?, isSpace c = false) :
    lexemes (' ' :: rest) = ⟨.space, [' ']⟩ :: lexemes rest := by
  apply lexemes_single
  have all : rest.dropWhile isSpace = rest := by
    cases rest with
    | nil => rfl
    | cons c rest => simp [ends c rfl]
  change (Token.space, rest.dropWhile isSpace) = _
  rw [all]

theorem readString_plain (read cs rest : List Char)
    (plain : ∀ c ∈ cs, c ≠ '"' ∧ c ≠ '\\' ∧ isNewline c = false) :
    readString '"' read (cs ++ '"' :: rest) =
      (.quoted (String.ofList (read.reverse ++ cs.map nulReplaced)), rest) := by
  induction cs generalizing read with
  | nil =>
      rw [List.nil_append, readString.eq_def]
      simp
  | cons c cs ih =>
      obtain ⟨notQuote, notBackslash, sameLine⟩ := plain c List.mem_cons_self
      rw [List.cons_append, readString.eq_def]
      simp only [notQuote, if_false, sameLine, Bool.false_eq_true, notBackslash]
      rw [ih (nulReplaced c :: read) (fun d member => plain d (List.mem_cons_of_mem c member))]
      simp

theorem lexemes_quoted (cs rest : List Char)
    (plain : ∀ c ∈ cs, c ≠ '"' ∧ c ≠ '\\' ∧ isNewline c = false) :
    lexemes ('"' :: (cs ++ ['"']) ++ rest) =
      ⟨.quoted (String.ofList (cs.map nulReplaced)), '"' :: (cs ++ ['"'])⟩ :: lexemes rest := by
  apply lexemes_cons
  have read := readString_plain [] cs rest plain
  rw [List.append_assoc, List.singleton_append]
  exact read

end StyleLayers.Css
