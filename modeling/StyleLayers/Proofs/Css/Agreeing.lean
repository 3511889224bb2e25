import StyleLayers.Proofs.Css.Beside

/-!
Names and URLs read from two texts side by side. Both readings are the same, or the first one goes
on over the comma.
-/

namespace StyleLayers.Css.Cut

/-- The readings are the same as far as the comma, or the first one goes on over it. -/
def Agree {α : Type} (k : Cut) (r r' : α × List Char) : Prop :=
  (r.1 = r'.1 ∧ k.Beside r.2 r'.2) ∨ r.2.length ≤ k.behind.length

variable {α β : Type} {k : Cut} {x x' : List Char}

namespace Agree

theorem here (value : α) (beside : k.Beside x x') : k.Agree (value, x) (value, x') :=
  Or.inl ⟨rfl, beside⟩

theorem beyond {r : α × List Char} (r' : α × List Char) (past : r.2 <:+ k.behind) : k.Agree r r' :=
  Or.inr past.length_le

theorem bind {r r' : α × List Char} (next : α → List Char → β × List Char) (agree : k.Agree r r')
    (same : ∀ value y y', k.Beside y y' → k.Agree (next value y) (next value y'))
    (shrinks : ∀ value y, (next value y).2 <:+ y) : k.Agree (next r.1 r.2) (next r'.1 r'.2) := by
  rcases agree with ⟨values, beside⟩ | beyond
  · rw [values]
    exact same _ _ _ beside
  · exact Or.inr ((shrinks r.1 r.2).length_le.trans beyond)

theorem map {r r' : α × List Char} (f : α → β) (agree : k.Agree r r') :
    k.Agree (f r.1, r.2) (f r'.1, r'.2) :=
  agree.bind (fun value y => (f value, y)) (fun value _ _ => here (f value))
    fun _ _ => List.suffix_rfl

end Agree

theorem readName_break (cs : List Char) (broken : startsWithNewline cs = true) :
    readName ('\\' :: cs) = ([], '\\' :: cs) := by
  rw [readName]
  simp [broken]

theorem readName_agree (beside : k.Beside x x') : k.Agree (readName x) (readName x') := by
  induction x using readName.induct generalizing x' with
  | case1 =>
    obtain ⟨_, _, _, _, shape, _⟩ := beside.heads
    cases shape
  | case2 rest broken =>
    rw [readName_break rest broken]
    rcases beside.backslash with ⟨c, z, z', rfl, rfl, _⟩ | ⟨rfl, _⟩
    · rw [readName_break (c :: z') broken]
      exact .here [] beside
    · cases broken
  | case3 rest sameLine first =>
    rename_i ih
    have whole : startsWithNewline rest = false := by simpa using sameLine
    rw [readName_escape rest whole]
    rcases beside.backslash with ⟨c, z, z', rfl, rfl, after⟩ | ⟨rfl, rfl⟩
    · obtain ⟨same, left⟩ := after.readEscape c
      rw [readName_escape (c :: z') whole, ← same]
      exact (ih left).map ((readEscape (c :: z)).1 :: ·)
    · exact .beyond _ (readName_suffix k.behind)
  | case4 c rest noEscape inside ih =>
    obtain ⟨y', rfl, after⟩ := beside.tail (free_of isNameChar (by decide) c inside)
    rw [readName_nameChar c rest inside, readName_nameChar c y' inside]
    exact (ih after).map (nulReplaced c :: ·)
  | case5 c rest noEscape outside =>
    have nameless : isNameChar c = false := by simpa using outside
    have stops : StopsName x' := by
      obtain ⟨d, _, d', y', shape, rfl, same⟩ := beside.heads
      cases shape
      rcases same with rfl | ⟨_, rfl⟩
      · exact stopsName_cons c y' nameless noEscape
      · exact stopsName_cons ',' y' (by decide) (by decide)
    rw [stops, stopsName_cons c rest nameless noEscape]
    exact .here [] beside

theorem startsIdent_cut (c : Char) (cs : List Char) (cut : c ∈ cutChars) (noEscape : c ≠ '\\') :
    startsIdent (c :: cs) = false ∧ startsIdent ('-' :: c :: cs) = false := by
  simp only [cutChars, List.mem_cons, List.not_mem_nil, or_false] at cut
  rcases cut with rfl | rfl | rfl | rfl | rfl | rfl | rfl
  all_goals first | exact absurd rfl noEscape | exact ⟨rfl, rfl⟩

theorem startsIdent_other (c : Char) (cs : List Char) (noHyphen : c ≠ '-') (noEscape : c ≠ '\\') :
    startsIdent (c :: cs) = isNameStart c := by
  unfold startsIdent
  split
  · next shape => cases shape
  · next shape =>
    cases shape
    exact absurd rfl noHyphen
  · next shape =>
    cases shape
    exact absurd rfl noEscape
  · next shape =>
    cases shape
    rfl

theorem Beside.startsIdent (beside : k.Beside x x') : startsIdent x = startsIdent x' := by
  have stop (c : Char) (cs : List Char) (space : isSpace c = true) :=
    startsIdent_cut c cs (space_cut c space) (space_ne space '\\' rfl)
  cases beside with
  | comma left part shape =>
      subst shape
      cases left with
      | nil => rfl
      | cons c left => exact (stop c _ (k.blank c (part.subset List.mem_cons_self))).1
  | @other y y' c plain after =>
      by_cases hyphen : c = '-'
      · subst hyphen
        obtain ⟨d, z, d', z', rfl, rfl, rfl | ⟨space, rfl⟩⟩ := after.heads
        · rfl
        · exact (stop d z space).2
      · rw [startsIdent_other c y hyphen plain, startsIdent_other c y' hyphen plain]
  | escape c after => rfl
  | escapedComma => rfl

theorem skipBadUrl_escaped (c : Char) (cs : List Char) (paired : c = ')' ∨ c = '\\') :
    skipBadUrl ('\\' :: c :: cs) = skipBadUrl cs := by
  rw [skipBadUrl, if_pos paired]

theorem skipBadUrl_single (c : Char) (cs : List Char) (single : ¬(c = ')' ∨ c = '\\')) :
    skipBadUrl ('\\' :: c :: cs) = skipBadUrl (c :: cs) := by
  rw [skipBadUrl, if_neg single]

theorem skipBadUrl_other (c : Char) (cs : List Char) (other : c ≠ '\\') :
    skipBadUrl (c :: cs) = if c = ')' then cs else skipBadUrl cs := by
  cases cs with
  | nil => simp [skipBadUrl]
  | cons d cs => simp [skipBadUrl, other]

theorem skipBadUrl_comma (rest : List Char) : skipBadUrl (',' :: rest) <:+ rest := by
  rw [skipBadUrl_other ',' rest (by decide), if_neg (by decide)]
  exact skipBadUrl_suffix rest

theorem skipBadUrl_space (c : Char) (cs : List Char) (space : isSpace c = true) :
    skipBadUrl (c :: cs) = skipBadUrl cs := by
  rw [skipBadUrl_other c cs (space_ne space '\\' rfl), if_neg (space_ne space ')' rfl)]

theorem skipBadUrl_trail (left : List Char) (part : left <:+ k.trail) :
    skipBadUrl (left ++ ',' :: k.behind) <:+ k.behind ∧
      skipBadUrl ('\\' :: (left ++ ',' :: k.behind)) <:+ k.behind := by
  induction left with
  | nil =>
      rw [List.nil_append, skipBadUrl_single ',' _ (by decide)]
      exact ⟨skipBadUrl_comma _, skipBadUrl_comma _⟩
  | cons c left ih =>
      have space := k.blank c (part.subset List.mem_cons_self)
      have single : ¬(c = ')' ∨ c = '\\') :=
        not_or.mpr ⟨space_ne space ')' rfl, space_ne space '\\' rfl⟩
      rw [List.cons_append, skipBadUrl_single c _ single, skipBadUrl_space c _ space]
      have below := (ih ((List.suffix_cons c left).trans part)).1
      exact ⟨below, below⟩

theorem skipBadUrl_further (t : Token) (beside : k.Beside x x')
    (agree : k.Agree (t, skipBadUrl x) (t, skipBadUrl x')) (c : Char) (other : c ≠ '\\') :
    k.Agree (t, skipBadUrl (c :: x)) (t, skipBadUrl (c :: x')) := by
  rw [skipBadUrl_other c x other, skipBadUrl_other c x' other]
  split
  · exact .here t beside
  · exact agree

/-- Backslashes pair up here from wherever the URL became bad, so the texts are compared with one
more character in front as well. -/
theorem skipBadUrl_agree (t : Token) (beside : k.Beside x x') :
    k.Agree (t, skipBadUrl x) (t, skipBadUrl x') ∧
      ∀ c, k.Agree (t, skipBadUrl (c :: x)) (t, skipBadUrl (c :: x')) := by
  induction beside with
  | @comma x left part shape =>
      subst shape
      obtain ⟨plainly, escaped⟩ := skipBadUrl_trail left part
      have agree : k.Agree (t, skipBadUrl (left ++ ',' :: k.behind))
          (t, skipBadUrl (',' :: k.behind')) := .beyond _ plainly
      refine ⟨agree, fun c => ?_⟩
      by_cases backslash : c = '\\'
      · subst backslash
        exact .beyond _ escaped
      · exact skipBadUrl_further t (.comma left part rfl) agree c backslash
  | @other x x' d plain after ih =>
      have agree := skipBadUrl_further t after ih.1 d plain
      refine ⟨agree, fun c => ?_⟩
      by_cases backslash : c = '\\'
      · subst backslash
        by_cases paired : d = ')' ∨ d = '\\'
        · rw [skipBadUrl_escaped d x paired, skipBadUrl_escaped d x' paired]
          exact ih.1
        · rw [skipBadUrl_single d x paired, skipBadUrl_single d x' paired]
          exact agree
      · exact skipBadUrl_further t (.other d plain after) agree c backslash
  | @escape x x' d after ih =>
      have agree : k.Agree (t, skipBadUrl ('\\' :: d :: x)) (t, skipBadUrl ('\\' :: d :: x')) := by
        by_cases paired : d = ')' ∨ d = '\\'
        · rw [skipBadUrl_escaped d x paired, skipBadUrl_escaped d x' paired]
          exact ih.1
        · rw [skipBadUrl_single d x paired, skipBadUrl_single d x' paired]
          exact ih.2 d
      refine ⟨agree, fun c => ?_⟩
      by_cases backslash : c = '\\'
      · subst backslash
        rw [skipBadUrl_escaped '\\' _ (Or.inr rfl), skipBadUrl_escaped '\\' _ (Or.inr rfl)]
        exact ih.2 d
      · exact skipBadUrl_further t (.escape d after) agree c backslash
  | escapedComma =>
      have past := skipBadUrl_comma k.behind
      have agree : k.Agree (t, skipBadUrl ('\\' :: ',' :: k.behind))
          (t, skipBadUrl ('\\' :: ',' :: k.behind')) :=
        .beyond _ (skipBadUrl_single ',' k.behind (by decide) ▸ past)
      refine ⟨agree, fun c => ?_⟩
      by_cases backslash : c = '\\'
      · subst backslash
        exact .beyond _ (skipBadUrl_escaped '\\' _ (Or.inr rfl) ▸ past)
      · exact skipBadUrl_further t .escapedComma agree c backslash

theorem readUrlEnd_cons (text : List Char) {cs rest : List Char} {c : Char}
    (shape : cs.dropWhile isSpace = c :: rest) :
    readUrlEnd text cs =
      if c = ')' then (.url (String.ofList text.reverse), rest) else (.badUrl, skipBadUrl rest) := by
  simp only [readUrlEnd, shape]

theorem readUrlEnd_trail (text left : List Char) (part : left <:+ k.trail) :
    (readUrlEnd text (left ++ ',' :: k.behind)).2 <:+ k.behind := by
  have dropped : (left ++ ',' :: k.behind).dropWhile isSpace = ',' :: k.behind := by
    rw [List.dropWhile_append_of_pos fun c member => k.blank c (part.subset member)]
    rfl
  rw [readUrlEnd_cons text dropped, if_neg (by decide)]
  exact skipBadUrl_suffix k.behind

theorem readUrlEnd_agree (text : List Char) (beside : k.Beside x x') :
    k.Agree (readUrlEnd text x) (readUrlEnd text x') := by
  have dropped := beside.dropWhile isSpace rfl rfl
  obtain ⟨c, y, c', y', shape, shape', _⟩ := dropped.heads
  rw [readUrlEnd_cons text shape, readUrlEnd_cons text shape']
  rw [shape, shape'] at dropped
  cases dropped with
  | comma left part whole =>
      cases left with
      | nil =>
          cases whole
          rw [if_neg (by decide)]
          exact .beyond _ (skipBadUrl_suffix k.behind)
      | cons d left =>
          cases whole
          have noEnd : c ≠ ')' := by
            rintro rfl
            cases k.blank ')' (part.subset List.mem_cons_self)
          rw [if_neg noEnd]
          exact .beyond _ (skipBadUrl_trail left ((List.suffix_cons c left).trans part)).1
  | other c plain after =>
      split
      · exact .here _ after
      · exact (skipBadUrl_agree _ after).1
  | escape c after => exact (skipBadUrl_agree _ after).2 c
  | escapedComma =>
      exact .beyond _ (skipBadUrl_comma k.behind)

theorem readUrlText_agree (read : List Char) (beside : k.Beside x x') :
    k.Agree (readUrlText read x) (readUrlText read x') := by
  induction read, x using readUrlText.induct generalizing x' with
  | case1 read =>
    obtain ⟨_, _, _, _, shape, _⟩ := beside.heads
    cases shape
  | case2 read rest =>
    obtain ⟨y', rfl, after⟩ := beside.tail (by decide)
    simp only [readUrlText, if_true]
    exact .here _ after
  | case3 read c rest noEnd space =>
    cases beside with
    | comma left part shape =>
        cases left with
        | nil =>
            cases shape
            cases space
        | cons d left =>
            cases shape
            have past := readUrlEnd_trail read left ((List.suffix_cons c left).trans part)
            simp only [readUrlText, noEnd, if_false, space, if_true]
            exact .beyond _ past
    | other c plain after =>
        simp only [readUrlText, noEnd, if_false, space, if_true]
        exact readUrlEnd_agree read after
    | escape => cases space
    | escapedComma => cases space
  | case4 read c rest noEnd noSpace breaker =>
    obtain ⟨y', rfl, after⟩ := beside.tail (free_of isUrlBreaker (by decide) c breaker)
    simp only [readUrlText, noEnd, if_false, noSpace, breaker, if_true]
    exact (skipBadUrl_agree _ after).1
  | case5 read rest broken noEnd noSpace noBreaker =>
    rcases beside.backslash with ⟨c, z, z', rfl, rfl, after⟩ | ⟨rfl, _⟩
    · have broken' : startsWithNewline (c :: z') = true := broken
      simp only [readUrlText, noEnd, if_false, noSpace, noBreaker, if_true, broken, broken']
      exact (skipBadUrl_agree _ after).2 c
    · cases broken
  | case6 read rest sameLine noEnd noSpace noBreaker ih =>
    rcases beside.backslash with ⟨c, z, z', rfl, rfl, after⟩ | ⟨rfl, rfl⟩
    · obtain ⟨same, left⟩ := after.readEscape c
      have sameLine' : ¬startsWithNewline (c :: z') = true := sameLine
      rw [readUrlText, if_neg noEnd, if_neg noSpace, if_neg noBreaker, if_pos rfl, if_neg sameLine,
        readUrlText, if_neg noEnd, if_neg noSpace, if_neg noBreaker, if_pos rfl, if_neg sameLine',
        ← same]
      exact ih left
    · rw [readUrlText, if_neg noEnd, if_neg noSpace, if_neg noBreaker, if_pos rfl, if_neg sameLine]
      exact .beyond _ (readUrlText_suffix _ k.behind)
  | case7 read c rest noEnd noSpace noBreaker noEscape ih =>
    have step (cs : List Char) :
        readUrlText read (c :: cs) = readUrlText (nulReplaced c :: read) cs := by
      rw [readUrlText, if_neg noEnd, if_neg noSpace, if_neg noBreaker, if_neg noEscape]
    rw [step]
    cases beside with
    | comma left part shape =>
        cases left with
        | nil =>
            cases shape
            exact .beyond _ (readUrlText_suffix _ k.behind)
        | cons d left =>
            cases shape
            exact absurd (k.blank c (part.subset List.mem_cons_self)) noSpace
    | other c plain after =>
        rw [step]
        exact ih after
    | escape => exact absurd rfl noEscape
    | escapedComma => exact absurd rfl noEscape

theorem readUrl_cons (name : String) {cs rest : List Char} {c : Char}
    (shape : cs.dropWhile isSpace = c :: rest) :
    readUrl name cs =
      if c = '"' ∨ c = '\'' then (.function name, cs)
      else if c = ')' then (.url "", rest)
      else readUrlText [] (c :: rest) := by
  simp only [readUrl, shape]

theorem readUrl_agree (name : String) (beside : k.Beside x x') :
    k.Agree (readUrl name x) (readUrl name x') := by
  have dropped := beside.dropWhile isSpace rfl rfl
  obtain ⟨c, y, c', y', shape, shape', same⟩ := dropped.heads
  rw [readUrl_cons name shape, readUrl_cons name shape']
  rw [shape, shape'] at dropped
  rcases same with rfl | ⟨space, rfl⟩
  · split
    · exact .here _ beside
    · split
      · next closing =>
        obtain ⟨z, same, after⟩ := dropped.tail (by rw [closing]; decide)
        cases same
        exact .here _ after
      · exact readUrlText_agree [] dropped
  · have noQuote : ¬(c = '"' ∨ c = '\'') :=
      not_or.mpr ⟨space_ne space '"' rfl, space_ne space '\'' rfl⟩
    rw [if_neg noQuote, if_neg (space_ne space ')' rfl), if_neg (by decide), if_neg (by decide)]
    exact readUrlText_agree [] dropped

theorem nameReading_agree (name : List Char) (beside : k.Beside x x') :
    k.Agree (nameReading name x) (nameReading name x') := by
  by_cases arguments : x.head? = some '('
  · obtain ⟨y, rfl⟩ := List.head?_eq_some_iff.mp arguments
    obtain ⟨y', rfl, after⟩ := beside.tail (by decide)
    by_cases url : isUrlName name
    · simp only [nameReading, url, if_true]
      exact readUrl_agree _ after
    · simp only [nameReading, url]
      exact .here _ after
  · have noArguments : x'.head? ≠ some '(' := fun first =>
      arguments (beside.head_same first (by decide))
    rw [nameReading_ident name x arguments, nameReading_ident name x' noArguments]
    exact .here _ beside

theorem nameReading_shrinks (name rest : List Char) : (nameReading name rest).2 <:+ rest := by
  unfold nameReading
  split
  · split
    · exact (readUrl_suffix _ _).trans (List.suffix_cons _ _)
    · exact List.suffix_cons _ _
  · exact List.suffix_rfl

theorem readIdentLike_agree (first : Char) (beside : k.Beside x x') :
    k.Agree (readIdentLike first x) (readIdentLike first x') := by
  rw [readIdentLike_eq, readIdentLike_eq]
  exact (readName_agree beside).bind (fun name rest => nameReading (first :: name) rest)
    (fun name _ _ => nameReading_agree (first :: name)) fun name => nameReading_shrinks (first :: name)

theorem readHash_cons (c : Char) (cs : List Char) :
    readHash (c :: cs) =
      if startsIdent (c :: cs) then
        (.idHash (String.ofList (readName (c :: cs)).1), (readName (c :: cs)).2)
      else if isAsciiDigit c || c = '-' then
        (.hash (String.ofList (readName (c :: cs)).1), (readName (c :: cs)).2)
      else (.delim '#', c :: cs) := by
  simp [readHash]

theorem readHash_agree (beside : k.Beside x x') : k.Agree (readHash x) (readHash x') := by
  have names := readName_agree beside
  have starts := beside.startsIdent
  obtain ⟨c, y, c', y', rfl, rfl, same⟩ := beside.heads
  have kind := same_class (fun d => isAsciiDigit d || d = '-') (by decide) same
  rw [readHash_cons, readHash_cons, ← starts, ← kind]
  split
  · exact names.map fun name => Token.idHash (String.ofList name)
  · split
    · exact names.map fun name => Token.hash (String.ofList name)
    · exact .here _ beside

theorem readAt_agree (beside : k.Beside x x') : k.Agree (readAt x) (readAt x') := by
  unfold readAt
  rw [← beside.startsIdent]
  split
  · exact (readName_agree beside).map fun name => Token.atKeyword (String.ofList name)
  · exact .here _ beside

end StyleLayers.Css.Cut
