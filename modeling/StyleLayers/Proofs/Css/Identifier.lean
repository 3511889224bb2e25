import StyleLayers.Css.Lexer
import StyleLayers.Text.Blank
import Mathlib.Tactic

/-!
Names as the tokenizer reads them: where a name stops, what an escape stands for, and that any text
written as an identifier is read back as one identifier token.
-/

namespace StyleLayers.Css

/-- What holds of the characters of a text is decided on these alone, not on all characters. -/
instance decidableEach (p : Char → Prop) [DecidablePred p] (cs : List Char) :
    Decidable (∀ c ∈ cs, p c) := List.decidableBAll p cs

instance decidableEach? (p : Char → Prop) [DecidablePred p] (o : Option Char) :
    Decidable (∀ c ∈ o, p c) :=
  match o with
  | none => .isTrue nofun
  | some d => decidable_of_iff (p d) (by simp)

theorem char_le_iff (a b : Char) : a ≤ b ↔ a.toNat ≤ b.toNat := by
  rw [Char.le_def, UInt32.le_iff_toNat_le]
  rfl

theorem isAsciiDigit_iff (c : Char) : isAsciiDigit c = true ↔ 48 ≤ c.toNat ∧ c.toNat ≤ 57 := by
  simp only [isAsciiDigit, Bool.and_eq_true, decide_eq_true_eq, char_le_iff]
  rfl

theorem isAsciiLetter_iff (c : Char) :
    isAsciiLetter c = true ↔ (97 ≤ c.toNat ∧ c.toNat ≤ 122) ∨ (65 ≤ c.toNat ∧ c.toNat ≤ 90) := by
  simp only [isAsciiLetter, Bool.or_eq_true, Bool.and_eq_true, decide_eq_true_eq, char_le_iff]
  rfl

theorem isHexDigit_iff (c : Char) :
    isHexDigit c = true ↔ ((48 ≤ c.toNat ∧ c.toNat ≤ 57) ∨ (97 ≤ c.toNat ∧ c.toNat ≤ 102)) ∨
      (65 ≤ c.toNat ∧ c.toNat ≤ 70) := by
  simp only [isHexDigit, isAsciiDigit, Bool.or_eq_true, Bool.and_eq_true, decide_eq_true_eq,
    char_le_iff]
  rfl

theorem nameStart_not_digit (c : Char) (starts : isNameStart c = true) :
    isAsciiDigit c = false := by
  by_contra digit
  rw [Bool.not_eq_false, isAsciiDigit_iff] at digit
  simp only [isNameStart, isAscii, Bool.or_eq_true, isAsciiLetter_iff, decide_eq_true_eq,
    Bool.not_eq_true', decide_eq_false_iff_not] at starts
  rcases starts with ((letter | rfl) | rfl) | outside
  · omega
  · exact absurd digit (by decide)
  · exact absurd digit (by decide)
  · omega

theorem nameStart_nameChar (c : Char) (starts : isNameStart c = true) : isNameChar c = true := by
  simp [isNameChar, starts]

theorem newline_below (c : Char) (newline : isNewline c = true) : c.toNat < 0x20 := by
  simp only [isNewline, Bool.or_eq_true, decide_eq_true_eq] at newline
  rcases newline with (rfl | rfl) | rfl <;> decide

theorem space_isBlank (c : Char) (space : isSpace c = true) : Text.isBlank c = true := by
  simp only [isSpace, isNewline, Bool.or_eq_true, decide_eq_true_eq] at space
  rcases space with (rfl | rfl) | (rfl | rfl) | rfl <;> decide

theorem blank_ascii (c : Char) (ascii : isAscii c = true) (blank : Text.isBlank c = true) :
    c.toNat ≤ 32 := by
  simp only [Text.isBlank, Bool.or_eq_true, Bool.and_eq_true, decide_eq_true_eq, beq_iff_eq]
    at blank
  simp only [isAscii, decide_eq_true_eq] at ascii
  omega

theorem map_nulReplaced (cs : List Char) (noNul : '\x00' ∉ cs) : cs.map nulReplaced = cs := by
  apply (List.map_congr_left ?_).trans (List.map_id cs)
  intro c member
  have notNul : c ≠ '\x00' := by
    rintro rfl
    exact noNul member
  simp [nulReplaced, notNul]

/-- A text that continues no name in front of it. -/
def StopsName (rest : List Char) : Prop := readName rest = ([], rest)

theorem stopsName_nil : StopsName [] := by rw [StopsName, readName]

theorem stopsName_cons (c : Char) (rest : List Char) (outside : isNameChar c = false)
    (noEscape : c ≠ '\\') : StopsName (c :: rest) := by
  simp [StopsName, readName, outside, noEscape]

theorem stopsName_head (rest : List Char)
    (outside : ∀ c ∈ rest.head?, isNameChar c = false ∧ c ≠ '\\') : StopsName rest := by
  cases rest with
  | nil => exact stopsName_nil
  | cons c rest => exact stopsName_cons c rest (outside c rfl).1 (outside c rfl).2

theorem readName_nameChar (c : Char) (cs : List Char) (inside : isNameChar c = true) :
    readName (c :: cs) = (nulReplaced c :: (readName cs).1, (readName cs).2) := by
  have noEscape : c ≠ '\\' := by
    rintro rfl
    exact absurd inside (by decide)
  rw [readName]
  simp [noEscape, inside]

theorem readName_escape (cs : List Char) (sameLine : startsWithNewline cs = false) :
    readName ('\\' :: cs) =
      ((readEscape cs).1 :: (readName (readEscape cs).2).1, (readName (readEscape cs).2).2) := by
  rw [readName]
  simp [sameLine]

theorem readName_nameChars (cs rest : List Char) (inside : ∀ c ∈ cs, isNameChar c = true)
    (stops : StopsName rest) : readName (cs ++ rest) = (cs.map nulReplaced, rest) := by
  induction cs with
  | nil => exact stops
  | cons c cs ih =>
      rw [List.cons_append, readName_nameChar c _ (inside c List.mem_cons_self),
        ih (fun d member => inside d (List.mem_cons_of_mem c member))]
      rfl

theorem readEscape_hex (digits rest : List Char) (nonempty : digits ≠ [])
    (hex : ∀ d ∈ digits, isHexDigit d = true) (short : digits.length ≤ 6)
    (ends : ∀ d ∈ rest.head?, isHexDigit d = false) :
    readEscape (digits ++ rest) = (charOfCode (hexValue digits), dropOneSpace rest) := by
  cases digits with
  | nil => exact absurd rfl nonempty
  | cons d ds =>
      have first : isHexDigit d = true := hex d List.mem_cons_self
      have others : ∀ e ∈ ds, isHexDigit e = true := fun e member =>
        hex e (List.mem_cons_of_mem d member)
      have fits : ds.length ≤ 5 := Nat.le_of_succ_le_succ short
      have none : (rest.take (5 - ds.length)).takeWhile isHexDigit = [] := by
        cases rest with
        | nil => simp
        | cons e rest =>
            have stop : isHexDigit e = false := ends e rfl
            cases 5 - ds.length <;> simp [stop]
      have taken : ((ds ++ rest).take 5).takeWhile isHexDigit = ds := by
        rw [List.take_append, List.take_of_length_le fits,
          List.takeWhile_append_of_pos others, none, List.append_nil]
      simp only [List.cons_append, readEscape, first, if_true, taken, List.drop_left]

theorem code_digits : ∀ n < 128, Nat.toDigits 16 n ≠ [] ∧
    (∀ d ∈ Nat.toDigits 16 n, isHexDigit d = true) ∧ (Nat.toDigits 16 n).length ≤ 6 ∧
      hexValue (Nat.toDigits 16 n) = n := by decide

theorem charOfCode_toNat (c : Char) : charOfCode c.toNat = nulReplaced c := by
  by_cases nul : c = '\x00'
  · subst nul
    decide
  · have positive : c.toNat ≠ 0 := by
      intro zero
      exact nul (Char.toNat_inj.mp zero)
    have valid : c.toNat.isValidChar := c.valid
    rw [charOfCode, if_pos ⟨positive, valid⟩, nulReplaced, if_neg nul, Char.ofNat_toNat]

/-- The space after the digits of a character is part of its escape, and can be left out where no
digit follows. -/
theorem readEscape_code (c : Char) (rest : List Char) (ascii : c.toNat < 128)
    (ends : ∀ d ∈ rest.head?, isHexDigit d = false) :
    readEscape (Nat.toDigits 16 c.toNat ++ rest) = (nulReplaced c, dropOneSpace rest) := by
  obtain ⟨nonempty, hex, short, value⟩ := code_digits c.toNat ascii
  rw [readEscape_hex _ rest nonempty hex short ends, value, charOfCode_toNat]

theorem code_sameLine (c : Char) (rest : List Char) (ascii : c.toNat < 128) :
    startsWithNewline (Nat.toDigits 16 c.toNat ++ rest) = false := by
  obtain ⟨nonempty, hex, _, _⟩ := code_digits c.toNat ascii
  cases digits : Nat.toDigits 16 c.toNat with
  | nil => exact absurd digits nonempty
  | cons d ds =>
      have first : isHexDigit d = true := hex d (by simp [digits])
      rw [isHexDigit_iff] at first
      by_contra newline
      have below := newline_below d (by simpa [startsWithNewline] using newline)
      omega

theorem readName_codeEscape (c : Char) (rest : List Char) (ascii : c.toNat < 128) :
    readName (codeEscape c ++ rest) = (nulReplaced c :: (readName rest).1, (readName rest).2) := by
  have space : dropOneSpace (' ' :: rest) = rest := by simp [dropOneSpace, isSpace]
  have noDigit : ∀ d ∈ (' ' :: rest).head?, isHexDigit d = false := by
    intro d member
    cases member
    decide
  have escape := readEscape_code c (' ' :: rest) ascii noDigit
  have shape : codeEscape c ++ rest = '\\' :: (Nat.toDigits 16 c.toNat ++ ' ' :: rest) := by
    simp [codeEscape]
  rw [shape, readName_escape _ (code_sameLine c _ ascii), escape, space]

theorem keptChar_nameChar (c : Char)
    (kept : (isAsciiLetter c || isAsciiDigit c || c = '_' || c = '-' || !isAscii c) = true) :
    isNameChar c = true := by
  simp only [isNameChar, isNameStart, Bool.or_eq_true] at kept ⊢
  tauto

theorem readName_escapedChar (c : Char) (rest : List Char) :
    readName (escapedChar c ++ rest) =
      (nulReplaced c :: (readName rest).1, (readName rest).2) := by
  unfold escapedChar
  split
  · next kept => exact readName_nameChar c rest (keptChar_nameChar c kept)
  · next special =>
    have ascii : c.toNat < 128 := by
      by_contra outside
      exact special (by simp [isAscii, outside])
    split
    · next nul =>
      subst nul
      exact readName_nameChar replacement rest (by decide)
    · split
      · exact readName_codeEscape c rest ascii
      · next _ visible =>
        have notHex : isHexDigit c = false := by
          by_contra hex
          rw [Bool.not_eq_false, isHexDigit_iff] at hex
          apply special
          simp only [Bool.or_eq_true, isAsciiLetter_iff, isAsciiDigit_iff]
          omega
        have sameLine : isNewline c = false := by
          by_contra newline
          exact visible (by simp [newline_below c (by simpa using newline)])
        change readName ('\\' :: c :: rest) = _
        rw [readName_escape _ (by simpa [startsWithNewline] using sameLine)]
        simp [readEscape, notHex]

theorem readName_escapedChars (cs tail : List Char) :
    readName (cs.flatMap escapedChar ++ tail) =
      (cs.map nulReplaced ++ (readName tail).1, (readName tail).2) := by
  induction cs with
  | nil => rfl
  | cons c cs ih =>
      rw [List.flatMap_cons, List.append_assoc, readName_escapedChar, ih]
      rfl

theorem readName_escapedStart (cs tail : List Char) :
    readName (escapedStart cs ++ tail) =
      (cs.map nulReplaced ++ (readName tail).1, (readName tail).2) := by
  cases cs with
  | nil => rfl
  | cons c cs =>
      by_cases digit : isAsciiDigit c
      · have ascii : c.toNat < 128 := by
          rw [isAsciiDigit_iff] at digit
          omega
        rw [escapedStart, if_pos digit, List.append_assoc, readName_codeEscape c _ ascii,
          readName_escapedChars cs tail]
        rfl
      · rw [escapedStart, if_neg digit]
        exact readName_escapedChars (c :: cs) tail

theorem readName_hyphen (tail : List Char) :
    readName ('-' :: tail) = ('-' :: (readName tail).1, (readName tail).2) :=
  readName_nameChar '-' tail (by decide)

theorem readName_escapedHyphen (tail : List Char) :
    readName ('\\' :: '-' :: tail) = ('-' :: (readName tail).1, (readName tail).2) := by
  have plain : readEscape ('-' :: tail) = ('-', tail) := rfl
  rw [readName_escape _ (by rfl), plain]

theorem readName_escaped (cs rest : List Char) (stops : StopsName rest) :
    readName (escaped cs ++ rest) = (cs.map nulReplaced, rest) := by
  have whole : readName (escaped cs ++ rest) =
      (cs.map nulReplaced ++ (readName rest).1, (readName rest).2) := by
    unfold escaped
    split
    · next tail =>
      rw [List.cons_append, List.cons_append, readName_hyphen, readName_hyphen,
        readName_escapedChars]
      rfl
    · exact readName_escapedHyphen rest
    · next tail _ _ =>
      rw [List.cons_append, readName_hyphen, readName_escapedStart]
      rfl
    · exact readName_escapedStart cs rest
  rw [whole, stops, List.append_nil]

theorem escaped_injective (cs ds : List Char) (noNul : '\x00' ∉ cs) (noNulOther : '\x00' ∉ ds)
    (same : escaped cs = escaped ds) : cs = ds := by
  have first := readName_escaped cs [] stopsName_nil
  have second := readName_escaped ds [] stopsName_nil
  rw [map_nulReplaced cs noNul] at first
  rw [map_nulReplaced ds noNulOther, ← same, first] at second
  exact congrArg Prod.fst second

def OpensName (cs : List Char) : Prop :=
  ∃ c tail, cs = c :: tail ∧ (isNameStart c = true ∨ (c = '\\' ∧ startsWithNewline tail = false))

theorem opensName_startsIdent (cs : List Char) (opens : OpensName cs) : startsIdent cs = true := by
  obtain ⟨c, tail, rfl, start | ⟨rfl, sameLine⟩⟩ := opens
  · unfold startsIdent
    split
    · next none => cases none
    · next shape =>
      cases shape
      exact absurd start (by decide)
    · next shape =>
      cases shape
      exact absurd start (by decide)
    · next shape =>
      cases shape
      exact start
  · simp [startsIdent, sameLine]

theorem hyphen_startsIdent (cs : List Char) (opens : OpensName cs) :
    startsIdent ('-' :: cs) = true := by
  obtain ⟨c, tail, rfl, start | ⟨rfl, _⟩⟩ := opens
  · simp [startsIdent, start]
  · simp [startsIdent]

theorem escapedChar_opensName (c : Char) (rest : List Char) (notDigit : isAsciiDigit c = false)
    (notHyphen : c ≠ '-') : OpensName (escapedChar c ++ rest) := by
  unfold escapedChar
  split
  · next kept =>
    refine ⟨c, rest, rfl, Or.inl ?_⟩
    simp only [isNameStart, Bool.or_eq_true, decide_eq_true_eq, notDigit, notHyphen] at kept ⊢
    tauto
  · next special =>
    have ascii : c.toNat < 128 := by
      by_contra outside
      exact special (by simp [isAscii, outside])
    split
    · exact ⟨replacement, rest, rfl, Or.inl (by decide)⟩
    · split
      · refine ⟨'\\', Nat.toDigits 16 c.toNat ++ ([' '] ++ rest), ?_, Or.inr ⟨rfl, ?_⟩⟩
        · simp [codeEscape]
        · exact code_sameLine c _ ascii
      · next _ visible =>
        refine ⟨'\\', c :: rest, rfl, Or.inr ⟨rfl, ?_⟩⟩
        by_contra newline
        exact visible (by simp [newline_below c (by simpa [startsWithNewline] using newline)])

theorem escapedStart_opensName (cs rest : List Char) (nonempty : cs ≠ [])
    (notHyphen : ∀ tail, cs ≠ '-' :: tail) : OpensName (escapedStart cs ++ rest) := by
  cases cs with
  | nil => exact absurd rfl nonempty
  | cons c cs =>
      by_cases digit : isAsciiDigit c
      · have ascii : c.toNat < 128 := by
          rw [isAsciiDigit_iff] at digit
          omega
        rw [escapedStart, if_pos digit]
        refine ⟨'\\', Nat.toDigits 16 c.toNat ++ ([' '] ++ (cs.flatMap escapedChar ++ rest)), ?_,
          Or.inr ⟨rfl, code_sameLine c _ ascii⟩⟩
        simp [codeEscape]
      · rw [escapedStart, if_neg digit, List.flatMap_cons, List.append_assoc]
        refine escapedChar_opensName c _ (by simpa using digit) ?_
        rintro rfl
        exact notHyphen cs rfl

theorem escaped_startsIdent (cs rest : List Char) (nonempty : cs ≠ []) :
    startsIdent (escaped cs ++ rest) = true := by
  unfold escaped
  split
  · simp [startsIdent]
  · exact opensName_startsIdent _ ⟨'\\', '-' :: rest, rfl, Or.inr ⟨rfl, rfl⟩⟩
  · next tail notDouble notSingle =>
    refine hyphen_startsIdent _ (escapedStart_opensName tail rest ?_ ?_)
    · rintro rfl
      exact notSingle rfl
    · rintro inner rfl
      exact notDouble inner rfl
  · next _ _ notHyphen =>
    exact opensName_startsIdent _ (escapedStart_opensName cs rest nonempty notHyphen)

end StyleLayers.Css
