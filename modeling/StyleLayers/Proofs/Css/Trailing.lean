import StyleLayers.Proofs.Css.Boundary

/-!
The last character of an identifier. An escape by code ends in a space, which can be left out at the
end of the text; any other white space at the end belongs to the name.
-/

namespace StyleLayers.Css

theorem escapedStart_concat (cs : List Char) (c : Char) (nonempty : cs ≠ []) :
    escapedStart (cs ++ [c]) = escapedStart cs ++ escapedChar c := by
  cases cs with
  | nil => exact absurd rfl nonempty
  | cons d ds =>
      by_cases digit : isAsciiDigit d <;> simp [escapedStart, digit]

inductive LastWritten (c : Char) : List Char → Prop where
  | inside : LastWritten c (escapedChar c)
  | digit (isDigit : isAsciiDigit c = true) : LastWritten c (codeEscape c)
  | hyphen (isHyphen : c = '-') : LastWritten c ['\\', '-']

theorem lastWritten_start (c : Char) : LastWritten c (escapedStart [c]) := by
  by_cases digit : isAsciiDigit c
  · have shape : escapedStart [c] = codeEscape c := by simp [escapedStart, digit]
    rw [shape]
    exact .digit digit
  · have shape : escapedStart [c] = escapedChar c := by simp [escapedStart, digit]
    rw [shape]
    exact .inside

theorem escaped_hyphen (c : Char) (cs : List Char) (notHyphen : c ≠ '-') :
    escaped ('-' :: c :: cs) = '-' :: escapedStart (c :: cs) := by
  simp [escaped, notHyphen]

theorem escaped_start (c : Char) (cs : List Char) (notHyphen : c ≠ '-') :
    escaped (c :: cs) = escapedStart (c :: cs) := by
  simp [escaped, notHyphen]

theorem escaped_concat (cs : List Char) (c : Char) : ∃ front last : List Char,
    escaped (cs ++ [c]) = front ++ last ∧ LastWritten c last ∧
      ∀ tail, readName (front ++ tail) =
        (cs.map nulReplaced ++ (readName tail).1, (readName tail).2) := by
  cases cs with
  | nil =>
      by_cases hyphen : c = '-'
      · subst hyphen
        exact ⟨[], ['\\', '-'], rfl, .hyphen rfl, fun _ => rfl⟩
      · exact ⟨[], escapedStart [c], escaped_start c [] hyphen, lastWritten_start c, fun _ => rfl⟩
  | cons d ds =>
      by_cases hyphen : d = '-'
      · subst hyphen
        cases ds with
        | nil =>
            by_cases double : c = '-'
            · subst double
              exact ⟨['-'], ['-'], rfl, .inside, readName_hyphen⟩
            · exact ⟨['-'], escapedStart [c], escaped_hyphen c [] double, lastWritten_start c,
                readName_hyphen⟩
        | cons e es =>
            by_cases double : e = '-'
            · subst double
              refine ⟨'-' :: '-' :: es.flatMap escapedChar, escapedChar c, ?_, .inside, ?_⟩
              · simp [escaped]
              · intro tail
                rw [List.cons_append, List.cons_append, readName_hyphen, readName_hyphen,
                  readName_escapedChars]
                rfl
            · refine ⟨'-' :: escapedStart (e :: es), escapedChar c, ?_, .inside, ?_⟩
              · have concat := escapedStart_concat (e :: es) c (by simp)
                rw [List.cons_append, List.cons_append, escaped_hyphen e _ double,
                  ← List.cons_append, concat, List.cons_append]
              · intro tail
                rw [List.cons_append, readName_hyphen, readName_escapedStart]
                rfl
      · refine ⟨escapedStart (d :: ds), escapedChar c, ?_, .inside, ?_⟩
        · have concat := escapedStart_concat (d :: ds) c (by simp)
          rw [List.cons_append, escaped_start d _ hyphen, ← List.cons_append, concat]
        · intro tail
          exact readName_escapedStart (d :: ds) tail

/-- What a name may end with to keep its end when white space is cut off: the space and the white
space beyond ASCII are not escaped by code. -/
def KeepsEnd (c : Char) : Prop := c ≠ ' ' ∧ (isAscii c = true ∨ Text.isBlank c = false)

instance (c : Char) : Decidable (KeepsEnd c) :=
  inferInstanceAs (Decidable (c ≠ ' ' ∧ (isAscii c = true ∨ Text.isBlank c = false)))

theorem trimEnd_visible (cs : List Char) (c : Char) (visible : Text.isBlank c = false) :
    Text.trimEnd (cs ++ [c]) = cs ++ [c] := by
  simp [Text.trimEnd, visible]

theorem trimEnd_space (cs : List Char) : Text.trimEnd (cs ++ [' ']) = Text.trimEnd cs := by
  have blank : Text.isBlank ' ' = true := by decide
  simp [Text.trimEnd, blank]

theorem mem_trimEnd (c : Char) (cs : List Char) (member : c ∈ Text.trimEnd cs) : c ∈ cs := by
  have inside := (List.dropWhile_sublist Text.isBlank).subset (List.mem_reverse.mp member)
  exact List.mem_reverse.mp inside

theorem trimEnd_cons (c : Char) (cs : List Char) :
    Text.trimEnd (c :: cs) =
      if Text.isBlank c = true ∧ Text.trimEnd cs = [] then [] else c :: Text.trimEnd cs := by
  simp only [Text.trimEnd, List.reverse_cons, List.dropWhile_append, List.reverse_eq_nil_iff]
  by_cases none : cs.reverse.dropWhile Text.isBlank = []
  · by_cases blank : Text.isBlank c <;> simp [none, blank]
  · simp [none, List.isEmpty_iff]

theorem trimEnd_visible_cons (c : Char) (cs : List Char) (visible : Text.isBlank c = false) :
    Text.trimEnd (c :: cs) = c :: Text.trimEnd cs := by
  rw [trimEnd_cons, if_neg (by simp [visible])]

theorem trim_visible_cons (c : Char) (cs : List Char) (visible : Text.isBlank c = false) :
    Text.trim (c :: cs) = c :: Text.trimEnd cs := by
  have start : Text.trimStart (c :: cs) = c :: cs := by simp [Text.trimStart, visible]
  rw [Text.trim, start, trimEnd_visible_cons c cs visible]

theorem trimEnd_append (cs ds : List Char) (visible : ∀ c ∈ cs, Text.isBlank c = false) :
    Text.trimEnd (cs ++ ds) = cs ++ Text.trimEnd ds := by
  induction cs with
  | nil => rfl
  | cons c cs ih =>
      rw [List.cons_append, trimEnd_visible_cons c _ (visible c List.mem_cons_self),
        ih fun d member => visible d (List.mem_cons_of_mem c member)]
      rfl

theorem code_digits_concat (n : Nat) (ascii : n < 128) : ∃ digits d,
    Nat.toDigits 16 n = digits ++ [d] ∧ Text.isBlank d = false := by
  obtain ⟨nonempty, hex, _, _⟩ := code_digits n ascii
  refine ⟨_, _, (List.dropLast_append_getLast nonempty).symm, ?_⟩
  have last := hex _ (List.getLast_mem nonempty)
  rw [isHexDigit_iff] at last
  by_contra blank
  simp only [Text.isBlank, Bool.not_eq_false, Bool.or_eq_true, Bool.and_eq_true,
    decide_eq_true_eq, beq_iff_eq] at blank
  omega

theorem trimEnd_codeEscape (front : List Char) (c : Char) (ascii : c.toNat < 128) :
    Text.trimEnd (front ++ codeEscape c) = front ++ '\\' :: Nat.toDigits 16 c.toNat := by
  obtain ⟨digits, d, shape, visible⟩ := code_digits_concat c.toNat ascii
  have spaced : front ++ codeEscape c = front ++ '\\' :: Nat.toDigits 16 c.toNat ++ [' '] := by
    simp [codeEscape]
  have ended : front ++ '\\' :: Nat.toDigits 16 c.toNat = front ++ '\\' :: digits ++ [d] := by
    simp [shape]
  rw [spaced, trimEnd_space, ended, trimEnd_visible _ d visible]

theorem readName_code (c : Char) (ascii : c.toNat < 128) :
    readName ('\\' :: Nat.toDigits 16 c.toNat) = ([nulReplaced c], []) := by
  have escape := readEscape_code c [] ascii (by simp)
  rw [List.append_nil] at escape
  have sameLine := code_sameLine c [] ascii
  rw [List.append_nil] at sameLine
  rw [readName_escape _ sameLine, escape]
  simp [dropOneSpace, readName]

structure Kept (front last kept : List Char) (c : Char) : Prop where
  trimmed : Text.trimEnd (front ++ last) = front ++ kept
  reads : readName kept = ([nulReplaced c], [])
  shape : kept = last ∨ (last = kept ++ [' '] ∧ 2 ≤ kept.length)

theorem kept_code (front : List Char) (c : Char) (ascii : c.toNat < 128) :
    Kept front (codeEscape c) ('\\' :: Nat.toDigits 16 c.toNat) c where
  trimmed := trimEnd_codeEscape front c ascii
  reads := readName_code c ascii
  shape := by
    have nonempty := List.length_pos_iff.mpr (code_digits c.toNat ascii).1
    refine Or.inr ⟨by simp [codeEscape], ?_⟩
    rw [List.length_cons]
    omega

theorem escapedChar_visible (c : Char) (keeps : KeepsEnd c)
    (noCode : ¬(c.toNat < 0x20 ∨ c = '\x7f') ∨ c = '\x00') :
    ∃ before d, escapedChar c = before ++ [d] ∧ Text.isBlank d = false := by
  have visible (ascii : isAscii c = true) (high : 32 < c.toNat) : Text.isBlank c = false := by
    by_contra blank
    have low := blank_ascii c ascii (by simpa using blank)
    omega
  unfold escapedChar
  split
  · next kept =>
    refine ⟨[], c, rfl, ?_⟩
    rcases keeps.2 with ascii | shown
    · apply visible ascii
      simp only [Bool.or_eq_true, isAsciiLetter_iff, isAsciiDigit_iff, decide_eq_true_eq, ascii,
        Bool.not_true, Bool.false_eq_true, or_false] at kept
      rcases kept with ((letter | digit) | rfl) | rfl
      · omega
      · omega
      · decide
      · decide
    · exact shown
  · next special =>
    have ascii : isAscii c = true := by
      by_contra outside
      exact special (by simp [outside])
    split
    · exact ⟨[], replacement, rfl, by decide⟩
    · next notNul =>
      have high : ¬(c.toNat < 0x20 ∨ c = '\x7f') := by tauto
      rw [if_neg (by simpa using high)]
      refine ⟨['\\'], c, rfl, visible ascii ?_⟩
      have notSpace : c.toNat ≠ 32 := by
        intro space
        exact keeps.1 (Char.toNat_inj.mp space)
      omega

theorem escapedChar_control (c : Char) (control : c.toNat < 0x20 ∨ c = '\x7f')
    (notNul : c ≠ '\x00') : escapedChar c = codeEscape c := by
  have special :
      ¬(isAsciiLetter c || isAsciiDigit c || c = '_' || c = '-' || !isAscii c) = true := by
    rcases control with low | rfl
    · intro kept
      simp only [Bool.or_eq_true, isAsciiLetter_iff, isAsciiDigit_iff, decide_eq_true_eq, isAscii,
        Bool.not_eq_true', decide_eq_false_iff_not] at kept
      rcases kept with (((letter | digit) | rfl) | rfl) | outside
      · omega
      · omega
      · exact absurd low (by decide)
      · exact absurd low (by decide)
      · omega
    · decide
  rw [escapedChar, if_neg special, if_neg notNul, if_pos (by simpa using control)]

/-- White space beyond ASCII is not escaped, so at the end of a name it would be cut off. -/
def EndsInName (c : Char) : Prop := isAscii c = true ∨ Text.isBlank c = false

instance (c : Char) : Decidable (EndsInName c) :=
  inferInstanceAs (Decidable (isAscii c = true ∨ Text.isBlank c = false))

/-- The end of an identifier whose last character is `c`: an escaped space, an escape by code, or
something to be seen that is read as `c`. -/
inductive WrittenEnd (c : Char) : List Char → Prop where
  | space (isSpace : c = ' ') : WrittenEnd c ['\\', ' ']
  | code (ascii : c.toNat < 128) (notSpace : c ≠ ' ') : WrittenEnd c (codeEscape c)
  | visible (before : List Char) (d : Char) (notSpace : c ≠ ' ') (shown : Text.isBlank d = false)
      (reads : ∀ tail, readName (before ++ [d] ++ tail) =
        (nulReplaced c :: (readName tail).1, (readName tail).2)) : WrittenEnd c (before ++ [d])

theorem writtenEnd (c : Char) (last : List Char) (written : LastWritten c last)
    (ends : EndsInName c) : WrittenEnd c last := by
  cases written with
  | digit isDigit =>
      rw [isAsciiDigit_iff] at isDigit
      refine .code (by omega) ?_
      rintro rfl
      exact absurd isDigit (by decide)
  | hyphen isHyphen =>
      subst isHyphen
      exact .visible ['\\'] '-' (by decide) (by decide) readName_escapedHyphen
  | inside =>
      by_cases space : c = ' '
      · subst space
        exact .space rfl
      by_cases coded : (c.toNat < 0x20 ∨ c = '\x7f') ∧ c ≠ '\x00'
      · rw [escapedChar_control c coded.1 coded.2]
        refine .code ?_ space
        rcases coded.1 with low | rfl
        · omega
        · decide
      · obtain ⟨before, d, shape, shown⟩ := escapedChar_visible c ⟨space, ends⟩ (by tauto)
        have reads := readName_escapedChar c
        rw [shape] at reads ⊢
        exact .visible before d space shown reads

theorem kept_written (front last : List Char) (c : Char) (written : LastWritten c last)
    (keeps : KeepsEnd c) : ∃ kept, Kept front last kept c := by
  cases writtenEnd c last written keeps.2 with
  | space isSpace => exact absurd isSpace keeps.1
  | code ascii _ => exact ⟨_, kept_code front c ascii⟩
  | visible before d _ shown reads =>
      refine ⟨before ++ [d], ?_, ?_, Or.inl rfl⟩
      · rw [← List.append_assoc, trimEnd_visible _ d shown]
      · have read := reads []
        rwa [List.append_nil, stopsName_nil] at read

theorem startsIdent_append (a b : Char) (cs tail : List Char) :
    startsIdent (a :: b :: cs ++ tail) = startsIdent (a :: b :: cs) := by
  by_cases hyphen : a = '-'
  · subst hyphen
    rfl
  · by_cases backslash : a = '\\'
    · subst backslash
      rfl
    · simp [startsIdent, hyphen]

theorem trimEnd_escaped (cs : List Char) (c : Char) (keeps : KeepsEnd c) :
    startsIdent (Text.trimEnd (escaped (cs ++ [c]))) = true ∧
      readName (Text.trimEnd (escaped (cs ++ [c]))) = ((cs ++ [c]).map nulReplaced, []) := by
  obtain ⟨front, last, whole, written, reads⟩ := escaped_concat cs c
  obtain ⟨kept, part⟩ := kept_written front last c written keeps
  have starts := escaped_startsIdent (cs ++ [c]) [] (by simp)
  rw [List.append_nil, whole] at starts
  rw [whole, part.trimmed]
  constructor
  · rcases part.shape with same | ⟨spaced, long⟩
    · rwa [same]
    · rw [spaced, ← List.append_assoc] at starts
      have two : 2 ≤ (front ++ kept).length := by
        rw [List.length_append]
        omega
      obtain ⟨a, b, rest, shape⟩ : ∃ a b rest, front ++ kept = a :: b :: rest := by
        match front ++ kept, two with
        | a :: b :: rest, _ => exact ⟨a, b, rest, rfl⟩
      rwa [shape, startsIdent_append, ← shape] at starts
  · rw [reads, part.reads, List.map_append]
    rfl

end StyleLayers.Css
