import StyleLayers.Proofs.Selector.Plain
import StyleLayers.Proofs.Selector.Scanning
import Mathlib.Data.List.TakeWhile

/-!
Scanning plain selectors: every point in their text is in front of a class, and every comma
separates the list.
-/

namespace StyleLayers.Selector

open Css

def pointed (name cs : List Char) : List Char :=
  cs.flatMap fun c => if c = '.' then '.' :: name else [c]

theorem pointed_nil (name : List Char) : pointed name [] = [] := rfl

theorem pointed_point (name cs : List Char) :
    pointed name ('.' :: cs) = '.' :: (name ++ pointed name cs) := rfl

theorem pointed_other (name cs : List Char) (c : Char) (other : c ≠ '.') :
    pointed name (c :: cs) = c :: pointed name cs := by
  simp [pointed, other]

theorem pointed_append (name cs ds : List Char) :
    pointed name (cs ++ ds) = pointed name cs ++ pointed name ds := List.flatMap_append

theorem pointed_same (name cs : List Char) (noPoint : '.' ∉ cs) : pointed name cs = cs := by
  induction cs with
  | nil => rfl
  | cons c cs ih =>
      rw [List.mem_cons, not_or] at noPoint
      rw [pointed_other name cs c (Ne.symm noPoint.1), ih noPoint.2]

theorem pointed_eq_nil (name cs : List Char) : pointed name cs = [] ↔ cs = [] := by
  cases cs with
  | nil => simp [pointed_nil]
  | cons c cs =>
      by_cases point : c = '.'
      · simp [point, pointed_point]
      · simp [pointed_other name cs c point]

theorem plain_head (cs : List Char) (plain : Plain false cs) :
    ∀ c ∈ cs.head?, c = '.' ∨ c ∈ marks ∨ isWordStart c = true := by
  cases plain with
  | nil => simp
  | mark isMark _ => simp [isMark]
  | start starts _ => simp [starts]
  | point _ _ => simp

theorem plain_head_ne (cs : List Char) (plain : Plain false cs) (c : Char)
    (noPoint : c ≠ '.') (noMark : c ∉ marks) (noWord : isWordStart c = false) :
    cs.head? ≠ some c := by
  intro head
  rcases plain_head cs plain c (by simp [head]) with point | isMark | word
  · exact noPoint point
  · exact noMark isMark
  · rw [noWord] at word
    cases word

theorem plain_startsNumber (cs : List Char) (plain : Plain false cs) :
    startsNumber cs = false := by
  have noDigit (c : Char) (starts : isWordStart c = true) : isAsciiDigit c = false :=
    nameStart_not_digit c (wordStart_nameStart c starts)
  cases plain with
  | nil => rfl
  | @mark _ c rest isMark _ =>
      have outside : ∀ d ∈ marks, d ≠ '.' ∧ isAsciiDigit d = false := by decide
      obtain ⟨noPoint, notDigit⟩ := outside c isMark
      simp [startsNumber, noPoint, notDigit]
  | @start _ c rest starts _ =>
      simp [startsNumber, wordPart_ne c '.' (wordStart_wordPart c starts) (by decide),
        noDigit c starts]
  | @point _ c rest starts _ => exact noDigit c starts

def Bounded (rest : List Char) : Prop := ∀ c ∈ rest.head?, c ∈ '.' :: marks

theorem bounded_stopsName (rest : List Char) (bounded : Bounded rest) : StopsName rest := by
  have outside : ∀ c ∈ '.' :: marks, isNameChar c = false ∧ c ≠ '\\' := by decide
  exact stopsName_head rest fun c head => outside c (bounded c head)

theorem bounded_noArguments (rest : List Char) (bounded : Bounded rest) :
    rest.head? ≠ some '(' := by
  intro head
  exact absurd (bounded '(' (by simp [head])) (by decide)

theorem plain_parts {inName : Bool} {cs : List Char} (plain : Plain inName cs) :
    ∃ name rest, cs = name ++ rest ∧ (∀ c ∈ name, isWordPart c = true) ∧ Plain false rest ∧
      Bounded rest := by
  induction plain with
  | nil => exact ⟨[], [], rfl, by simp, .nil, by simp [Bounded]⟩
  | @mark _ c rest isMark after _ =>
      exact ⟨[], c :: rest, rfl, by simp, .mark isMark after, by simp [Bounded, isMark]⟩
  | @start _ c _ starts _ ih =>
      obtain ⟨name, rest, rfl, parts, plainRest, bounded⟩ := ih
      exact ⟨c :: name, rest, rfl, by simpa using ⟨wordStart_wordPart c starts, parts⟩, plainRest,
        bounded⟩
  | @part c _ continues _ ih =>
      obtain ⟨name, rest, rfl, parts, plainRest, bounded⟩ := ih
      exact ⟨c :: name, rest, rfl, by simpa using ⟨continues, parts⟩, plainRest, bounded⟩
  | @point _ c rest starts after _ =>
      exact ⟨[], '.' :: c :: rest, rfl, by simp, .point starts after, by simp [Bounded]⟩

theorem plain_word (c : Char) (cs : List Char) (starts : isWordStart c = true)
    (after : Plain true cs) : ∃ (name : Word) (rest : List Char),
      c :: cs = name.chars ++ rest ∧ Plain false rest ∧ Bounded rest := by
  obtain ⟨others, rest, rfl, continues, plain, bounded⟩ := plain_parts after
  exact ⟨⟨c, others, starts, continues⟩, rest, rfl, plain, bounded⟩

theorem startsIdent_mark (c : Char) (cs : List Char) (outside : isNameStart c = false)
    (noHyphen : c ≠ '-') (noEscape : c ≠ '\\') : startsIdent (c :: cs) = false := by
  unfold startsIdent
  split
  · rfl
  · next shape =>
    cases shape
    exact absurd rfl noHyphen
  · next shape =>
    cases shape
    exact absurd rfl noEscape
  · next shape =>
    cases shape
    exact outside

theorem readHash_bounded (cs : List Char) (bounded : Bounded cs) :
    readHash cs = (.delim '#', cs) := by
  cases cs with
  | nil => rfl
  | cons c cs =>
      have outside : ∀ d ∈ '.' :: marks,
          isNameStart d = false ∧ isAsciiDigit d = false ∧ d ≠ '-' ∧ d ≠ '\\' := by decide
      obtain ⟨noName, noDigit, noHyphen, noEscape⟩ := outside c (bounded c rfl)
      simp [readHash, startsIdent_mark c cs noName noHyphen noEscape, noDigit, noHyphen]

theorem readMatch_plain (operator : Char) (cs : List Char) (plain : Plain false cs) :
    readMatch operator cs = (.delim operator, cs) := by
  have noEquals := plain_head_ne cs plain '=' (by decide) (by decide) (by decide)
  cases cs with
  | nil => rfl
  | cons c cs =>
      have other : c ≠ '=' := by
        rintro rfl
        exact noEquals rfl
      simp [readMatch, other]

theorem readPlus_plain (cs : List Char) (plain : Plain false cs) :
    readPlus cs = (.delim '+', cs) := by
  simp [readPlus, plain_startsNumber cs plain]

theorem passes_mark (depth : Nat) (added : List Char) (c : Char) (rest : List Char)
    (isMark : c ∈ marks) (noComma : c ≠ ',') (noSpace : c ≠ ' ') (plain : Plain false rest)
    (noId : c = '#' → Bounded rest) : Passes depth added [c] [c] rest := by
  have delim (noPoint : c ≠ '.') (read : readToken c rest = (.delim c, rest)) :
      Passes depth added [c] [c] rest :=
    passes_plain depth added [c] rest (.delim c) (lexemes_single c rest _ read)
      (by rw [roleOf_delim, if_neg noPoint]) rfl
  simp only [marks, List.mem_cons, List.not_mem_nil, or_false] at isMark
  rcases isMark with rfl | rfl | rfl | rfl | rfl | rfl | rfl | rfl | rfl
  · exact delim (by decide) (readHash_bounded rest (noId rfl))
  · exact passes_colon depth added rest
  · exact delim (by decide) rfl
  · exact absurd rfl noComma
  · exact delim (by decide) rfl
  · exact delim (by decide) (readPlus_plain rest plain)
  · exact delim (by decide) (readMatch_plain '~' rest plain)
  · exact delim (by decide) (readMatch_plain '*' rest plain)
  · exact absurd rfl noSpace

theorem passes_spaces (depth : Nat) (added cs : List Char) :
    Passes depth added (' ' :: cs.takeWhile isSpace) (' ' :: cs.takeWhile isSpace)
      (cs.dropWhile isSpace) := by
  apply passes_plain depth added _ _ .space
  · apply lexemes_cons
    rw [List.takeWhile_append_dropWhile]
    rfl
  · rfl
  · rfl

theorem passes_idName (depth : Nat) (added : List Char) (name : Word) (rest : List Char)
    (bounded : Bounded rest) :
    Passes depth added ('#' :: name.chars) ('#' :: name.chars) rest := by
  apply passes_plain depth added _ rest (.idHash (String.ofList name.chars))
  · exact lexemes_hash _ _ rest (name.startsIdent rest)
      (name.readName rest (bounded_stopsName rest bounded))
  · rfl
  · rfl

theorem passes_point (depth : Nat) (added rest : List Char) (starts : startsIdent rest = true) :
    Passes depth added ['.'] ('.' :: added) rest := by
  refine ⟨[⟨.classPoint, ['.']⟩], ?_, by simp, by simp [prefixedPiece]⟩
  rw [List.singleton_append, lexemes_point rest starts]
  rfl

theorem plain_start (cs : List Char) (plain : Plain false cs) :
    (∃ (name : Word) (rest : List Char), cs = name.chars ++ rest ∧ Plain false rest ∧
      Bounded rest) ∨ Bounded cs := by
  cases plain with
  | nil => exact Or.inr (by simp [Bounded])
  | mark isMark _ => exact Or.inr (by simp [Bounded, isMark])
  | @start _ c rest starts after => exact Or.inl (plain_word c rest starts after)
  | point _ _ => exact Or.inr (by simp [Bounded])

/-- What can be cut off the front of a plain text: a comma that separates, or pieces that separate
nothing. -/
structure Cut (added w rest : List Char) : Prop where
  nonempty : w ≠ []
  plain : Plain false rest
  scanned : w = [','] ∨ (',' ∉ w ∧ Passes 0 added w (pointed added w) rest)

theorem cut_spaces (added rest : List Char) (after : Plain false rest) :
    Cut added (' ' :: rest.takeWhile isSpace) (rest.dropWhile isSpace) := by
  have noOther (d : Char) (other : d ≠ ' ') (noSpace : isSpace d = false) :
      d ∉ ' ' :: rest.takeWhile isSpace := by
    intro member
    rcases List.mem_cons.mp member with same | inside
    · exact other same
    · rw [List.mem_takeWhile_imp inside] at noSpace
      cases noSpace
  refine ⟨by simp, ?_, Or.inr ⟨noOther ',' (by decide) (by decide), ?_⟩⟩
  · exact after.dropWhile (by decide) fun c starts => visible_noSpace c (wordStart_visible c starts)
  · rw [pointed_same _ _ (noOther '.' (by decide) (by decide))]
    exact passes_spaces 0 added rest

theorem cut_idName (added : List Char) (name : Word) (rest : List Char) (after : Plain false rest)
    (bounded : Bounded rest) : Cut added ('#' :: name.chars) rest := by
  refine ⟨by simp, after, Or.inr ⟨?_, ?_⟩⟩
  · simp [name.notMem ',' (by decide)]
  · rw [pointed_same _ _ (by simp [name.notMem '.' (by decide)])]
    exact passes_idName 0 added name rest bounded

theorem cut_word (added : List Char) (name : Word) (rest : List Char) (after : Plain false rest)
    (bounded : Bounded rest) : Cut added name.chars rest := by
  refine ⟨by simp [Word.chars], after, Or.inr ⟨name.notMem ',' (by decide), ?_⟩⟩
  rw [pointed_same _ _ (name.notMem '.' (by decide))]
  exact passes_word 0 added name rest (bounded_stopsName rest bounded)
    (bounded_noArguments rest bounded)

theorem cut_mark (added : List Char) (c : Char) (rest : List Char) (isMark : c ∈ marks)
    (noSpace : c ≠ ' ') (after : Plain false rest) (noId : c = '#' → Bounded rest) :
    Cut added [c] rest := by
  by_cases comma : c = ','
  · exact ⟨by simp, after, Or.inl (by rw [comma])⟩
  · have noPoint := mark_noPoint c isMark
    refine ⟨by simp, after, Or.inr ⟨by simp [Ne.symm comma], ?_⟩⟩
    rw [pointed_same _ _ (by simp [Ne.symm noPoint])]
    exact passes_mark 0 added c rest isMark comma noSpace after noId

theorem plain_cut (added cs : List Char) (plain : Plain false cs) (nonempty : cs ≠ []) :
    ∃ w rest, cs = w ++ rest ∧ Cut added w rest := by
  cases plain with
  | nil => exact absurd rfl nonempty
  | @mark _ c rest isMark after =>
      by_cases space : c = ' '
      · subst space
        refine ⟨_, _, ?_, cut_spaces added rest after⟩
        rw [List.cons_append, List.takeWhile_append_dropWhile]
      · rcases plain_start rest after with ⟨name, tail, rfl, plainTail, bounded⟩ | bounded
        · by_cases id : c = '#'
          · subst id
            exact ⟨'#' :: name.chars, tail, rfl, cut_idName added name tail plainTail bounded⟩
          · exact ⟨[c], _, rfl, cut_mark added c _ isMark space after fun same => absurd same id⟩
        · exact ⟨[c], rest, rfl, cut_mark added c rest isMark space after fun _ => bounded⟩
  | @start _ c rest starts after =>
      obtain ⟨name, tail, shape, plainTail, bounded⟩ := plain_word c rest starts after
      exact ⟨name.chars, tail, shape, cut_word added name tail plainTail bounded⟩
  | @point _ c rest starts after =>
      refine ⟨['.'], c :: rest, rfl, by simp, .start starts after, Or.inr ⟨by decide, ?_⟩⟩
      rw [pointed_point, pointed_nil, List.append_nil]
      exact passes_point 0 added (c :: rest)
        (opensName_startsIdent _ ⟨c, rest, rfl, Or.inl (wordStart_nameStart c starts)⟩)

theorem plain_scanned (added : List Char) : ∀ cs : List Char, Plain false cs →
    prefixedOf added cs = pointed added cs ∧ textsBetweenCommas (scan cs) = cs.splitOn ','
  | [], _ => ⟨prefixed_nil added, texts_nil⟩
  | c :: cs, plain => by
    -- A lexeme has any number of characters, so the induction is on what the cut leaves.
    obtain ⟨w, rest, shape, cut⟩ := plain_cut added (c :: cs) plain (by simp)
    have shorter : rest.length < cs.length + 1 := by
      have whole := congrArg List.length shape
      have front := List.length_pos_iff.mpr cut.nonempty
      rw [List.length_cons, List.length_append] at whole
      omega
    obtain ⟨points, commas⟩ := plain_scanned added rest cut.plain
    rw [shape, pointed_append]
    rcases cut.scanned with rfl | ⟨noComma, passes⟩
    · constructor
      · rw [List.singleton_append, prefixed_comma, points]
        rfl
      · rw [List.singleton_append, texts_comma, splitOn_comma, commas]
    · constructor
      · rw [passes_prefixed added w _ rest passes, points]
      · obtain ⟨text, texts, tail⟩ := List.exists_cons_of_ne_nil (List.splitOn_ne_nil ',' rest)
        rw [tail] at commas
        rw [passes_texts added w _ rest text texts passes commas,
          splitOn_append w rest text texts noComma tail]
termination_by cs => cs.length

theorem plain_prefixedOf (added cs : List Char) (plain : Plain false cs) :
    prefixedOf added cs = pointed added cs := (plain_scanned added cs plain).1

theorem plain_partsOf (cs : List Char) (plain : Plain false cs) :
    partsOf cs = ((cs.splitOn ',').map Text.trim).filter (· ≠ []) := by
  rw [partsOf, (plain_scanned [] cs plain).2]

theorem partsOf_plain (cs : List Char) (plain : Plain false cs) :
    ∀ w ∈ partsOf cs, Plain false w := by
  intro w member
  obtain ⟨first, others, split, plainFirst, plainOthers⟩ := plain.splitOn
  rw [plain_partsOf cs plain, split] at member
  obtain ⟨v, inside, rfl⟩ := List.mem_map.mp (List.mem_filter.mp member).1
  rcases List.mem_cons.mp inside with rfl | other
  · exact plainFirst.trim
  · exact (plainOthers v other).trim

end StyleLayers.Selector
