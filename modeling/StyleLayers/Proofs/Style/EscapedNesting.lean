import StyleLayers.Proofs.Style.EscapedClass

/-!
Selectors nested under a class with an escaped name. An escape can end in a space that belongs to
it; where that space is cut off the outer selector, the one that joins the two takes its place.
-/

namespace StyleLayers

namespace Css

theorem escaped_end (cs : List Char) (c : Char) (ends : EndsInName c) : ∃ front last : List Char,
    escaped (cs ++ [c]) = front ++ last ∧ WrittenEnd c last ∧
      ∀ tail, readName (front ++ tail) =
        (cs.map nulReplaced ++ (readName tail).1, (readName tail).2) := by
  obtain ⟨front, last, whole, written, reads⟩ := escaped_concat cs c
  exact ⟨front, last, whole, writtenEnd c last written ends, reads⟩

/-- The space that is cut off the end of an identifier is the last character of an escape. -/
theorem trimEnd_joined (cs : List Char) (c : Char) (ends : EndsInName c) :
    Text.trimEnd (escaped (cs ++ [c])) ++ [' '] =
      if (escaped (cs ++ [c])).getLast? = some ' ' then escaped (cs ++ [c])
      else escaped (cs ++ [c]) ++ [' '] := by
  obtain ⟨front, last, whole, written, _⟩ := escaped_end cs c ends
  rw [whole]
  cases written with
  | space _ =>
      have ended : front ++ ['\\', ' '] = front ++ ['\\'] ++ [' '] := by simp
      rw [ended, trimEnd_space, trimEnd_visible front '\\' (by decide), if_pos (by simp)]
  | code ascii _ =>
      have ended : front ++ codeEscape c = front ++ '\\' :: Nat.toDigits 16 c.toNat ++ [' '] := by
        simp [codeEscape]
      rw [trimEnd_codeEscape front c ascii, ended, if_pos List.getLast?_concat]
  | visible before d _ shown _ =>
      have other : d ≠ ' ' := by
        rintro rfl
        exact absurd shown (by decide)
      rw [← List.append_assoc, trimEnd_visible _ d shown, if_neg (by simpa using other)]

theorem startsIdent_more (w rest : List Char) (starts : startsIdent w = true)
    (sameLine : startsWithNewline rest = false) : startsIdent (w ++ rest) = true := by
  match w with
  | [] => cases starts
  | [c] =>
      by_cases hyphen : c = '-'
      · subst hyphen
        cases starts
      by_cases backslash : c = '\\'
      · subst backslash
        simpa [startsIdent] using sameLine
      · simpa [startsIdent, hyphen, backslash] using starts
  | a :: b :: cs => rwa [startsIdent_append]

theorem startsIdent_less (w : List Char) (nonempty : w ≠ [])
    (starts : startsIdent (w ++ [' ']) = true) : startsIdent w = true := by
  match w with
  | [] => exact absurd rfl nonempty
  | [c] =>
      by_cases hyphen : c = '-'
      · subst hyphen
        cases starts
      by_cases backslash : c = '\\'
      · subst backslash
        rfl
      · simpa [startsIdent, hyphen, backslash] using starts
  | a :: b :: cs => rwa [startsIdent_append] at starts

/-- Of an escaped space only the backslash is left, and it escapes what comes next. -/
theorem trimEnd_escapedSpace (cs : List Char) : ∃ front : List Char,
    Text.trimEnd (escaped (cs ++ [' '])) = front ++ ['\\'] ∧
      startsIdent (front ++ ['\\']) = true ∧
        ∀ tail, readName (front ++ tail) =
          (cs.map nulReplaced ++ (readName tail).1, (readName tail).2) := by
  obtain ⟨front, last, whole, written, reads⟩ := escaped_end cs ' ' (by decide)
  cases written with
  | space _ =>
      have ended : front ++ ['\\', ' '] = front ++ ['\\'] ++ [' '] := by simp
      have starts := escaped_startsIdent (cs ++ [' ']) [] (by simp)
      rw [List.append_nil, whole, ended] at starts
      refine ⟨front, ?_, startsIdent_less _ (by simp) starts, reads⟩
      rw [whole, ended, trimEnd_space, trimEnd_visible front '\\' (by decide)]
  | code _ notSpace => exact absurd rfl notSpace
  | visible _ _ notSpace _ _ => exact absurd rfl notSpace

theorem readName_code_colon (c : Char) (rest : List Char) (ascii : c.toNat < 128) :
    readName ('\\' :: (Nat.toDigits 16 c.toNat ++ ':' :: rest)) =
      ([nulReplaced c], ':' :: rest) := by
  have noDigit : ∀ d ∈ (':' :: rest).head?, isHexDigit d = false := by
    intro d member
    cases member
    decide
  have same : dropOneSpace (':' :: rest) = ':' :: rest := by simp [dropOneSpace, isSpace, isNewline]
  rw [readName_escape _ (code_sameLine c _ ascii), readEscape_code c _ ascii noDigit, same,
    stopsName_cons ':' rest (by decide) (by decide)]

theorem readName_trimmed_colon (cs rest : List Char) (c : Char) (notSpace : c ≠ ' ')
    (ends : EndsInName c) :
    readName (Text.trimEnd (escaped (cs ++ [c])) ++ ':' :: rest) =
      ((cs ++ [c]).map nulReplaced, ':' :: rest) := by
  have stops : StopsName (':' :: rest) := stopsName_cons ':' rest (by decide) (by decide)
  obtain ⟨front, last, whole, written, reads⟩ := escaped_end cs c ends
  cases written with
  | space isSpace => exact absurd isSpace notSpace
  | code ascii _ =>
      rw [whole, trimEnd_codeEscape front c ascii, List.append_assoc, reads, List.cons_append,
        readName_code_colon c rest ascii, List.map_append, List.map_singleton]
  | visible before d _ shown _ =>
      have kept : Text.trimEnd (escaped (cs ++ [c])) = escaped (cs ++ [c]) := by
        rw [whole, ← List.append_assoc, trimEnd_visible _ d shown]
      rw [kept, readName_escaped _ _ stops]

end Css

namespace Selector

open Css

theorem nestedOf_parts (outer inner o i : List Char) (outerPart : partsOf outer = [o])
    (innerPart : partsOf inner = [i]) : nestedOf outer inner = nestedPart o i := by
  simp [nestedOf, outerParts, outerPart, innerPart, listText]

theorem nestedOf_classes (cs ds : List Char) (outerNonempty : cs ≠ []) (innerNonempty : ds ≠ [])
    (noPlaceholder : '&' ∉ ds) :
    nestedOf ('.' :: escaped cs) ('.' :: escaped ds) =
      '.' :: (Text.trimEnd (escaped cs) ++ ' ' :: '.' :: Text.trimEnd (escaped ds)) := by
  rw [nestedOf_parts _ _ _ _ (partsOf_class cs outerNonempty) (partsOf_class ds innerNonempty),
    nestedPart, if_neg (placeholder_class ds noPlaceholder), if_neg (List.cons_ne_nil _ _),
    List.cons_append]

def hovered : List Char := ['&', ':', 'h', 'o', 'v', 'e', 'r']

theorem partsOf_hovered : partsOf hovered = [hovered] := by decide +kernel

theorem nestedOf_hovered (cs : List Char) (nonempty : cs ≠ []) :
    nestedOf ('.' :: escaped cs) hovered =
      '.' :: (Text.trimEnd (escaped cs) ++ hovered.tail) := by
  rw [nestedOf_parts _ _ _ _ (partsOf_class cs nonempty) partsOf_hovered]
  rfl

theorem lexemes_classText (w name rest : List Char) (nonempty : w ≠ [])
    (starts : startsIdent (w ++ rest) = true) (read : readName (w ++ rest) = (name, rest))
    (noArguments : rest.head? ≠ some '(') (noComment : rest.head? ≠ some '>') :
    lexemes ('.' :: (w ++ rest)) =
      ⟨.delim '.', ['.']⟩ :: ⟨.ident (String.ofList name), w⟩ :: lexemes rest := by
  rw [lexemes_point _ starts, lexemes_name w name rest nonempty starts read noArguments
    (name_notClosing w name rest read noComment)]

theorem lexemes_escapedClass (cs rest : List Char) (nonempty : cs ≠ []) (noNul : '\x00' ∉ cs)
    (stops : StopsName rest) (noArguments : rest.head? ≠ some '(')
    (noComment : rest.head? ≠ some '>') :
    lexemes ('.' :: (escaped cs ++ rest)) =
      ⟨.delim '.', ['.']⟩ :: ⟨.ident (String.ofList cs), escaped cs⟩ :: lexemes rest := by
  have read := readName_escaped cs rest stops
  rw [map_nulReplaced cs noNul] at read
  exact lexemes_classText _ cs rest (escaped_nonempty cs nonempty)
    (escaped_startsIdent cs rest nonempty) read noArguments noComment

/-- The space that joins is a combinator only where the escape before it needs none. -/
theorem tokens_outer (cs rest : List Char) (c : Char) (noNul : '\x00' ∉ cs ++ [c])
    (ends : EndsInName c) :
    (lexemes ('.' :: (Text.trimEnd (escaped (cs ++ [c])) ++ ' ' :: '.' :: rest))).map
        Lexeme.token =
      [.delim '.', .ident (String.ofList (cs ++ [c]))] ++
        (if (escaped (cs ++ [c])).getLast? = some ' ' then [] else [.space]) ++
          (lexemes ('.' :: rest)).map Lexeme.token := by
  have spaced : Text.trimEnd (escaped (cs ++ [c])) ++ ' ' :: '.' :: rest =
      Text.trimEnd (escaped (cs ++ [c])) ++ [' '] ++ '.' :: rest := by simp
  rw [spaced, trimEnd_joined cs c ends]
  split
  · rw [lexemes_escapedClass _ _ (by simp) noNul (stopsName_cons '.' rest (by decide) (by decide))
      (by simp) (by simp)]
    rfl
  · have point : ∀ d ∈ ('.' :: rest).head?, isSpace d = false := by
      intro d member
      cases member
      decide
    rw [List.append_assoc, List.singleton_append,
      lexemes_escapedClass _ _ (by simp) noNul (stopsName_cons ' ' _ (by decide) (by decide))
        (by simp) (by simp), lexemes_space _ point]
    rfl

def keptName (cs : List Char) : List Char :=
  if cs.getLast? = some ' ' then cs.dropLast ++ [replacement] else cs

theorem lexemes_cut (front name tail : List Char) (starts : startsIdent (front ++ ['\\']) = true)
    (sameLine : startsWithNewline tail = false)
    (read : readName (front ++ '\\' :: tail) = (name, [])) :
    (lexemes ('.' :: (front ++ '\\' :: tail))).map Lexeme.token =
      [.delim '.', .ident (String.ofList name)] := by
  have more := startsIdent_more _ tail starts sameLine
  rw [List.append_assoc, List.singleton_append] at more
  have whole := lexemes_classText (front ++ '\\' :: tail) name [] (by simp)
    (by rwa [List.append_nil]) (by rwa [List.append_nil]) (by simp) (by simp)
  rw [List.append_nil, lexemes_nil] at whole
  rw [whole]
  rfl

theorem tokens_inner (cs : List Char) (c : Char) (noNul : '\x00' ∉ cs ++ [c])
    (ends : EndsInName c) :
    (lexemes ('.' :: Text.trimEnd (escaped (cs ++ [c])))).map Lexeme.token =
      [.delim '.', .ident (String.ofList (keptName (cs ++ [c])))] := by
  by_cases space : c = ' '
  · subst space
    have noNulFront : '\x00' ∉ cs := fun member => noNul (List.mem_append_left _ member)
    obtain ⟨front, trimmed, starts, reads⟩ := trimEnd_escapedSpace cs
    have last : readName ['\\'] = ([replacement], []) := by
      rw [readName_escape [] rfl, readEscape, stopsName_nil]
    have read := reads ['\\']
    rw [last, map_nulReplaced cs noNulFront] at read
    rw [trimmed, lexemes_cut front _ [] starts rfl read, keptName, if_pos List.getLast?_concat,
      List.dropLast_concat]
  · have keepsEnd : ∀ d ∈ (cs ++ [c]).getLast?, KeepsEnd d := by
      intro d member
      rw [List.getLast?_concat] at member
      cases member
      exact ⟨space, ends⟩
    rw [lexemes_class _ (by simp) keepsEnd, map_nulReplaced _ noNul, keptName,
      if_neg (by simpa using space)]
    rfl

theorem tokens_hovered (cs : List Char) (c : Char) (noNul : '\x00' ∉ cs ++ [c])
    (ends : EndsInName c) :
    (lexemes ('.' :: (Text.trimEnd (escaped (cs ++ [c])) ++ hovered.tail))).map Lexeme.token =
      if c = ' ' then [.delim '.', .ident (String.ofList (cs ++ hovered.tail))]
      else [.delim '.', .ident (String.ofList (cs ++ [c])), .colon, .ident "hover"] := by
  by_cases space : c = ' '
  · subst space
    have noNulFront : '\x00' ∉ cs := fun member => noNul (List.mem_append_left _ member)
    obtain ⟨front, trimmed, starts, reads⟩ := trimEnd_escapedSpace cs
    have last : readName ('\\' :: hovered.tail) = (hovered.tail, []) := by
      decide +kernel
    have read := reads ('\\' :: hovered.tail)
    rw [last, map_nulReplaced cs noNulFront] at read
    rw [trimmed, List.append_assoc, List.singleton_append,
      lexemes_cut front _ hovered.tail starts (by decide) read, if_pos rfl]
  · have keeps : KeepsEnd c := ⟨space, ends⟩
    obtain ⟨starts, _⟩ := trimEnd_escaped cs c keeps
    have read := readName_trimmed_colon cs ['h', 'o', 'v', 'e', 'r'] c space ends
    rw [map_nulReplaced _ noNul] at read
    have nonempty : Text.trimEnd (escaped (cs ++ [c])) ≠ [] := by
      intro none
      rw [none] at starts
      cases starts
    have behind : lexemes hovered.tail =
        [⟨.colon, [':']⟩, ⟨.ident "hover", ['h', 'o', 'v', 'e', 'r']⟩] := by decide +kernel
    rw [lexemes_classText _ _ _ nonempty (startsIdent_more _ hovered.tail starts (by decide)) read
      (by decide) (by decide), behind, if_neg space]
    rfl

/-- A name to be written as a class: not empty, without NUL and placeholders, and without white
space beyond ASCII at its end. -/
structure Nests (name : String) : Prop where
  nonempty : name ≠ ""
  noNul : '\x00' ∉ name.toList
  noPlaceholder : '&' ∉ name.toList
  ends : ∀ c ∈ name.toList.getLast?, EndsInName c

def EndsInSpace (s : String) : Prop := s.toList.getLast? = some ' '

instance (s : String) : Decidable (EndsInSpace s) :=
  inferInstanceAs (Decidable (s.toList.getLast? = some ' '))

theorem Nests.last {name : String} (nests : Nests name) : ∃ cs c,
    name = String.ofList (cs ++ [c]) ∧ '\x00' ∉ cs ++ [c] ∧ '&' ∉ cs ++ [c] ∧ EndsInName c := by
  have ends := nests.ends
  rcases List.eq_nil_or_concat name.toList with none | ⟨cs, c, shape⟩
  · exact absurd (String.toList_eq_nil_iff.mp none) nests.nonempty
  · rw [List.concat_eq_append] at shape
    rw [shape, List.getLast?_concat] at ends
    refine ⟨cs, c, ?_, shape ▸ nests.noNul, shape ▸ nests.noPlaceholder, ends c rfl⟩
    rw [← shape, String.ofList_toList]

theorem toList_class (name : String) :
    ("." ++ escape name).toList = '.' :: escaped name.toList := by
  simp [escape]

/-- Under a class with an escaped name another class is a descendant, and `&:hover` is that class
hovered, as long as the escaped names end in no space. A space that ends an escape is cut off: the
one that joins takes its place, and there is no combinator; a backslash that is left over takes in
what follows. -/
theorem nested_escaped_classes (outer inner : String) (nestsOuter : Nests outer)
    (nestsInner : Nests inner) :
    tokens (nested ("." ++ escape outer) ("." ++ escape inner)) =
        [.delim '.', .ident outer] ++ (if EndsInSpace (escape outer) then [] else [.space]) ++
          [.delim '.', .ident (if EndsInSpace inner then
            String.ofList (inner.toList.dropLast ++ [replacement]) else inner)] ∧
      tokens (nested ("." ++ escape outer) "&:hover") =
        if EndsInSpace outer then
          [.delim '.', .ident (String.ofList outer.toList.dropLast ++ ":hover")]
        else [.delim '.', .ident outer, .colon, .ident "hover"] := by
  obtain ⟨cs, c, rfl, noNulOuter, _, endsOuter⟩ := nestsOuter.last
  obtain ⟨ds, d, rfl, noNulInner, noPlaceholder, endsInner⟩ := nestsInner.last
  have someOuter : cs ++ [c] ≠ [] := by simp
  have someInner : ds ++ [d] ≠ [] := by simp
  have hovering : "&:hover".toList = hovered := by decide
  constructor
  · have read := tokens_outer cs (Text.trimEnd (escaped (ds ++ [d]))) c noNulOuter endsOuter
    rw [tokens_inner ds d noNulInner endsInner] at read
    rw [tokens, nested, toList_class, toList_class, String.toList_ofList, String.toList_ofList,
      String.toList_ofList, nestedOf_classes _ _ someOuter someInner noPlaceholder, read]
    simp only [EndsInSpace, escape, keptName, String.toList_ofList, apply_ite String.ofList]
  · have tail : String.ofList (cs ++ hovered.tail) = String.ofList cs ++ ":hover" :=
      String.ofList_append
    rw [tokens, nested, toList_class, hovering, String.toList_ofList, String.toList_ofList,
      nestedOf_hovered _ someOuter, tokens_hovered cs c noNulOuter endsOuter]
    simp only [EndsInSpace, String.toList_ofList, List.getLast?_concat, Option.some.injEq,
      List.dropLast_concat, tail]

theorem nested_escaped_digit :
    Nests "1" ∧ Nests "b " ∧
      tokens (nested ("." ++ escape "1") ("." ++ escape "b ")) =
        [.delim '.', .ident "1", .delim '.', .ident "b\uFFFD"] ∧
      tokens (nested ("." ++ escape "1") "&:hover") =
        [.delim '.', .ident "1", .colon, .ident "hover"] := by
  have digit : Nests "1" := ⟨by decide, by decide, by decide, by decide⟩
  have space : Nests "b " := ⟨by decide, by decide, by decide, by decide⟩
  obtain ⟨nested, hovered⟩ := nested_escaped_classes "1" "b " digit space
  rw [if_pos (by decide), if_pos (by decide)] at nested
  rw [if_neg (by decide)] at hovered
  exact ⟨digit, space, nested, hovered⟩

def SelectsDescendant (outer inner : String) : Prop :=
  ∃ trailing : List Token, (∀ t ∈ trailing, t = .space) ∧
    tokens (nested ("." ++ escape outer) ("." ++ escape inner)) =
      [.delim '.', .ident outer, .space, .delim '.', .ident inner] ++ trailing

def SelectsHovered (outer : String) : Prop :=
  tokens (nested ("." ++ escape outer) "&:hover") =
    [.delim '.', .ident outer, .colon, .ident "hover"]

/-- The class `1` around the class `b` is read as both classes at once, and of a class whose name
ends in a space, hovered, not even the pseudo-class is left. -/
theorem some_combinators_lost :
    (¬∀ outer inner : String, outer ≠ "" → inner ≠ "" → '\x00' ∉ outer.toList →
        '\x00' ∉ inner.toList → '&' ∉ outer.toList → '&' ∉ inner.toList →
        SelectsDescendant outer inner ∧ SelectsHovered outer) ∧
      ¬SelectsDescendant "1" "b" ∧ ¬SelectsDescendant "a " "b" ∧ ¬SelectsHovered "a " := by
  have compound : ¬SelectsDescendant "1" "b" := by
    rintro ⟨trailing, _, read⟩
    have digits : tokens (nested ("." ++ escape "1") ("." ++ escape "b")) =
        [.delim '.', .ident "1", .delim '.', .ident "b"] := by decide +kernel
    rw [digits] at read
    cases read
  refine ⟨?_, compound, ?_, ?_⟩
  · intro every
    exact compound (every "1" "b" (by decide) (by decide) (by decide) (by decide) (by decide)
      (by decide)).1
  · rintro ⟨trailing, _, read⟩
    have spaces : tokens (nested ("." ++ escape "a ") ("." ++ escape "b")) =
        [.delim '.', .ident "a ", .delim '.', .ident "b"] := by decide +kernel
    rw [spaces] at read
    cases read
  · intro read
    have pseudo : tokens (nested ("." ++ escape "a ") "&:hover") =
        [.delim '.', .ident "a:hover"] := by decide +kernel
    rw [SelectsHovered, pseudo] at read
    exact absurd read (by decide)

end Selector

end StyleLayers
