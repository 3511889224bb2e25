import StyleLayers.Proofs.Selector.Grammar
import StyleLayers.Proofs.Text.Trimming

/-!
What the scanner finds in the text of a selector list: exactly the points of its classes, at every
depth, and exactly the commas between its own selectors.
-/

namespace StyleLayers.Selector

open Css

/-- With `depth` parentheses open, the pieces of `w` come before those of `rest`, none of them
separates the list, and with `added` in front of its class names `w` is `changed`. -/
def Passes (depth : Nat) (added w changed rest : List Char) : Prop :=
  ∃ ps : List Piece,
    pieces ⟨depth, []⟩ (lexemes (w ++ rest)) = ps ++ pieces ⟨depth, []⟩ (lexemes rest) ∧
      (∀ p ∈ ps, p.role ≠ .listComma) ∧ ps.flatMap (prefixedPiece added) = changed

theorem roleOf_delim (depth : Nat) (c : Char) :
    roleOf ⟨depth, []⟩ (.delim c) = if c = '.' then .classPoint else .plain := rfl

theorem passes_append (depth : Nat) (added w₁ w₂ changed₁ changed₂ rest : List Char)
    (first : Passes depth added w₁ changed₁ (w₂ ++ rest))
    (second : Passes depth added w₂ changed₂ rest) :
    Passes depth added (w₁ ++ w₂) (changed₁ ++ changed₂) rest := by
  obtain ⟨ps, scanned, noComma, same⟩ := first
  obtain ⟨qs, scanned', noComma', same'⟩ := second
  refine ⟨ps ++ qs, ?_, ?_, ?_⟩
  · rw [List.append_assoc, scanned, scanned', List.append_assoc]
  · intro p member
    rcases List.mem_append.mp member with member | member
    · exact noComma p member
    · exact noComma' p member
  · rw [List.flatMap_append, same, same']

theorem passes_plain (depth : Nat) (added w rest : List Char) (t : Token)
    (read : lexemes (w ++ rest) = ⟨t, w⟩ :: lexemes rest)
    (plain : roleOf ⟨depth, []⟩ t = .plain) (level : nestingAfter ⟨depth, []⟩ t = ⟨depth, []⟩) :
    Passes depth added w w rest := by
  refine ⟨[⟨.plain, w⟩], ?_, ?_, ?_⟩
  · rw [read, pieces, plain, level]
    rfl
  · simp
  · simp [prefixedPiece]

def endings : List Char := ['.', '#', ':', '[', ' ', ',', ')']

def Ends (rest : List Char) : Prop := ∀ c ∈ rest.head?, c ∈ endings

theorem ends_cons (c : Char) (rest : List Char) (ending : c ∈ endings) : Ends (c :: rest) := by
  intro d member
  cases member
  exact ending

theorem ends_head (rest : List Char) (ends : Ends rest) (c : Char) (other : c ∉ endings) :
    rest.head? ≠ some c := by
  intro head
  exact other (ends c (by simp [head]))

theorem ends_stopsName (rest : List Char) (ends : Ends rest) : StopsName rest := by
  have outside : ∀ c ∈ endings, isNameChar c = false ∧ c ≠ '\\' := by decide
  exact stopsName_head rest fun c head => outside c (ends c head)

theorem passes_word (depth : Nat) (added : List Char) (name : Word) (rest : List Char)
    (stops : StopsName rest) (noArguments : rest.head? ≠ some '(') :
    Passes depth added name.chars name.chars rest :=
  passes_plain depth added name.chars rest _ (name.lexemes rest stops noArguments) rfl rfl

theorem passes_ending_word (depth : Nat) (added : List Char) (name : Word) (rest : List Char)
    (ends : Ends rest) : Passes depth added name.chars name.chars rest :=
  passes_word depth added name rest (ends_stopsName rest ends) (ends_head rest ends '(' (by decide))

theorem passes_colon (depth : Nat) (added rest : List Char) :
    Passes depth added [':'] [':'] rest :=
  passes_plain depth added [':'] rest .colon (lexemes_single ':' rest .colon rfl) rfl rfl

theorem passes_space (depth : Nat) (added rest : List Char)
    (visible : ∀ c ∈ rest.head?, isSpace c = false) : Passes depth added [' '] [' '] rest :=
  passes_plain depth added [' '] rest .space (lexemes_space rest visible) rfl rfl

theorem passes_class (depth : Nat) (added : List Char) (name : Label) (rest : List Char)
    (ends : Ends rest) :
    Passes depth added ('.' :: escaped name.chars) ('.' :: (added ++ escaped name.chars)) rest := by
  have point := lexemes_point (escaped name.chars ++ rest)
    (escaped_startsIdent name.chars rest name.nonempty)
  have label := lexemes_escaped name.chars rest name.nonempty (ends_stopsName rest ends)
    (ends_head rest ends '(' (by decide)) (ends_head rest ends '>' (by decide))
  refine ⟨[⟨.classPoint, ['.']⟩, ⟨.plain, escaped name.chars⟩], ?_, ?_, ?_⟩
  · rw [List.cons_append, point, label]
    rfl
  · simp
  · simp [prefixedPiece]

theorem passes_id (depth : Nat) (added : List Char) (name : Label) (rest : List Char)
    (ends : Ends rest) :
    Passes depth added ('#' :: escaped name.chars) ('#' :: escaped name.chars) rest := by
  apply passes_plain depth added _ rest
    (.idHash (String.ofList (name.chars.map nulReplaced)))
  · exact lexemes_hash _ _ rest (escaped_startsIdent name.chars rest name.nonempty)
      (readName_escaped name.chars rest (ends_stopsName rest ends))
  · rfl
  · rfl

theorem passes_attribute (depth : Nat) (added : List Char) (name : Word) (value : Quotable)
    (rest : List Char) :
    Passes depth added ('[' :: (name.chars ++ '=' :: '"' :: (value.chars ++ ['"', ']'])))
      ('[' :: (name.chars ++ '=' :: '"' :: (value.chars ++ ['"', ']']))) rest := by
  have opening := lexemes_single '['
    (name.chars ++ '=' :: ('"' :: (value.chars ++ ['"']) ++ (']' :: rest))) (.opening .square) rfl
  have word := name.lexemes ('=' :: ('"' :: (value.chars ++ ['"']) ++ (']' :: rest)))
    (stopsName_cons '=' _ (by decide) (by decide)) (by simp)
  have equals := lexemes_single '=' ('"' :: (value.chars ++ ['"']) ++ (']' :: rest)) (.delim '=')
    rfl
  have text := lexemes_quoted value.chars (']' :: rest) value.plain
  have closing := lexemes_single ']' rest (.closing .square) rfl
  refine ⟨[⟨.plain, ['[']⟩, ⟨.plain, name.chars⟩, ⟨.plain, ['=']⟩,
    ⟨.plain, '"' :: (value.chars ++ ['"'])⟩, ⟨.plain, [']']⟩], ?_, ?_, ?_⟩
  · have shape : '[' :: (name.chars ++ '=' :: '"' :: (value.chars ++ ['"', ']'])) ++ rest =
        '[' :: (name.chars ++ '=' :: ('"' :: (value.chars ++ ['"']) ++ (']' :: rest))) := by simp
    rw [shape, opening, word, equals, text, closing]
    rfl
  · simp
  · simp [prefixedPiece]

theorem passes_function (depth : Nat) (added : List Char) (name : Word)
    (notUrl : isUrlName name.chars = false) (w changed rest : List Char)
    (inner : Passes (depth + 1) added w changed (')' :: rest)) :
    Passes depth added (name.chars ++ '(' :: (w ++ [')'])) (name.chars ++ '(' :: (changed ++ [')']))
      rest := by
  obtain ⟨ps, scanned, noComma, same⟩ := inner
  have opening := lexemes_function name.chars name.chars (w ++ ')' :: rest) (by simp [Word.chars])
    (name.startsIdent _) (name.readName _ (stopsName_cons '(' _ (by decide) (by decide))) notUrl
  have closing := lexemes_single ')' rest (.closing .round) rfl
  refine ⟨⟨.plain, name.chars ++ ['(']⟩ :: ps ++ [⟨.plain, [')']⟩], ?_, ?_, ?_⟩
  · have shape : name.chars ++ '(' :: (w ++ [')']) ++ rest =
        name.chars ++ '(' :: (w ++ ')' :: rest) := by simp
    have below : pieces ⟨depth, []⟩ (⟨.function (String.ofList name.chars), name.chars ++ ['(']⟩ ::
        lexemes (w ++ ')' :: rest)) =
        ⟨.plain, name.chars ++ ['(']⟩ :: pieces ⟨depth + 1, []⟩ (lexemes (w ++ ')' :: rest)) := rfl
    have above : pieces ⟨depth + 1, []⟩ (⟨.closing .round, [')']⟩ :: lexemes rest) =
        ⟨.plain, [')']⟩ :: pieces ⟨depth, []⟩ (lexemes rest) := rfl
    rw [shape, opening, below, scanned, closing, above]
    simp
  · intro p member
    simp only [List.cons_append, List.mem_cons, List.mem_append, List.not_mem_nil, or_false]
      at member
    rcases member with rfl | member | rfl
    · simp
    · exact noComma p member
    · simp
  · simp [prefixedPiece, same]

def Visible (w : List Char) : Prop := ∃ c tail, w = c :: tail ∧ Text.isBlank c = false

theorem visible_append (w rest : List Char) (visible : Visible w) : Visible (w ++ rest) := by
  obtain ⟨c, tail, rfl, shown⟩ := visible
  exact ⟨c, tail ++ rest, rfl, shown⟩

theorem visible_noSpace (c : Char) (visible : Text.isBlank c = false) : isSpace c = false := by
  by_contra space
  rw [space_isBlank c (by simpa using space)] at visible
  cases visible

theorem visible_notSpace (w : List Char) (visible : Visible w) :
    ∀ c ∈ w.head?, isSpace c = false := by
  obtain ⟨c, tail, rfl, shown⟩ := visible
  intro d member
  cases member
  exact visible_noSpace c shown

theorem element_visible (e : Element) : Visible e.text := by
  cases e with
  | any => exact ⟨'*', [], rfl, by decide⟩
  | named name => exact ⟨name.first, name.others, rfl, wordStart_visible _ name.starts⟩

theorem simple_starts (s : Simple) : ∃ c tail, s.text = c :: tail ∧ c ∈ ['.', '#', ':', '['] := by
  cases s with
  | ofClass name => exact ⟨'.', _, rfl, by decide⟩
  | ofId name => exact ⟨'#', _, rfl, by decide⟩
  | pseudoClass name => exact ⟨':', _, rfl, by decide⟩
  | pseudoElement name => exact ⟨':', _, rfl, by decide⟩
  | function name notUrl arguments => exact ⟨':', _, rfl, by decide⟩
  | hasAttribute name value => exact ⟨'[', _, rfl, by decide⟩

theorem simple_ends (s : Simple) (rest : List Char) : Ends (s.text ++ rest) := by
  obtain ⟨c, tail, shape, start⟩ := simple_starts s
  have ending : ∀ d ∈ ['.', '#', ':', '['], d ∈ endings := by decide
  rw [shape]
  exact ends_cons c _ (ending c start)

theorem compound_visible : ∀ c : Compound, Visible c.text
  | .element e => element_visible e
  | .simple s => by
    obtain ⟨c, tail, shape, start⟩ := simple_starts s
    have shown : ∀ d ∈ ['.', '#', ':', '['], Text.isBlank d = false := by decide
    exact ⟨c, tail, shape, shown c start⟩
  | .also c s => visible_append c.text s.text (compound_visible c)

theorem complex_visible : ∀ x : Complex, Visible x.text
  | .one c => compound_visible c
  | .combined x _ _ => visible_append x.text _ (complex_visible x)

theorem series_visible : ∀ l : Series, Visible l.text
  | .one x => complex_visible x
  | .more x _ => visible_append x.text _ (complex_visible x)

theorem element_passes (depth : Nat) (added : List Char) (e : Element) (rest : List Char)
    (ends : Ends rest) : Passes depth added e.text e.text rest := by
  cases e with
  | any =>
      apply passes_plain depth added ['*'] rest (.delim '*')
      · apply lexemes_single
        have notMatch := ends_head rest ends '=' (by decide)
        cases rest with
        | nil => rfl
        | cons c rest =>
            have other : c ≠ '=' := by
              rintro rfl
              exact notMatch rfl
            change readMatch '*' (c :: rest) = _
            simp [readMatch, other]
      · rfl
      · rfl
  | named name => exact passes_ending_word depth added name rest ends

theorem combinator_passes (depth : Nat) (added : List Char) (k : Combinator) (rest : List Char)
    (visible : Visible rest) : Passes depth added k.text k.text rest := by
  have last := passes_space depth added rest (visible_notSpace rest visible)
  have mark (c : Char) (read : readToken c (' ' :: rest) = (.delim c, ' ' :: rest))
      (shown : isSpace c = false) (noPoint : c ≠ '.') :
      Passes depth added [' ', c, ' '] [' ', c, ' '] rest := by
    have middle : Passes depth added [c] [c] (' ' :: rest) :=
      passes_plain depth added [c] _ (.delim c) (lexemes_single c _ _ read)
        (by rw [roleOf_delim, if_neg noPoint]) rfl
    have first : Passes depth added [' '] [' '] (c :: ' ' :: rest) :=
      passes_space depth added _ (by
        intro d member
        cases member
        exact shown)
    exact passes_append depth added [' '] [c, ' '] [' '] [c, ' '] rest first
      (passes_append depth added [c] [' '] [c] [' '] rest middle last)
  cases k with
  | descendant => exact last
  | child => exact mark '>' rfl (by decide) (by decide)
  | next => exact mark '+' rfl (by decide) (by decide)
  | later => exact mark '~' rfl (by decide) (by decide)

mutual

theorem simple_passes (added : List Char) : ∀ (s : Simple) (depth : Nat) (rest : List Char),
    Ends rest → Passes depth added s.text (s.textWith added) rest
  | .ofClass name, depth, rest, ends => passes_class depth added name rest ends
  | .ofId name, depth, rest, ends => passes_id depth added name rest ends
  | .pseudoClass name, depth, rest, ends =>
    passes_append depth added [':'] name.chars [':'] name.chars rest (passes_colon depth added _)
      (passes_ending_word depth added name rest ends)
  | .pseudoElement name, depth, rest, ends =>
    passes_append depth added [':'] (':' :: name.chars) [':'] (':' :: name.chars) rest
      (passes_colon depth added _)
      (passes_append depth added [':'] name.chars [':'] name.chars rest
        (passes_colon depth added _) (passes_ending_word depth added name rest ends))
  | .function name notUrl arguments, depth, rest, _ =>
    have inner := series_passes added arguments depth (')' :: rest) (ends_cons ')' rest (by decide))
    passes_append depth added [':'] _ [':'] _ rest (passes_colon depth added _)
      (passes_function depth added name notUrl arguments.text (arguments.textWith added) rest inner)
  | .hasAttribute name value, depth, rest, _ => passes_attribute depth added name value rest

theorem compound_passes (added : List Char) : ∀ (c : Compound) (depth : Nat) (rest : List Char),
    Ends rest → Passes depth added c.text (c.textWith added) rest
  | .element e, depth, rest, ends => element_passes depth added e rest ends
  | .simple s, depth, rest, ends => simple_passes added s depth rest ends
  | .also c s, depth, rest, ends =>
    passes_append depth added c.text s.text _ _ rest
      (compound_passes added c depth (s.text ++ rest) (simple_ends s rest))
      (simple_passes added s depth rest ends)

theorem complex_passes (added : List Char) : ∀ (x : Complex) (depth : Nat) (rest : List Char),
    Ends rest → Passes depth added x.text (x.textWith added) rest
  | .one c, depth, rest, ends => compound_passes added c depth rest ends
  | .combined x k c, depth, rest, ends => by
    have spaced : Ends (k.text ++ c.text ++ rest) := by
      cases k <;> exact ends_cons ' ' _ (by decide)
    have shown : Visible (c.text ++ rest) := visible_append c.text rest (compound_visible c)
    exact passes_append depth added x.text (k.text ++ c.text) _ _ rest
      (complex_passes added x depth _ spaced)
      (passes_append depth added k.text c.text k.text _ rest
        (combinator_passes depth added k _ shown) (compound_passes added c depth rest ends))

theorem series_passes (added : List Char) : ∀ (l : Series) (depth : Nat) (rest : List Char),
    Ends rest → Passes (depth + 1) added l.text (l.textWith added) rest
  | .one x, depth, rest, ends => complex_passes added x (depth + 1) rest ends
  | .more x l, depth, rest, ends => by
    have comma : Passes (depth + 1) added [','] [','] (' ' :: (l.text ++ rest)) :=
      passes_plain (depth + 1) added [','] _ .comma (lexemes_single ',' _ .comma rfl) rfl rfl
    have space : Passes (depth + 1) added [' '] [' '] (l.text ++ rest) :=
      passes_space (depth + 1) added _
        (visible_notSpace _ (visible_append l.text rest (series_visible l)))
    exact passes_append (depth + 1) added x.text (',' :: ' ' :: l.text) _ _ rest
      (complex_passes added x (depth + 1) _ (ends_cons ',' _ (by decide)))
      (passes_append (depth + 1) added [','] (' ' :: l.text) [','] _ rest comma
        (passes_append (depth + 1) added [' '] l.text [' '] _ rest space
          (series_passes added l depth rest ends)))

end

/-- No part ends in white space, as an escape at its end may. -/
def EndsVisibly (w : List Char) : Prop := ∀ c ∈ w.getLast?, Text.isBlank c = false

instance (w : List Char) : Decidable (EndsVisibly w) :=
  inferInstanceAs (Decidable (∀ c ∈ w.getLast?, Text.isBlank c = false))

theorem trim_visible (w : List Char) (visible : Visible w) (ends : EndsVisibly w) :
    Text.trim w = w := by
  refine Text.trim_of_shown w ?_ ends
  obtain ⟨c, tail, rfl, shown⟩ := visible
  intro d first
  cases first
  exact shown

theorem visible_trim (cs : List Char) (some : Text.trim cs ≠ []) : Visible (Text.trim cs) := by
  obtain ⟨c, tail, shape⟩ := List.exists_cons_of_ne_nil some
  exact ⟨c, tail, shape, Text.trim_head? cs c (by rw [shape]; rfl)⟩

theorem trim_space (w : List Char) : Text.trim (' ' :: w) = Text.trim w := by
  have blank : Text.isBlank ' ' = true := by decide
  simp [Text.trim, Text.trimStart, blank]

theorem textsBetweenCommas_append (ps qs : List Piece) (text : List Char)
    (texts : List (List Char)) (noComma : ∀ p ∈ ps, p.role ≠ .listComma)
    (after : textsBetweenCommas qs = text :: texts) :
    textsBetweenCommas (ps ++ qs) = (ps.flatMap Piece.text ++ text) :: texts := by
  induction ps with
  | nil => exact after
  | cons p ps ih =>
      have inner := ih (fun q member => noComma q (List.mem_cons_of_mem p member))
      rw [List.cons_append, textsBetweenCommas, if_neg (noComma p List.mem_cons_self), inner,
        List.flatMap_cons, List.append_assoc]

theorem textsBetweenCommas_nonempty (ps : List Piece) :
    ∃ text texts, textsBetweenCommas ps = text :: texts := by
  cases ps with
  | nil => exact ⟨[], [], rfl⟩
  | cons p ps =>
      unfold textsBetweenCommas
      split
      · exact ⟨[], _, rfl⟩
      · split
        · exact ⟨p.text, [], rfl⟩
        · exact ⟨_, _, rfl⟩

theorem passes_prefixed (added w changed rest : List Char)
    (passes : Passes 0 added w changed rest) :
    prefixedOf added (w ++ rest) = changed ++ prefixedOf added rest := by
  obtain ⟨ps, scanned, _, same⟩ := passes
  change (pieces ⟨0, []⟩ (lexemes (w ++ rest))).flatMap (prefixedPiece added) = _
  rw [scanned, List.flatMap_append, same]
  rfl

theorem passes_texts (added w changed rest text : List Char) (texts : List (List Char))
    (passes : Passes 0 added w changed rest)
    (after : textsBetweenCommas (scan rest) = text :: texts) :
    textsBetweenCommas (scan (w ++ rest)) = (w ++ text) :: texts := by
  obtain ⟨ps, scanned, noComma, _⟩ := passes
  change scan (w ++ rest) = ps ++ scan rest at scanned
  have whole := congrArg (List.flatMap Piece.text) scanned
  rw [List.flatMap_append, flatMap_text_scan, flatMap_text_scan] at whole
  rw [scanned, textsBetweenCommas_append ps _ text texts noComma after,
    List.append_cancel_right whole]

theorem scan_nil : scan [] = [] := by rw [scan, lexemes_nil, pieces]

theorem scan_comma (rest : List Char) : scan (',' :: rest) = ⟨.listComma, [',']⟩ :: scan rest := by
  rw [scan, lexemes_single ',' rest .comma rfl]
  rfl

theorem prefixed_nil (added : List Char) : prefixedOf added [] = [] := by
  rw [prefixedOf, scan_nil]
  rfl

theorem prefixed_comma (added rest : List Char) :
    prefixedOf added (',' :: rest) = ',' :: prefixedOf added rest := by
  rw [prefixedOf, scan_comma]
  rfl

theorem texts_nil : textsBetweenCommas (scan []) = [[]] := by
  rw [scan_nil]
  rfl

theorem texts_comma (rest : List Char) :
    textsBetweenCommas (scan (',' :: rest)) = [] :: textsBetweenCommas (scan rest) := by
  rw [scan_comma]
  rfl

theorem texts_separated (w changed rest : List Char) (visible : Visible w) (ends : EndsVisibly w)
    (more : Visible rest) (passes : Passes 0 [] w changed (',' :: ' ' :: rest)) :
    (textsBetweenCommas (scan (w ++ ',' :: ' ' :: rest))).map Text.trim =
      w :: (textsBetweenCommas (scan rest)).map Text.trim := by
  obtain ⟨text, texts, tail⟩ := textsBetweenCommas_nonempty (scan rest)
  have space := passes_texts [] [' '] [' '] rest text texts
    (passes_space 0 [] rest (visible_notSpace rest more)) tail
  have separated := (texts_comma (' ' :: rest)).trans (congrArg (List.cons []) space)
  have front := passes_texts [] w changed _ [] _ passes separated
  rw [front, List.map_cons, List.map_cons, List.append_nil, List.singleton_append, trim_space,
    trim_visible w visible ends, tail, List.map_cons]

theorem series_space (added : List Char) (l : Series) : Passes 0 added [' '] [' '] l.text :=
  passes_space 0 added l.text (visible_notSpace _ (series_visible l))

theorem series_prefixed (added : List Char) : ∀ l : Series,
    prefixedOf added l.text = l.textWith added
  | .one x => by
    have front := passes_prefixed added _ _ [] (complex_passes added x 0 [] (by simp [Ends]))
    rwa [List.append_nil, prefixed_nil, List.append_nil] at front
  | .more x l => by
    have front := passes_prefixed added _ _ (',' :: ' ' :: l.text)
      (complex_passes added x 0 _ (ends_cons ',' _ (by decide)))
    have space := passes_prefixed added _ _ l.text (series_space added l)
    change prefixedOf added (x.text ++ ',' :: ' ' :: l.text) =
      x.textWith added ++ ',' :: ' ' :: l.textWith added
    change prefixedOf added (' ' :: l.text) = ' ' :: prefixedOf added l.text at space
    rw [front, prefixed_comma, space, series_prefixed added l]

theorem series_texts : ∀ l : Series, (∀ x ∈ l.parts, EndsVisibly x.text) →
    (textsBetweenCommas (scan l.text)).map Text.trim = l.parts.map Complex.text
  | .one x, ends => by
    have front := passes_texts [] _ _ [] [] [] (complex_passes [] x 0 [] (by simp [Ends])) texts_nil
    rw [List.append_nil] at front
    change (textsBetweenCommas (scan x.text)).map Text.trim = [x.text]
    rw [front, List.map_singleton,
      trim_visible _ (complex_visible x) (ends x List.mem_cons_self)]
  | .more x l, ends => by
    have below := series_texts l (fun y member => ends y (List.mem_cons_of_mem x member))
    have front := texts_separated _ _ l.text (complex_visible x) (ends x List.mem_cons_self)
      (series_visible l) (complex_passes [] x 0 _ (ends_cons ',' _ (by decide)))
    change (textsBetweenCommas (scan (x.text ++ ',' :: ' ' :: l.text))).map Text.trim =
      x.text :: l.parts.map Complex.text
    rw [front, below]

theorem series_parts (l : Series) (ends : ∀ x ∈ l.parts, EndsVisibly x.text) :
    partsOf l.text = l.parts.map Complex.text := by
  rw [partsOf, series_texts l ends]
  apply List.filter_eq_self.mpr
  intro w member
  obtain ⟨x, _, rfl⟩ := List.mem_map.mp member
  obtain ⟨c, tail, shape, _⟩ := complex_visible x
  simp [shape]

/-- A name in front of the classes of a list reaches every class, however deep, and changes nothing
else; and a list splits into exactly its own selectors. -/
theorem prefixed_and_parts_of_series (l : Series) :
    (∀ name : String, prefixed name (String.ofList l.text) =
        String.ofList (l.textWith name.toList)) ∧
      ((∀ x ∈ l.parts, EndsVisibly x.text) →
        parts (String.ofList l.text) = l.parts.map fun x => String.ofList x.text) := by
  constructor
  · intro name
    rw [prefixed, String.toList_ofList, series_prefixed]
  · intro ends
    rw [parts, String.toList_ofList, series_parts l ends, List.map_map]
    rfl

theorem parts_of_hidden_commas :
    parts ".a\\,b:not(.c, #d), .e" = [".a\\,b:not(.c, #d)", ".e"] :=
  (prefixed_and_parts_of_series
    (.more
      (.one (.also (.simple (.ofClass ⟨['a', ',', 'b'], by decide⟩))
        (.function ⟨'n', ['o', 't'], by decide, by decide⟩ (by decide)
          (.more (.one (.simple (.ofClass ⟨['c'], by decide⟩)))
            (.one (.one (.simple (.ofId ⟨['d'], by decide⟩))))))))
      (.one (.one (.simple (.ofClass ⟨['e'], by decide⟩)))))).2 (by decide)

end StyleLayers.Selector
