import StyleLayers.Proofs.Css.Cutting
import StyleLayers.Proofs.Css.Points
import StyleLayers.Proofs.Selector.Balance

/-!
Splitting a list again that was split and joined. It gives the same parts, except where trimming
has taken from a part what belongs to its last token.
-/

namespace StyleLayers.Selector

open Css

/-- Read token by token from inside `n`, the text reaches `rest` without a comma that separates the
list. Then no bracket is open, or the text is at its end. -/
inductive Covers : Nesting → List Char → List Char → Prop where
  | here (rest : List Char) : Covers .outermost rest rest
  | atEnd (n : Nesting) : Covers n [] []
  | token {n : Nesting} {c : Char} {cs rest : List Char}
      (role : roleOf n (readToken c cs).1 ≠ .listComma)
      (after : Covers (nestingAfter n (readToken c cs).1) (readToken c cs).2 rest) :
      Covers n (c :: cs) rest

theorem listComma_of_role (n : Nesting) (t : Token) (role : roleOf n t = .listComma) :
    t = .comma ∧ n = .outermost := by
  obtain ⟨depth, passed⟩ := n
  by_cases inside : passed = []
  · subst inside
    cases t with
    | comma =>
        by_cases outer : depth = 0
        · exact ⟨rfl, by rw [outer]; rfl⟩
        · change (if depth = 0 then Role.listComma else .plain) = .listComma at role
          rw [if_neg outer] at role
          cases role
    | delim c =>
        rw [roleOf_delim] at role
        split at role <;> cases role
    | _ => cases role
  · unfold roleOf at role
    rw [if_pos inside] at role
    cases role

theorem nestingAfter_space (n : Nesting) : nestingAfter n .space = n := by
  obtain ⟨depth, passed⟩ := n
  cases passed with
  | nil => rfl
  | cons b passed => cases b <;> rfl

namespace Covers

variable {n : Nesting} {x rest : List Char}

theorem suffix (covers : Covers n x rest) : rest <:+ x := by
  induction covers with
  | here => exact List.suffix_rfl
  | atEnd => exact List.suffix_rfl
  | @token n c cs rest role after ih =>
      exact (ih.trans (readToken_suffix c cs)).trans (List.suffix_cons c cs)

theorem outermost (covers : Covers n x x) (some : x ≠ []) : n = .outermost := by
  cases covers with
  | here => rfl
  | atEnd => exact absurd rfl some
  | @token _ c cs _ role after =>
      have shorter := after.suffix.length_le.trans (readToken_suffix c cs).length_le
      exact absurd shorter (by simp)

theorem pieces (covers : Covers n x rest) :
    ∃ ps, Selector.pieces n (lexemes x) = ps ++ scan rest ∧ ∀ p ∈ ps, p.role ≠ .listComma := by
  induction covers with
  | here => exact ⟨[], rfl, List.forall_mem_nil _⟩
  | atEnd n => exact ⟨[], by rw [lexemes_nil, scan_nil]; rfl, List.forall_mem_nil _⟩
  | @token n c cs rest role after ih =>
      obtain ⟨ps, scanned, noComma⟩ := ih
      refine ⟨⟨roleOf n (readToken c cs).1, c :: textBefore cs (readToken c cs).2⟩ :: ps, ?_,
        List.forall_mem_cons.mpr ⟨role, noComma⟩⟩
      rw [lexemes, Selector.pieces, scanned, List.cons_append]

theorem passes {w : List Char} (covers : Covers .outermost (w ++ rest) rest) :
    ∃ changed, Passes 0 [] w changed rest := by
  obtain ⟨ps, scanned, noComma⟩ := covers.pieces
  exact ⟨_, ps, scanned, noComma, rfl⟩

theorem badStrings (covers : Covers n x rest) (unbroken : ∀ l ∈ lexemes x, l.token ≠ .badString) :
    ∀ l ∈ lexemes rest, l.token ≠ .badString := by
  induction covers with
  | here => exact unbroken
  | atEnd => exact unbroken
  | token role after ih =>
      rw [lexemes] at unbroken
      exact ih (List.forall_mem_cons.mp unbroken).2

theorem total (n : Nesting) (x : List Char) :
    Covers n x [] ∨ ∃ behind, Covers n x (',' :: behind) := by
  match x with
  | [] => exact Or.inl (.atEnd n)
  | c :: cs =>
    by_cases role : roleOf n (readToken c cs).1 = .listComma
    · obtain ⟨comma, rfl⟩ := listComma_of_role n _ role
      obtain rfl := readToken_comma c cs comma
      exact Or.inr ⟨cs, .here _⟩
    · have shorter := (readToken_suffix c cs).length_le
      rcases total (nestingAfter n (readToken c cs).1) (readToken c cs).2 with after | ⟨behind, after⟩
      · exact Or.inl (.token role after)
      · exact Or.inr ⟨behind, .token role after⟩
termination_by x.length

theorem not_beyond {behind : List Char} (covers : Covers n x (',' :: behind))
    (further : Covers n x rest) : behind.length < rest.length := by
  generalize shape : ',' :: behind = comma at covers
  induction covers with
  | here =>
      cases further with
      | here => simp [← shape]
      | atEnd => cases shape
      | token role after =>
          cases shape
          exact absurd rfl role
  | atEnd => cases shape
  | @token n c cs _ role after ih =>
      cases further with
      | here =>
          have shorter := after.suffix.length_le.trans (readToken_suffix c cs).length_le
          rw [← shape] at shorter
          simp only [List.length_cons] at shorter ⊢
          omega
      | token _ further => exact ih further shape

theorem readToken_spaces (c : Char) (lead : List Char) (space : isSpace c = true)
    (blank : ∀ d ∈ lead, isSpace d = true) (ends : ∀ d ∈ x.head?, isSpace d = false) :
    readToken c (lead ++ x) = (.space, x) := by
  have stops : x.dropWhile isSpace = x := by
    cases x with
    | nil => rfl
    | cons d x => exact List.dropWhile_cons_of_neg (by simp [ends d rfl])
  have read : readToken c (lead ++ x) = (.space, (lead ++ x).dropWhile isSpace) := if_pos space
  rw [read, List.dropWhile_append_of_pos blank, stops]

theorem behind_spaces {lead : List Char} (blank : ∀ c ∈ lead, isSpace c = true)
    (ends : ∀ c ∈ x.head?, isSpace c = false) (short : rest.length ≤ x.length)
    (covers : Covers n (lead ++ x) rest) : Covers n x rest := by
  cases lead with
  | nil => exact covers
  | cons c lead =>
      obtain ⟨space, blank⟩ := List.forall_mem_cons.mp blank
      have read := readToken_spaces c lead space blank ends
      rw [List.cons_append] at covers
      cases covers with
      | here =>
          simp only [List.length_append, List.length_cons] at short
          omega
      | token role after =>
          rw [read, nestingAfter_space] at after
          exact after

theorem comma_outermost (k : Css.Cut) {left : List Char} (part : left <:+ k.trail)
    (covers : Covers n (left ++ ',' :: k.behind) (',' :: k.behind)) : n = .outermost := by
  have blank : ∀ c ∈ left, isSpace c = true := fun c member => k.blank c (part.subset member)
  have ends : ∀ c ∈ (',' :: k.behind).head?, isSpace c = false := by simp [isSpace, isNewline]
  exact (behind_spaces blank ends le_rfl covers).outermost (List.cons_ne_nil _ _)

theorem cut (k : Css.Cut) {x' : List Char} (beside : k.Beside x x')
    (unbroken : k.trail = [] ∨ ∀ l ∈ lexemes x, l.token ≠ .badString)
    (covers : Covers n x (',' :: k.behind)) : Covers n x' (',' :: k.behind') := by
  generalize shape : ',' :: k.behind = comma at covers
  induction covers generalizing x' with
  | here =>
      subst shape
      cases beside with
      | comma => exact .here _
      | other _ _ behind => exact absurd behind.longer (lt_irrefl _)
  | atEnd => cases shape
  | @token n c cs _ role after ih =>
      subst shape
      rw [lexemes] at unbroken
      have sound := unbroken.imp_right fun all => (List.forall_mem_cons.mp all).1
      have calm := unbroken.imp_right fun all => (List.forall_mem_cons.mp all).2
      have onwards (cs' : List Char) (agree : k.Agree (readToken c cs) (readToken c cs')) :
          Covers n (c :: cs') (',' :: k.behind') := by
        rcases agree with ⟨same, left⟩ | past
        · refine .token (same ▸ role) ?_
          rw [← same]
          exact ih left calm rfl
        · have reached := after.suffix.length_le
          simp only [List.length_cons] at reached
          omega
      cases beside with
      | comma left part whole =>
          have covers := Covers.token role after
          rw [whole] at covers
          rw [comma_outermost k part covers]
          exact .here _
      | other _ plain behind => exact onwards _ (Css.Cut.readToken_agree c plain behind sound)
      | escape d behind => exact onwards _ (Css.Cut.readBackslash_agree d behind)
      | escapedComma => exact onwards _ (Css.Cut.readBackslash_comma _)

theorem alone {w v : List Char} (short : rest.length ≤ v.length)
    (covers : Covers .outermost (w ++ v) rest) : Covers .outermost w [] := by
  rcases total .outermost w with ended | ⟨behind, reached⟩
  · exact ended
  · obtain ⟨u, rfl⟩ := reached.suffix
    let k : Css.Cut := ⟨[], behind, behind ++ v, List.forall_mem_nil _⟩
    have beside : k.Beside (u ++ ',' :: behind) (u ++ ',' :: (behind ++ v)) :=
      k.beside_append u (Or.inl rfl)
    have onwards : Covers .outermost (u ++ ',' :: (behind ++ v)) (',' :: (behind ++ v)) :=
      cut k beside (Or.inl rfl) reached
    have further := onwards.not_beyond (by simpa using covers)
    rw [List.length_append] at further
    omega

theorem separates {w trail behind : List Char} (blank : ∀ c ∈ trail, isSpace c = true)
    (whole : dangles w = false)
    (unbroken : ∀ l ∈ lexemes (w ++ (trail ++ ',' :: behind)), l.token ≠ .badString)
    (covers : Covers .outermost (w ++ (trail ++ ',' :: behind)) (',' :: behind))
    (behind' : List Char) : Covers .outermost (w ++ ',' :: behind') (',' :: behind') := by
  let k : Css.Cut := ⟨trail, behind, behind', blank⟩
  exact cut k (k.beside_append w (Or.inr whole)) (Or.inr unbroken) covers

end Covers

theorem unbroken_spaces {lead x : List Char} (blank : ∀ c ∈ lead, isSpace c = true)
    (ends : ∀ c ∈ x.head?, isSpace c = false)
    (unbroken : ∀ l ∈ lexemes (lead ++ x), l.token ≠ .badString) :
    ∀ l ∈ lexemes x, l.token ≠ .badString := by
  cases lead with
  | nil => exact unbroken
  | cons c lead =>
      obtain ⟨space, blank⟩ := List.forall_mem_cons.mp blank
      rw [List.cons_append, lexemes, Covers.readToken_spaces c lead space blank ends] at unbroken
      exact (List.forall_mem_cons.mp unbroken).2

theorem texts_covered {t behind : List Char}
    (covers : Covers .outermost (t ++ ',' :: behind) (',' :: behind)) :
    textsBetweenCommas (scan (t ++ ',' :: behind)) = t :: textsBetweenCommas (scan behind) := by
  obtain ⟨changed, passes⟩ := covers.passes
  rw [passes_texts [] t changed _ [] _ passes (texts_comma behind), List.append_nil]

theorem texts_single {t : List Char} (covers : Covers .outermost t []) :
    textsBetweenCommas (scan t) = [t] := by
  rw [← List.append_nil t] at covers
  obtain ⟨changed, passes⟩ := covers.passes
  have texts := passes_texts [] t changed [] [] [] passes texts_nil
  rwa [List.append_nil] at texts

/-- The white space that trimming cuts off a text is white space of the syntax. -/
def CutsSpaces (t : List Char) : Prop :=
  ∀ c ∈ Text.lead t ++ Text.trail t, isSpace c = true

instance (t : List Char) : Decidable (CutsSpaces t) :=
  inferInstanceAs (Decidable (∀ c ∈ Text.lead t ++ Text.trail t, isSpace c = true))

theorem trim_front (t rest : List Char) (some : Text.trim t ≠ []) :
    ∀ c ∈ (Text.trim t ++ rest).head?, isSpace c = false :=
  visible_notSpace _ (visible_append _ rest (visible_trim t some))

theorem trim_split_append (t rest : List Char) :
    t ++ rest = Text.lead t ++ (Text.trim t ++ (Text.trail t ++ rest)) := by
  conv_lhs => rw [Text.trim_split t]
  simp only [List.append_assoc]

theorem covers_trimmed {t rest : List Char} (some : Text.trim t ≠ []) (spaces : CutsSpaces t)
    (covers : Covers .outermost (t ++ rest) rest) :
    Covers .outermost (Text.trim t ++ (Text.trail t ++ rest)) rest := by
  rw [trim_split_append] at covers
  refine covers.behind_spaces (fun c member => spaces c (List.mem_append_left _ member))
    (trim_front t _ some) ?_
  simp only [List.length_append]
  omega

theorem partsOf_single {t : List Char} (covers : Covers .outermost t []) :
    partsOf t = if Text.trim t = [] then [] else [Text.trim t] := by
  rw [partsOf, texts_single covers]
  by_cases none : Text.trim t = [] <;> simp [none]

theorem partsOf_covered {t behind : List Char}
    (covers : Covers .outermost (t ++ ',' :: behind) (',' :: behind)) :
    partsOf (t ++ ',' :: behind) =
      if Text.trim t = [] then partsOf behind else Text.trim t :: partsOf behind := by
  rw [partsOf, texts_covered covers, List.map_cons, List.filter_cons]
  by_cases none : Text.trim t = [] <;> simp [none, partsOf]

theorem alone_passes {t rest : List Char} (some : Text.trim t ≠ []) (spaces : CutsSpaces t)
    (covers : Covers .outermost (t ++ rest) rest) :
    ∃ changed, Passes 0 [] (Text.trim t) changed [] := by
  have alone := (covers_trimmed some spaces covers).alone (by simp)
  rw [← List.append_nil (Text.trim t)] at alone
  exact alone.passes

theorem separate_passes {t behind : List Char} (some : Text.trim t ≠ []) (spaces : CutsSpaces t)
    (covers : Covers .outermost (t ++ ',' :: behind) (',' :: behind))
    (unbroken : ∀ l ∈ lexemes (t ++ ',' :: behind), l.token ≠ .badString)
    (whole : dangles (Text.trim t) = false) (behind' : List Char) :
    ∃ changed, Passes 0 [] (Text.trim t) changed (',' :: behind') := by
  rw [trim_split_append] at unbroken
  have sound := unbroken_spaces (fun c member => spaces c (List.mem_append_left _ member))
    (trim_front t _ some) unbroken
  have blank : ∀ c ∈ Text.trail t, isSpace c = true :=
    fun c member => spaces c (List.mem_append_right _ member)
  exact ((covers_trimmed some spaces covers).separates blank whole sound behind').passes

theorem parts_join (s : List Char)
    (spaces : ∀ t ∈ textsBetweenCommas (scan s), Text.trim t ≠ [] → CutsSpaces t)
    (unbroken : ∀ l ∈ lexemes s, l.token ≠ .badString)
    (escapes : ∀ w ∈ (partsOf s).dropLast, dangles w = false) : Joins (partsOf s) := by
  rcases Covers.total .outermost s with ended | ⟨behind, reached⟩
  · rw [texts_single ended, List.forall_mem_singleton] at spaces
    rw [partsOf_single ended]
    split
    · exact .none
    · next some =>
      rw [← List.append_nil s] at ended
      obtain ⟨changed, passes⟩ := alone_passes some (spaces some) ended
      exact .one (visible_trim s some) (Text.trim_getLast? s) passes
  · obtain ⟨t, rfl⟩ := reached.suffix
    rw [texts_covered reached] at spaces
    obtain ⟨spacesFirst, spacesOthers⟩ := List.forall_mem_cons.mp spaces
    have soundComma := reached.badStrings unbroken
    rw [lexemes_single ',' behind .comma rfl] at soundComma
    have soundOthers := (List.forall_mem_cons.mp soundComma).2
    rw [partsOf_covered reached] at escapes ⊢
    split
    · next none =>
      rw [if_pos none] at escapes
      exact parts_join behind spacesOthers soundOthers escapes
    · next some =>
      rw [if_neg some] at escapes
      cases parts : partsOf behind with
      | nil =>
          obtain ⟨changed, passes⟩ := alone_passes some (spacesFirst some) reached
          exact .one (visible_trim t some) (Text.trim_getLast? t) passes
      | cons v ws =>
          rw [parts, List.dropLast_cons_cons] at escapes
          obtain ⟨whole, escapesOthers⟩ := List.forall_mem_cons.mp escapes
          have joins := parts_join behind spacesOthers soundOthers (parts ▸ escapesOthers)
          obtain ⟨changed, passes⟩ := separate_passes some (spacesFirst some) reached unbroken whole
            (' ' :: listText (v :: ws))
          exact .more (visible_trim t some) (Text.trim_getLast? t) passes (parts ▸ joins)
termination_by s.length

theorem toList_joined (s : String) :
    (", ".intercalate (parts s)).toList = listText (partsOf s.toList) := by
  rw [← listText_toList, parts, List.map_map]
  simp only [Function.comp_def, String.toList_ofList, List.map_id']

/-- Splitting a joined list again gives the parts it was joined from, where trimming has cut off
white space of the syntax only, no string is broken, and no part in front of another ends in a
backslash that has lost its character. -/
theorem parts_rejoined (s : String)
    (spaces : ∀ t ∈ textsBetweenCommas (scan s.toList), Text.trim t ≠ [] → CutsSpaces t)
    (unbroken : .badString ∉ tokens s)
    (escapes : ∀ w ∈ (parts s).dropLast, dangles w.toList = false) :
    parts (", ".intercalate (parts s)) = parts s := by
  have sound : ∀ l ∈ lexemes s.toList, l.token ≠ .badString := by
    intro l member broken
    exact unbroken (broken ▸ List.mem_map_of_mem member)
  have whole : ∀ w ∈ (partsOf s.toList).dropLast, dangles w = false := by
    intro w member
    have inside : String.ofList w ∈ (parts s).dropLast := by
      rw [parts, ← List.map_dropLast]
      exact List.mem_map_of_mem member
    simpa using escapes (String.ofList w) inside
  rw [parts, toList_joined, (parts_join s.toList spaces sound whole).parts]
  rfl

theorem parts_rejoined_escapes :
    parts (", ".intercalate (parts " .\\31 , a[b=\", \"] > c:is(d, e) ,, f\\\\\t, g( h, ")) =
      parts " .\\31 , a[b=\", \"] > c:is(d, e) ,, f\\\\\t, g( h, " :=
  parts_rejoined _ (by decide +kernel) (by decide +kernel) (by decide +kernel)

/-- An escaped space, the line break that ends a broken string and a space that is part of a name
are cut off with the white space around the parts. Joined again, the parts run into each other, or
a URL opens that was none. -/
theorem some_parts_run_together :
    (parts ".a\\ , .b" = [".a\\", ".b"] ∧
        parts (", ".intercalate (parts ".a\\ , .b")) = [".a\\, .b"]) ∧
      (parts "\"a\n, .b" = ["\"a", ".b"] ∧
        parts (", ".intercalate (parts "\"a\n, .b")) = ["\"a, .b"]) ∧
      (parts "\u00a0url(a (b), c)" = ["url(a (b), c)"] ∧
        parts (", ".intercalate (parts "\u00a0url(a (b), c)")) = ["url(a (b)", "c)"]) := by
  decide +kernel

end StyleLayers.Selector
