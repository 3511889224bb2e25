import StyleLayers.Proofs.Css.Stops
import StyleLayers.Proofs.Selector.Prefixing

/-!
Selector texts whose parentheses belong to functional pseudo-classes and close again. Splitting such
a text cuts it at the commas outside of all parentheses, and nesting keeps it such a text.
-/

namespace StyleLayers.Selector

open Css

def functions : List (List Char) :=
  [['n', 'o', 't'], ['i', 's'], ['w', 'h', 'e', 'r', 'e'], ['h', 'a', 's']]

/-- With `depth` parentheses open in front of it, the text closes them all and no others. Commas
stand inside parentheses only. -/
inductive Balances : Nat → List Char → Prop where
  | nil : Balances 0 []
  | other {depth : Nat} {c : Char} {rest : List Char} (tame : c ∉ wildChars)
      (after : Balances depth rest) : Balances depth (c :: rest)
  | comma {depth : Nat} {rest : List Char} (after : Balances (depth + 1) rest) :
      Balances (depth + 1) (',' :: rest)
  | function {depth : Nat} {name rest : List Char} (known : name ∈ functions)
      (after : Balances (depth + 1) rest) : Balances depth (':' :: (name ++ '(' :: rest))
  | closing {depth : Nat} {rest : List Char} (after : Balances depth rest) :
      Balances (depth + 1) (')' :: rest)

theorem function_word (name : List Char) (known : name ∈ functions) :
    ∃ word : Word, word.chars = name ∧ isUrlName name = false := by
  simp only [functions, List.mem_cons, List.not_mem_nil, or_false] at known
  rcases known with rfl | rfl | rfl | rfl
  · exact ⟨⟨'n', ['o', 't'], by decide, by decide⟩, rfl, by decide⟩
  · exact ⟨⟨'i', ['s'], by decide, by decide⟩, rfl, by decide⟩
  · exact ⟨⟨'w', ['h', 'e', 'r', 'e'], by decide, by decide⟩, rfl, by decide⟩
  · exact ⟨⟨'h', ['a', 's'], by decide, by decide⟩, rfl, by decide⟩

namespace Balances

theorem noEscape {depth : Nat} {w : List Char} (balances : Balances depth w) : '\\' ∉ w := by
  induction balances with
  | nil => exact List.not_mem_nil
  | other tame _ ih =>
      rw [List.mem_cons, not_or]
      refine ⟨?_, ih⟩
      rintro rfl
      exact tame (by decide)
  | comma _ ih => simpa using ih
  | function known _ ih =>
      obtain ⟨word, rfl, _⟩ := function_word _ known
      simp [word.notMem '\\' (by decide), ih]
  | closing _ ih => simpa using ih

theorem tail {depth : Nat} {c : Char} {w : List Char} (noStop : c ∉ stops)
    (balances : Balances depth (c :: w)) : Balances depth w := by
  cases balances with
  | other _ after => exact after
  | comma _ => exact absurd (by decide) noStop
  | function _ _ => exact absurd (by decide) noStop
  | closing _ => exact absurd (by decide) noStop

theorem dropFree {depth : Nat} (free : List Char) {w : List Char} (noStop : ∀ c ∈ free, c ∉ stops)
    (balances : Balances depth (free ++ w)) : Balances depth w := by
  induction free with
  | nil => exact balances
  | cons c free ih =>
      obtain ⟨noStopHere, noStopBehind⟩ := List.forall_mem_cons.mp noStop
      exact ih noStopBehind (balances.tail noStopHere)

theorem noOpening {depth : Nat} {w : List Char} : ¬Balances depth ('(' :: w) := by
  intro balances
  cases balances with
  | other tame _ => exact tame (by decide)

end Balances

def EndsPart (rest : List Char) : Prop := rest = [] ∨ ∃ tail, rest = ',' :: tail

theorem reaches_within (w rest left : List Char) (ends : EndsPart rest)
    (reaches : Reaches (w ++ rest) left) :
    ∃ free w', w = free ++ w' ∧ left = w' ++ rest ∧ ∀ c ∈ free, c ∉ stops := by
  obtain ⟨free, shape, noStop⟩ := reaches
  rcases List.append_eq_append_iff.mp shape with ⟨beyond, reached, ended⟩ | ⟨w', reached, left⟩
  · cases beyond with
    | nil =>
        refine ⟨w, [], (List.append_nil w).symm, ended.symm, ?_⟩
        rwa [reached, List.append_nil] at noStop
    | cons c beyond =>
        rcases ends with rfl | ⟨tail, rfl⟩
        · cases ended
        · cases ended
          exact absurd (by decide) (noStop ',' (by simp [reached]))
  · exact ⟨free, w', reached, left, noStop⟩

theorem plain_noComma : Role.plain ≠ .listComma := by decide

theorem inert_piece (depth : Nat) (t : Token) (inert : isInert t = true) :
    roleOf ⟨depth, []⟩ t ≠ .listComma ∧ nestingAfter ⟨depth, []⟩ t = ⟨depth, []⟩ := by
  cases t with
  | delim c =>
      rw [roleOf_delim]
      refine ⟨?_, rfl⟩
      split <;> decide
  | function _ | opening _ | closing _ | comma => cases inert
  | _ => exact ⟨plain_noComma, rfl⟩

/-- With `depth` parentheses open in front of `w` and none behind it, none of its pieces separates
the list. -/
def Spans (depth : Nat) (w rest : List Char) : Prop :=
  ∃ ps : List Piece,
    pieces ⟨depth, []⟩ (lexemes (w ++ rest)) = ps ++ pieces ⟨0, []⟩ (lexemes rest) ∧
      ∀ p ∈ ps, p.role ≠ .listComma

theorem spans_cons {depth deeper : Nat} (text : List Char) {w w' rest : List Char} {t : Token}
    (read : lexemes (w ++ rest) = ⟨t, text⟩ :: lexemes (w' ++ rest))
    (role : roleOf ⟨depth, []⟩ t ≠ .listComma)
    (level : nestingAfter ⟨depth, []⟩ t = ⟨deeper, []⟩) (spans : Spans deeper w' rest) :
    Spans depth w rest := by
  obtain ⟨ps, scanned, noComma⟩ := spans
  refine ⟨⟨roleOf ⟨depth, []⟩ t, text⟩ :: ps, ?_, List.forall_mem_cons.mpr ⟨role, noComma⟩⟩
  rw [read, pieces, level, scanned, List.cons_append]

theorem spans_function (depth : Nat) (name w rest : List Char) (known : name ∈ functions)
    (spans : Spans (depth + 1) w rest) : Spans depth (':' :: (name ++ '(' :: w)) rest := by
  obtain ⟨word, rfl, notUrl⟩ := function_word name known
  have opening := lexemes_function word.chars word.chars (w ++ rest) (by simp [Word.chars])
    (word.startsIdent _) (word.readName _ (stopsName_cons '(' _ (by decide) (by decide))) notUrl
  have shape : word.chars ++ '(' :: w ++ rest = word.chars ++ '(' :: (w ++ rest) := by simp
  rw [← shape] at opening
  have inside : Spans depth (word.chars ++ '(' :: w) rest :=
    spans_cons _ opening plain_noComma rfl spans
  exact spans_cons [':'] (lexemes_single ':' _ .colon rfl) plain_noComma rfl inside

theorem balances_noOpening {depth : Nat} {w rest tail : List Char} (balances : Balances depth w)
    (ends : EndsPart rest) : ¬Reaches (w ++ rest) ('(' :: tail) := by
  intro on
  obtain ⟨free, w', rfl, left, noStop⟩ := reaches_within w rest _ ends on
  cases w' with
  | nil =>
      rcases ends with rfl | ⟨tail, rfl⟩
      · cases left
      · cases left
  | cons c w' =>
      cases left
      exact (balances.dropFree free noStop).noOpening

theorem spans_token {depth : Nat} {c : Char} {w rest : List Char} (ends : EndsPart rest)
    (inert : isInert (readToken c (w ++ rest)).1 = true)
    (on : Reaches (w ++ rest) (readToken c (w ++ rest)).2) :
    ∃ free w', w = free ++ w' ∧ (∀ d ∈ free, d ∉ stops) ∧
      (Spans depth w' rest → Spans depth (c :: w) rest) := by
  obtain ⟨free, w', rfl, left, noStop⟩ := reaches_within w rest _ ends on
  obtain ⟨role, level⟩ := inert_piece depth _ inert
  refine ⟨free, w', rfl, noStop, spans_cons (c :: free) ?_ role level⟩
  rw [List.append_assoc] at left ⊢
  have read := lexemes_cons c free (w' ++ rest) _ (Prod.ext rfl left)
  simpa using read

theorem balances_spans {rest : List Char} (ends : EndsPart rest) (noEscape : '\\' ∉ rest) :
    ∀ (w : List Char) (depth : Nat), Balances depth w → Spans depth w rest
  | [], depth, balances => by
    cases balances
    exact ⟨[], rfl, List.forall_mem_nil _⟩
  | c :: w, depth, balances => by
    -- A lexeme has any number of characters, so the induction is on what it leaves.
    have below (w' : List Char) (deeper : Nat) (shorter : w'.length ≤ w.length)
        (balances : Balances deeper w') : Spans deeper w' rest :=
      balances_spans ends noEscape w' deeper balances
    cases balances with
    | other tame after =>
        have plain : '\\' ∉ w ++ rest := by
          rw [List.mem_append, not_or]
          exact ⟨after.noEscape, noEscape⟩
        rcases readToken_tame c (w ++ rest) tame plain with ⟨inert, on⟩ | ⟨tail, on⟩
        · obtain ⟨free, w', rfl, noStop, spans⟩ := spans_token ends inert on
          exact spans (below w' depth (by simp) (after.dropFree free noStop))
        · exact absurd on (balances_noOpening after ends)
    | comma after =>
        exact spans_cons [','] (lexemes_single ',' _ .comma rfl) plain_noComma rfl
          (below w _ le_rfl after)
    | @function _ name inside known after =>
        exact spans_function depth name inside rest known (below inside _ (by simp; omega) after)
    | closing after =>
        exact spans_cons [')'] (lexemes_single ')' _ (.closing .round) rfl) plain_noComma rfl
          (below w _ le_rfl after)
termination_by w => w.length

namespace Balances

theorem append {depth inner : Nat} {v w : List Char} (front : Balances inner v)
    (back : Balances depth w) : Balances (depth + inner) (v ++ w) := by
  induction front with
  | nil => exact back
  | other tame _ ih => exact .other tame ih
  | comma _ ih => exact .comma ih
  | @function _ name rest known _ ih =>
      have shape : ':' :: (name ++ '(' :: rest) ++ w = ':' :: (name ++ '(' :: (rest ++ w)) := by
        simp
      rw [shape]
      exact .function known ih
  | closing _ ih => exact .closing ih

theorem filled {depth : Nat} {outer inner : List Char} (whole : Balances 0 outer)
    (balances : Balances depth inner) : Balances depth (filled outer inner) := by
  induction balances with
  | nil => exact .nil
  | @other _ c rest tame _ ih =>
      by_cases placeholder : c = '&'
      · subst placeholder
        rw [filled_placeholder]
        exact whole.append ih
      · rw [filled_other outer rest c placeholder]
        exact .other tame ih
  | @comma _ rest _ ih =>
      rw [filled_other outer rest ',' (by decide)]
      exact .comma ih
  | @function _ name rest known _ ih =>
      obtain ⟨word, rfl, _⟩ := function_word name known
      rw [filled_other outer _ ':' (by decide), filled_append,
        filled_same outer word.chars (word.notMem '&' (by decide)),
        filled_other outer rest '(' (by decide)]
      exact .function known ih
  | @closing _ rest _ ih =>
      rw [filled_other outer rest ')' (by decide)]
      exact .closing ih

end Balances

/-- A text that stays one selector of any list it is written into. -/
structure StaysWhole (w : List Char) : Prop where
  balances : Balances 0 w
  starts : Visible w
  ends : EndsVisibly w

theorem visible_filled (outer inner : List Char) (visibleOuter : Visible outer)
    (visibleInner : Visible inner) : Visible (filled outer inner) := by
  obtain ⟨c, tail, rfl, shown⟩ := visibleInner
  by_cases placeholder : c = '&'
  · subst placeholder
    rw [filled_placeholder]
    exact visible_append outer _ visibleOuter
  · rw [filled_other outer tail c placeholder]
    exact ⟨c, filled outer tail, rfl, shown⟩

theorem endsVisibly_append (v w : List Char) (nonempty : w ≠ []) (ends : EndsVisibly w) :
    EndsVisibly (v ++ w) := by
  rwa [EndsVisibly, List.getLast?_append_of_ne_nil v nonempty]

theorem endsVisibly_filled (outer inner : List Char) (nonempty : outer ≠ [])
    (endsOuter : EndsVisibly outer) (endsInner : EndsVisibly inner) :
    EndsVisibly (filled outer inner) := by
  rcases List.eq_nil_or_concat inner with rfl | ⟨front, c, rfl⟩
  · exact endsInner
  · rw [List.concat_eq_append] at endsInner ⊢
    rw [filled_append]
    by_cases placeholder : c = '&'
    · subst placeholder
      rw [filled_placeholder]
      exact endsVisibly_append _ _ (by simp [nonempty]) (by simpa [filled] using endsOuter)
    · rw [filled_other outer [] c placeholder]
      exact endsVisibly_append _ _ (by simp) (by simpa [filled, EndsVisibly] using endsInner)

theorem visible_ne_nil {w : List Char} (visible : Visible w) : w ≠ [] := by
  obtain ⟨c, tail, rfl, _⟩ := visible
  exact List.cons_ne_nil c tail

theorem staysWhole_of_spaces {w : List Char} (nonempty : w ≠ []) (balances : Balances 0 w)
    (shown : ∀ c ∈ w, c ≠ ' ' → Text.isBlank c = false) (noSpaceFirst : w.head? ≠ some ' ')
    (noSpaceLast : w.getLast? ≠ some ' ') : StaysWhole w := by
  refine ⟨balances, ?_, ?_⟩
  · obtain ⟨c, tail, rfl⟩ := List.exists_cons_of_ne_nil nonempty
    have noSpace : c ≠ ' ' := by
      rintro rfl
      exact noSpaceFirst rfl
    exact ⟨c, tail, rfl, shown c List.mem_cons_self noSpace⟩
  · intro c last
    have noSpace : c ≠ ' ' := by
      rintro rfl
      exact noSpaceLast last
    exact shown c (List.mem_of_getLast? last) noSpace

namespace StaysWhole

theorem nestedPart {outer inner : List Char} (wholeOuter : StaysWhole outer)
    (wholeInner : StaysWhole inner) : StaysWhole (nestedPart outer inner) := by
  have outerNonempty := visible_ne_nil wholeOuter.starts
  rw [Selector.nestedPart, if_neg outerNonempty]
  split
  · exact ⟨wholeOuter.balances.filled wholeInner.balances,
      visible_filled outer inner wholeOuter.starts wholeInner.starts,
      endsVisibly_filled outer inner outerNonempty wholeOuter.ends wholeInner.ends⟩
  · refine ⟨wholeOuter.balances.append (.other (by decide) wholeInner.balances),
      visible_append outer _ wholeOuter.starts, ?_⟩
    rw [← List.singleton_append, ← List.append_assoc]
    exact endsVisibly_append _ inner (visible_ne_nil wholeInner.starts) wholeInner.ends

end StaysWhole

theorem listText_one (w : List Char) : listText [w] = w := by simp [listText]

theorem listText_noEscape (ws : List (List Char)) (whole : ∀ w ∈ ws, StaysWhole w) :
    '\\' ∉ listText ws := by
  induction ws with
  | nil => exact List.not_mem_nil
  | cons w ws ih =>
      obtain ⟨wholeFirst, wholeOthers⟩ := List.forall_mem_cons.mp whole
      have first := wholeFirst.balances.noEscape
      cases ws with
      | nil => rwa [listText_one]
      | cons v vs =>
          rw [listText_cons]
          simpa [first] using ih wholeOthers

theorem whole_passes {w rest : List Char} (whole : StaysWhole w) (ends : EndsPart rest)
    (noEscape : '\\' ∉ rest) : ∃ changed, Passes 0 [] w changed rest := by
  obtain ⟨ps, scanned, noComma⟩ := balances_spans ends noEscape w 0 whole.balances
  exact ⟨_, ps, scanned, noComma, rfl⟩

theorem listText_visible (w : List Char) (ws : List (List Char)) (visible : Visible w) :
    Visible (listText (w :: ws)) := by
  cases ws with
  | nil => rwa [listText_one]
  | cons v vs =>
      rw [listText_cons]
      exact visible_append w _ visible

inductive Joins : List (List Char) → Prop where
  | none : Joins []
  | one {w changed : List Char} (starts : Visible w) (ends : EndsVisibly w)
      (passes : Passes 0 [] w changed []) : Joins [w]
  | more {w v changed : List Char} {ws : List (List Char)} (starts : Visible w)
      (ends : EndsVisibly w) (passes : Passes 0 [] w changed (',' :: ' ' :: listText (v :: ws)))
      (after : Joins (v :: ws)) : Joins (w :: v :: ws)

namespace Joins

theorem starts_head {w : List Char} {ws : List (List Char)} (joins : Joins (w :: ws)) :
    Visible w := by
  cases joins with
  | one starts _ _ => exact starts
  | more starts _ _ _ => exact starts

theorem nonempty {ws : List (List Char)} (joins : Joins ws) : ∀ w ∈ ws, w ≠ [] := by
  induction joins with
  | none => exact List.forall_mem_nil _
  | one starts _ _ => exact List.forall_mem_singleton.mpr (visible_ne_nil starts)
  | more starts _ _ _ ih => exact List.forall_mem_cons.mpr ⟨visible_ne_nil starts, ih⟩

theorem texts {ws : List (List Char)} (joins : Joins ws) (some : ws ≠ []) :
    (textsBetweenCommas (scan (listText ws))).map Text.trim = ws := by
  induction joins with
  | none => exact absurd rfl some
  | @one w changed starts ends passes =>
      have front := passes_texts [] w changed [] [] [] passes texts_nil
      rw [List.append_nil] at front
      rw [listText_one, front, List.map_singleton, trim_visible w starts ends]
  | @more w v changed ws starts ends passes after ih =>
      have visible := listText_visible v ws after.starts_head
      rw [listText_cons, texts_separated w changed _ starts ends visible passes,
        ih (List.cons_ne_nil v ws)]

theorem parts {ws : List (List Char)} (joins : Joins ws) : partsOf (listText ws) = ws := by
  by_cases some : ws = []
  · subst some
    change ((textsBetweenCommas (scan [])).map Text.trim).filter (· ≠ []) = []
    rw [texts_nil]
    rfl
  · rw [partsOf, joins.texts some]
    exact List.filter_eq_self.mpr fun w member => by simpa using joins.nonempty w member

end Joins

theorem whole_joins (ws : List (List Char)) (whole : ∀ w ∈ ws, StaysWhole w) : Joins ws := by
  induction ws with
  | nil => exact .none
  | cons w ws ih =>
      obtain ⟨wholeFirst, wholeOthers⟩ := List.forall_mem_cons.mp whole
      cases ws with
      | nil =>
          obtain ⟨changed, passes⟩ := whole_passes wholeFirst (Or.inl rfl) List.not_mem_nil
          exact .one wholeFirst.starts wholeFirst.ends passes
      | cons v vs =>
          have noEscape := listText_noEscape (v :: vs) wholeOthers
          have ends : EndsPart (',' :: ' ' :: listText (v :: vs)) := Or.inr ⟨_, rfl⟩
          obtain ⟨changed, passes⟩ := whole_passes wholeFirst ends (by simpa using noEscape)
          exact .more wholeFirst.starts wholeFirst.ends passes (ih wholeOthers)

theorem partsOf_listText (ws : List (List Char)) (whole : ∀ w ∈ ws, StaysWhole w) :
    partsOf (listText ws) = ws :=
  (whole_joins ws whole).parts

end StyleLayers.Selector
