import StyleLayers.Proofs.Css.Points
import StyleLayers.Proofs.Selector.PlainScan

/-!
A name in front of the classes of plain selectors: it goes behind every point, so it makes no
difference whether it is added before or after selectors are nested.
-/

namespace StyleLayers.Selector

open Css

theorem mem_pointed (name : Word) (cs : List Char) (c : Char) (outside : isWordPart c = false) :
    c ∈ pointed name.chars cs ↔ c ∈ cs := by
  induction cs with
  | nil => simp [pointed_nil]
  | cons d cs ih =>
      by_cases point : d = '.'
      · simp [point, pointed_point, ih, name.notMem c outside]
      · simp [pointed_other name.chars cs d point, ih]

theorem Plain.pointed (name : Word) {inName : Bool} {cs : List Char} (plain : Plain inName cs) :
    Plain inName (pointed name.chars cs) := by
  have other (c : Char) (rest : List Char) (part : isWordPart c = true) :=
    pointed_other name.chars rest c (wordPart_ne c '.' part (by decide))
  induction plain with
  | nil => exact .nil
  | @mark _ c rest isMark _ ih =>
      rw [pointed_other name.chars rest c (mark_noPoint c isMark)]
      exact .mark isMark ih
  | @start _ c rest starts _ ih =>
      rw [other c rest (wordStart_wordPart c starts)]
      exact .start starts ih
  | @part c rest continues _ ih =>
      rw [other c rest continues]
      exact .part continues ih
  | @point _ c rest starts _ ih =>
      have part := wordStart_wordPart c starts
      rw [pointed_point, other c rest part]
      exact .point name.starts (.parts name.continues (.part part ih))

theorem splitOn_pointed (name : Word) (cs : List Char) :
    (pointed name.chars cs).splitOn ',' = (cs.splitOn ',').map (pointed name.chars) := by
  induction cs with
  | nil => rfl
  | cons c cs ih =>
      obtain ⟨first, others, split⟩ := List.exists_cons_of_ne_nil (List.splitOn_ne_nil ',' cs)
      by_cases comma : c = ','
      · subst comma
        rw [pointed_other name.chars cs ',' (by decide), splitOn_comma, ih, splitOn_comma]
        rfl
      · rw [splitOn_other c cs first others comma split, List.map_cons]
        rw [split, List.map_cons] at ih
        by_cases point : c = '.'
        · subst point
          rw [pointed_point, pointed_point, ← List.cons_append, ← List.cons_append]
          exact splitOn_append _ _ _ _ (by simp [name.notMem ',' (by decide)]) ih
        · rw [pointed_other name.chars cs c point, pointed_other name.chars first c point]
          exact splitOn_other c _ _ _ comma ih

theorem trimStart_pointed (name cs : List Char) :
    Text.trimStart (pointed name cs) = pointed name (Text.trimStart cs) := by
  have visible : Text.isBlank '.' = false := by decide
  induction cs with
  | nil => rfl
  | cons c cs ih =>
      by_cases point : c = '.'
      · simp [point, pointed_point, Text.trimStart, visible]
      · simp only [Text.trimStart] at ih ⊢
        rw [pointed_other name cs c point]
        by_cases blank : Text.isBlank c
        · rw [List.dropWhile_cons_of_pos blank, List.dropWhile_cons_of_pos blank, ih]
        · rw [List.dropWhile_cons_of_neg blank, List.dropWhile_cons_of_neg blank,
            pointed_other name cs c point]

theorem trimEnd_pointed (name : Word) (cs : List Char) :
    Text.trimEnd (pointed name.chars cs) = pointed name.chars (Text.trimEnd cs) := by
  induction cs with
  | nil => rfl
  | cons c cs ih =>
      by_cases point : c = '.'
      -- The name behind the last point ends in no white space, so nothing more is cut off.
      · have visible : ∀ d ∈ '.' :: name.chars, Text.isBlank d = false := by
          intro d member
          rcases List.mem_cons.mp member with rfl | inside
          · decide
          · exact wordPart_visible d (name.parts d inside)
        rw [point, pointed_point, ← List.cons_append, trimEnd_append _ _ visible, ih,
          trimEnd_visible_cons '.' cs (by decide), pointed_point]
        rfl
      · rw [pointed_other name.chars cs c point, trimEnd_cons, trimEnd_cons, ih]
        simp only [pointed_eq_nil]
        split
        · rfl
        · rw [pointed_other name.chars _ c point]

theorem trim_pointed (name : Word) (cs : List Char) :
    Text.trim (pointed name.chars cs) = pointed name.chars (Text.trim cs) := by
  rw [Text.trim, trimStart_pointed, trimEnd_pointed, Text.trim]

theorem partsOf_pointed (name : Word) (cs : List Char) (plain : Plain false cs) :
    partsOf (pointed name.chars cs) = (partsOf cs).map (pointed name.chars) := by
  have trimmed : Text.trim ∘ pointed name.chars = pointed name.chars ∘ Text.trim :=
    funext (trim_pointed name)
  have kept : (fun w : List Char => decide (w ≠ [])) ∘ pointed name.chars =
      fun w => decide (w ≠ []) := by
    funext w
    simp [pointed_eq_nil]
  calc
    partsOf (pointed name.chars cs) =
        (((cs.splitOn ',').map (pointed name.chars)).map Text.trim).filter (· ≠ []) := by
      rw [plain_partsOf _ (plain.pointed name), splitOn_pointed]
    _ = (((cs.splitOn ',').map Text.trim).map (pointed name.chars)).filter (· ≠ []) := by
      rw [List.map_map, trimmed, ← List.map_map]
    _ = (((cs.splitOn ',').map Text.trim).filter (· ≠ [])).map (pointed name.chars) := by
      rw [List.filter_map, kept]
    _ = (partsOf cs).map (pointed name.chars) := by rw [plain_partsOf cs plain]

theorem filled_append (outer cs ds : List Char) :
    filled outer (cs ++ ds) = filled outer cs ++ filled outer ds := List.flatMap_append

theorem filled_same (outer cs : List Char) (noPlaceholder : '&' ∉ cs) : filled outer cs = cs := by
  induction cs with
  | nil => rfl
  | cons c cs ih =>
      rw [List.mem_cons, not_or] at noPlaceholder
      rw [filled_other outer cs c (Ne.symm noPlaceholder.1), ih noPlaceholder.2]

theorem filled_pointed (name : Word) (outer inner : List Char) :
    filled (pointed name.chars outer) (pointed name.chars inner) =
      pointed name.chars (filled outer inner) := by
  induction inner with
  | nil => rfl
  | cons c inner ih =>
      by_cases placeholder : c = '&'
      · subst placeholder
        rw [pointed_other name.chars inner '&' (by decide), filled_placeholder, filled_placeholder,
          pointed_append, ih]
      · by_cases point : c = '.'
        · subst point
          rw [pointed_point, filled_other _ _ '.' (by decide), filled_append, ih,
            filled_same _ name.chars (name.notMem '&' (by decide)),
            filled_other _ _ '.' (by decide), pointed_point]
        · rw [pointed_other name.chars inner c point, filled_other _ _ c placeholder,
            filled_other _ _ c placeholder, ih, pointed_other name.chars _ c point]

theorem nestedPart_pointed (name : Word) (outer inner : List Char) :
    nestedPart (pointed name.chars outer) (pointed name.chars inner) =
      pointed name.chars (nestedPart outer inner) := by
  unfold nestedPart
  simp only [mem_pointed name inner '&' (by decide), pointed_eq_nil]
  split
  · exact filled_pointed name outer inner
  · split
    · rfl
    · rw [pointed_append, pointed_other name.chars inner ' ' (by decide)]

theorem listText_pointed (name : Word) (ws : List (List Char)) :
    listText (ws.map (pointed name.chars)) = pointed name.chars (listText ws) := by
  induction ws with
  | nil => rfl
  | cons w ws ih =>
      cases ws with
      | nil => simp [listText]
      | cons v vs =>
          rw [List.map_cons, List.map_cons, listText_cons, ← List.map_cons, ih, listText_cons,
            pointed_append, pointed_other name.chars _ ',' (by decide),
            pointed_other name.chars _ ' ' (by decide)]

theorem outerParts_pointed (name : Word) (outer : List Char) (plain : Plain false outer) :
    outerParts (pointed name.chars outer) = (outerParts outer).map (pointed name.chars) := by
  rw [outerParts, outerParts, partsOf_pointed name outer plain]
  cases partsOf outer with
  | nil => rfl
  | cons w ws => rfl

theorem outerParts_plain (outer : List Char) (plain : Plain false outer) :
    ∀ w ∈ outerParts outer, Plain false w := by
  have parts := partsOf_plain outer plain
  rw [outerParts]
  cases shape : partsOf outer with
  | nil =>
      intro w member
      rw [List.mem_singleton.mp member]
      exact .nil
  | cons v vs => rwa [shape] at parts

theorem nestedOf_plain (outer inner : List Char) (plainOuter : Plain false outer)
    (plainInner : Plain false inner) : Plain false (nestedOf outer inner) := by
  have parts := partsOf_plain inner plainInner
  rw [nestedOf]
  cases shape : partsOf inner with
  | nil => exact plainOuter
  | cons v vs =>
      rw [shape] at parts
      apply Plain.listText
      intro w member
      obtain ⟨o, outside, nested⟩ := List.mem_flatMap.mp member
      obtain ⟨i, inside, rfl⟩ := List.mem_map.mp nested
      exact (outerParts_plain outer plainOuter o outside).nestedPart (parts i inside)

theorem nestedOf_pointed (name : Word) (outer inner : List Char) (plainOuter : Plain false outer)
    (plainInner : Plain false inner) :
    nestedOf (pointed name.chars outer) (pointed name.chars inner) =
      pointed name.chars (nestedOf outer inner) := by
  rw [nestedOf, nestedOf, partsOf_pointed name inner plainInner]
  cases partsOf inner with
  | nil => rfl
  | cons v vs =>
      change listText ((outerParts (pointed name.chars outer)).flatMap fun o =>
        ((v :: vs).map (pointed name.chars)).map (nestedPart o)) = _
      rw [outerParts_pointed name outer plainOuter, List.flatMap_map, ← listText_pointed,
        List.map_flatMap]
      simp only [List.map_map, Function.comp_def, nestedPart_pointed]

theorem roleOf_noPoint (n : Nesting) (t : Token) (noPoint : t ≠ .delim '.') :
    roleOf n t ≠ .classPoint := by
  unfold roleOf
  by_cases passed : n.passed ≠ []
  · rw [if_pos passed]
    decide
  · rw [if_neg passed]
    cases t with
    | delim c =>
        have other : c ≠ '.' := by
          rintro rfl
          exact noPoint rfl
        simp [other]
    | comma =>
        by_cases outermost : n.depth = 0 <;> simp [outermost]
    | _ => simp

theorem pieces_noPoint (n : Nesting) (added : List Char) (ls : List Lexeme)
    (noPoint : ∀ l ∈ ls, l.token ≠ .delim '.') :
    (pieces n ls).flatMap (prefixedPiece added) = ls.flatMap Lexeme.text := by
  induction ls generalizing n with
  | nil => rfl
  | cons l ls ih =>
      have first := roleOf_noPoint n l.token (noPoint l List.mem_cons_self)
      rw [pieces, List.flatMap_cons, List.flatMap_cons,
        ih _ fun m member => noPoint m (List.mem_cons_of_mem l member), prefixedPiece, if_neg first]

theorem prefixed_same (name s : String) (noPoint : '.' ∉ s.toList) : prefixed name s = s := by
  have same : prefixedOf name.toList s.toList = s.toList := by
    rw [prefixedOf, scan, pieces_noPoint _ _ _ (lexemes_noPoint s.toList noPoint),
      flatMap_text_lexemes]
  rw [prefixed, same, String.ofList_toList]

theorem prefixed_toList (name : Word) (s : String) (plain : Plain false s.toList) :
    (prefixed name.string s).toList = pointed name.chars s.toList := by
  rw [prefixed, String.toList_ofList, Word.string, String.toList_ofList,
    plain_prefixedOf name.chars _ plain]

theorem prefixed_plain (name : Word) (s : String) (plain : Plain false s.toList) :
    Plain false (prefixed name.string s).toList := by
  rw [prefixed_toList name s plain]
  exact plain.pointed name

theorem prefixed_eq_empty (name : Word) (s : String) (plain : Plain false s.toList) :
    prefixed name.string s = "" ↔ s = "" := by
  rw [← String.toList_eq_nil_iff, prefixed_toList name s plain, pointed_eq_nil,
    String.toList_eq_nil_iff]

theorem nested_plain (outer inner : String) (plainOuter : Plain false outer.toList)
    (plainInner : Plain false inner.toList) : Plain false (nested outer inner).toList := by
  rw [nested, String.toList_ofList]
  exact nestedOf_plain outer.toList inner.toList plainOuter plainInner

theorem nested_prefixed (name : Word) (outer inner : String) (plainOuter : Plain false outer.toList)
    (plainInner : Plain false inner.toList) :
    nested (prefixed name.string outer) (prefixed name.string inner) =
      prefixed name.string (nested outer inner) := by
  apply String.toList_inj.mp
  calc
    (nested (prefixed name.string outer) (prefixed name.string inner)).toList =
        nestedOf (pointed name.chars outer.toList) (pointed name.chars inner.toList) := by
      rw [nested, String.toList_ofList, prefixed_toList name outer plainOuter,
        prefixed_toList name inner plainInner]
    _ = pointed name.chars (nested outer inner).toList := by
      rw [nestedOf_pointed name _ _ plainOuter plainInner, nested, String.toList_ofList]
    _ = (prefixed name.string (nested outer inner)).toList :=
      (prefixed_toList name _ (nested_plain outer inner plainOuter plainInner)).symm

end StyleLayers.Selector
