import StyleLayers.Proofs.Rule.Keeping
import StyleLayers.Proofs.Selector.Composing

/-!
A scope of importance beside nesting. A scope that is one selector goes in front of every selector
of a list, as nesting under it would put it. A scope that is a list goes there as a whole, and only
its last selector comes to stand in front of another one.
-/

namespace StyleLayers

namespace Selector

open Css

theorem listText_append (vs ws : List (List Char)) (someFront : vs ≠ []) (someBack : ws ≠ []) :
    listText (vs ++ ws) = listText vs ++ ',' :: ' ' :: listText ws := by
  induction vs with
  | nil => exact absurd rfl someFront
  | cons v vs ih =>
    cases vs with
    | nil =>
      obtain ⟨w, ws, rfl⟩ := List.exists_cons_of_ne_nil someBack
      rw [List.singleton_append, listText_cons, listText_one]
    | cons u vs =>
      have others := ih (List.cons_ne_nil u vs)
      rw [List.cons_append] at others ⊢
      rw [List.cons_append, listText_cons, others, listText_cons, List.append_assoc]
      rfl

theorem listText_concat_append (front : List (List Char)) (last tail : List Char) :
    listText (front ++ [last]) ++ tail = listText (front ++ [last ++ tail]) := by
  by_cases none : front = []
  · rw [none, List.nil_append, List.nil_append, listText_one, listText_one]
  · have some (w : List Char) := listText_append front [w] none (List.cons_ne_nil w [])
    rw [some, some, listText_one, listText_one, List.append_assoc]
    rfl

theorem listText_map_listText {α : Type} (xs : List α) (lists : α → List (List Char))
    (some : ∀ x, lists x ≠ []) :
    listText (xs.map fun x => listText (lists x)) = listText (xs.flatMap lists) := by
  induction xs with
  | nil => rfl
  | cons x xs ih =>
    cases xs with
    | nil => rw [List.map_singleton, List.flatMap_singleton, listText_one]
    | cons y ys =>
      have someBehind : (y :: ys).flatMap lists ≠ [] := by
        rw [List.flatMap_cons]
        exact List.append_ne_nil_of_left_ne_nil (some y) _
      rw [List.flatMap_cons, listText_append _ _ (some x) someBehind, ← ih, List.map_cons,
        List.map_cons, listText_cons]

def joints : List Char := ['.', '#', ':', '*', '>', '+', '~', ' ']

/-- One selector of a plain list: elements, classes, ids and pseudo-classes with ordinary names, in
compounds with spaces and combinators between them. It has no placeholder for another. -/
structure PlainPart where
  text : String
  nonempty : text ≠ ""
  noSpaceFirst : text.toList.head? ≠ some ' '
  noSpaceLast : text.toList.getLast? ≠ some ' '
  alphabet : ∀ c ∈ text.toList, isWordPart c = true ∨ c ∈ joints

def plainList (ps : List PlainPart) : String := ", ".intercalate (ps.map PlainPart.text)

theorem balances_tame (w : List Char) (tame : ∀ c ∈ w, c ∉ wildChars) : Balances 0 w := by
  induction w with
  | nil => exact .nil
  | cons c w ih =>
    obtain ⟨here, behind⟩ := List.forall_mem_cons.mp tame
    exact .other here (ih behind)

namespace PlainPart

def chars (p : PlainPart) : List Char := p.text.toList

theorem notMem (p : PlainPart) (d : Char) (outside : isWordPart d = false) (noJoint : d ∉ joints) :
    d ∉ p.chars := by
  intro member
  rcases p.alphabet d member with part | joint
  · rw [outside] at part
    cases part
  · exact noJoint joint

theorem tame (p : PlainPart) : ∀ c ∈ p.chars, c ∉ wildChars := by
  have outside : ∀ d ∈ wildChars, isWordPart d = false ∧ d ∉ joints := by decide
  intro c member wild
  exact p.notMem c (outside c wild).1 (outside c wild).2 member

theorem visible (p : PlainPart) (c : Char) (member : c ∈ p.chars) (noSpace : c ≠ ' ') :
    Text.isBlank c = false := by
  have shown : ∀ d ∈ joints, d ≠ ' ' → Text.isBlank d = false := by decide
  rcases p.alphabet c member with part | joint
  · exact wordPart_visible c part
  · exact shown c joint noSpace

theorem chars_nonempty (p : PlainPart) : p.chars ≠ [] := by
  intro none
  exact p.nonempty (String.toList_eq_nil_iff.mp none)

theorem staysWhole (p : PlainPart) : StaysWhole p.chars := by
  apply staysWhole_of_spaces
  · exact p.chars_nonempty
  · exact balances_tame p.chars p.tame
  · exact p.visible
  · exact p.noSpaceFirst
  · exact p.noSpaceLast

theorem nestedPart_eq (outer inner : PlainPart) :
    nestedPart outer.chars inner.chars = outer.chars ++ ' ' :: inner.chars := by
  have noPlaceholder := inner.notMem '&' (by decide) (by decide)
  rw [nestedPart, if_neg noPlaceholder, if_neg outer.chars_nonempty]

end PlainPart

theorem toList_plainList (ps : List PlainPart) :
    (plainList ps).toList = listText (ps.map PlainPart.chars) := by
  rw [plainList, ← listText_toList, List.map_map]
  rfl

theorem plain_whole (ps : List PlainPart) : ∀ w ∈ ps.map PlainPart.chars, StaysWhole w := by
  intro w member
  obtain ⟨p, _, rfl⟩ := List.mem_map.mp member
  exact p.staysWhole

theorem plainList_style (ps : List PlainPart) : AtRule.isPrelude (plainList ps) = false := by
  rw [← Bool.not_eq_true, AtRule.isPrelude_head?, toList_plainList]
  cases ps with
  | nil => decide
  | cons p ps =>
    obtain ⟨c, tail, shape⟩ := List.exists_cons_of_ne_nil p.chars_nonempty
    have other : c ≠ '@' := by
      intro same
      exact p.notMem '@' (by decide) (by decide) (by simp [shape, same])
    cases ps with
    | nil => simpa [listText_one, shape] using other
    | cons q qs => simpa [listText_cons, shape] using other

theorem under_whole (outer inner : PlainPart) : StaysWhole (outer.chars ++ ' ' :: inner.chars) := by
  rw [← PlainPart.nestedPart_eq]
  exact outer.staysWhole.nestedPart inner.staysWhole

/-- What a scope makes of one selector: the selectors of the scope, the last one with the selector
under it. -/
def scopedParts (before : List PlainPart) (last part : PlainPart) : List (List Char) :=
  before.map PlainPart.chars ++ [last.chars ++ ' ' :: part.chars]

theorem scopedParts_whole (before : List PlainPart) (last part : PlainPart) :
    ∀ w ∈ scopedParts before last part, StaysWhole w := by
  rw [scopedParts, List.forall_mem_append, List.forall_mem_singleton]
  exact ⟨plain_whole before, under_whole last part⟩

theorem withinOf_plain (before : List PlainPart) (last : PlainPart) (parts : List PlainPart) :
    withinOf (plainList (before ++ [last])).toList (plainList parts).toList =
      listText (parts.flatMap (scopedParts before last)) := by
  have one (part : PlainPart) :
      listText ((before ++ [last]).map PlainPart.chars) ++ ' ' :: part.chars =
        listText (scopedParts before last part) := by
    rw [List.map_append, List.map_singleton, listText_concat_append, scopedParts]
  have some (part : PlainPart) : scopedParts before last part ≠ [] := by simp [scopedParts]
  rw [withinOf, toList_plainList, toList_plainList, partsOf_listText _ (plain_whole parts),
    List.map_map, ← listText_map_listText _ _ some]
  congr 1
  apply List.map_congr_left
  intro part _
  exact one part

theorem nestedOf_plain_lists (scopes parts : List PlainPart) (someScope : scopes ≠ [])
    (somePart : parts ≠ []) : nestedOf (plainList scopes).toList (plainList parts).toList =
      listText (pairs (scopes.map PlainPart.chars) (parts.map PlainPart.chars)) := by
  rw [toList_plainList, toList_plainList]
  apply nestedOf_listText
  · exact plain_whole scopes
  · exact plain_whole parts
  · simpa using someScope
  · simpa using somePart

theorem scopedParts_whole_all (before : List PlainPart) (last : PlainPart)
    (parts : List PlainPart) :
    ∀ w ∈ parts.flatMap (scopedParts before last), StaysWhole w := by
  intro w member
  obtain ⟨part, _, inside⟩ := List.mem_flatMap.mp member
  exact scopedParts_whole before last part w inside

theorem pairs_plain (scopes parts : List PlainPart) :
    pairs (scopes.map PlainPart.chars) (parts.map PlainPart.chars) =
      scopes.flatMap fun s => parts.map fun part => s.chars ++ ' ' :: part.chars := by
  rw [pairs, List.flatMap_map]
  apply List.flatMap_congr
  intro s _
  rw [List.map_map]
  apply List.map_congr_left
  intro part _
  exact PlainPart.nestedPart_eq s part

/-- Only a scope of one selector gives what nesting gives. -/
theorem scopedParts_eq_pairs_iff (before : List PlainPart) (last : PlainPart)
    (parts : List PlainPart) (some : parts ≠ []) :
    parts.flatMap (scopedParts before last) =
        pairs ((before ++ [last]).map PlainPart.chars) (parts.map PlainPart.chars) ↔
      before = [] := by
  rw [pairs_plain]
  constructor
  · intro same
    obtain ⟨part, others, rfl⟩ := List.exists_cons_of_ne_nil some
    by_contra several
    obtain ⟨first, between, rfl⟩ := List.exists_cons_of_ne_nil several
    -- The first selector of the scope stands alone on one side and not on the other.
    have heads : first.chars = first.chars ++ ' ' :: part.chars := by
      simpa [scopedParts] using congrArg List.head? same
    have lengths := congrArg List.length heads
    rw [List.length_append, List.length_cons] at lengths
    omega
  · intro none
    subst none
    have one : scopedParts [] last = fun part => [last.chars ++ ' ' :: part.chars] := rfl
    rw [one, List.nil_append, List.flatMap_singleton, List.map_eq_flatMap]

theorem parts_within (before : List PlainPart) (last : PlainPart) (ps : List PlainPart) :
    parts (within (plainList (before ++ [last])) (plainList ps)) =
      ps.flatMap fun part => before.map PlainPart.text ++ [last.text ++ " " ++ part.text] := by
  rw [parts, within, String.toList_ofList, withinOf_plain,
    partsOf_listText _ (scopedParts_whole_all before last ps), List.map_flatMap]
  apply List.flatMap_congr
  intro part _
  rw [scopedParts, List.map_append, List.map_map, List.map_singleton]
  congr 1
  · apply List.map_congr_left
    intro s _
    exact String.ofList_toList
  · congr 1
    simp [← String.toList_inj, PlainPart.chars]

theorem parts_nested (scopes ps : List PlainPart) (someScope : scopes ≠ []) (somePart : ps ≠ []) :
    parts (nested (plainList scopes) (plainList ps)) =
      scopes.flatMap fun s => ps.map fun part => s.text ++ " " ++ part.text := by
  have whole := pairs_whole _ _ (plain_whole scopes) (plain_whole ps)
  rw [parts, nested, String.toList_ofList, nestedOf_plain_lists scopes ps someScope somePart,
    partsOf_listText _ whole, pairs_plain, List.map_flatMap]
  apply List.flatMap_congr
  intro s _
  rw [List.map_map]
  apply List.map_congr_left
  intro part _
  simp [← String.toList_inj, PlainPart.chars]

theorem within_eq_nested_iff (before : List PlainPart) (last : PlainPart) (ps : List PlainPart)
    (some : ps ≠ []) :
    within (plainList (before ++ [last])) (plainList ps) =
        nested (plainList (before ++ [last])) (plainList ps) ↔ before = [] := by
  have someScope : before ++ [last] ≠ [] := by simp
  have whole := pairs_whole _ _ (plain_whole (before ++ [last])) (plain_whole ps)
  rw [← scopedParts_eq_pairs_iff before last ps some, within, nested, String.ofList_inj,
    withinOf_plain, nestedOf_plain_lists (before ++ [last]) ps someScope some]
  constructor
  · intro same
    have split := congrArg partsOf same
    rwa [partsOf_listText _ (scopedParts_whole_all before last ps),
      partsOf_listText _ whole] at split
  · intro same
    rw [same]

end Selector

namespace Rule

open Selector

/-- A scope that is a list of selectors goes in front of each selector of a rule as a whole: all but
its last selector then stand alone. What nesting under the scope gives, every selector of the rule
under every selector of the scope, comes out only for a scope of one selector. -/
theorem parts_under_scope (rs : List Rule) (path : List Nat) (p : Site)
    (site : siteAt? [] rs path = some p) (noFrame : isKeyframe p.enclosing? = false)
    (before : List PlainPart) (last : PlainPart) (ps : List PlainPart) (somePart : ps ≠ [])
    (written : p.head.selector = plainList ps) :
    ∃ h, headAt? (emphasizeAll (.scope (plainList (before ++ [last]))) rs) path = some h ∧
      h.declarations = p.head.declarations ∧
      parts h.selector =
        ps.flatMap (fun part => before.map PlainPart.text ++ [last.text ++ " " ++ part.text]) ∧
      parts (nested (plainList (before ++ [last])) p.head.selector) =
        ((before ++ [last]).flatMap fun s => ps.map fun part => s.text ++ " " ++ part.text) ∧
      (h.selector = nested (plainList (before ++ [last])) p.head.selector ↔ before = []) := by
  have style : AtRule.isPrelude p.head.selector = false := by
    rw [written]
    exact plainList_style ps
  have someScope : before ++ [last] ≠ [] := by simp
  refine ⟨p.head.within (plainList (before ++ [last])), ?_, rfl, ?_, ?_, ?_⟩
  · exact headAt?_style (Head.within _) rs path p site style noFrame
  · rw [Head.within, written]
    exact parts_within before last ps
  · rw [written]
    exact parts_nested (before ++ [last]) ps someScope somePart
  · rw [Head.within, written]
    exact within_eq_nested_iff before last ps somePart

theorem parts_under_scope_print :
    let p : Site := ⟨["@media print"], ⟨".x, h1 > .y", [⟨"color", "red"⟩]⟩⟩
    let rs : List Rule := [⟨"@media print", [], [⟨p.head.selector, p.head.declarations, []⟩]⟩]
    siteAt? [] rs [0, 0] = some p ∧ isKeyframe p.enclosing? = false ∧
      (∃ h, headAt? (emphasizeAll (.scope "#app") rs) [0, 0] = some h ∧
        h.selector = nested "#app" ".x, h1 > .y") ∧
      ∃ h, headAt? (emphasizeAll (.scope "#a, .b i") rs) [0, 0] = some h ∧
        parts h.selector = ["#a", ".b i .x", "#a", ".b i h1 > .y"] ∧
        h.selector ≠ nested "#a, .b i" ".x, h1 > .y" := by
  intro p rs
  have site : siteAt? [] rs [0, 0] = some p := by decide +kernel
  have noFrame : isKeyframe p.enclosing? = false := by decide
  let x : PlainPart := ⟨".x", by decide, by decide, by decide, by decide⟩
  let y : PlainPart := ⟨"h1 > .y", by decide, by decide, by decide, by decide⟩
  let app : PlainPart := ⟨"#app", by decide, by decide, by decide, by decide⟩
  let a : PlainPart := ⟨"#a", by decide, by decide, by decide, by decide⟩
  let i : PlainPart := ⟨".b i", by decide, by decide, by decide, by decide⟩
  have some : [x, y] ≠ [] := List.cons_ne_nil x [y]
  obtain ⟨h, under, _, _, _, same⟩ :=
    parts_under_scope rs [0, 0] p site noFrame [] app [x, y] some (by decide +kernel)
  obtain ⟨k, beside, _, split, _, other⟩ :=
    parts_under_scope rs [0, 0] p site noFrame [a] i [x, y] some (by decide +kernel)
  refine ⟨site, noFrame, ⟨h, under, same.mpr rfl⟩, k, beside, split, ?_⟩
  intro nests
  exact List.cons_ne_nil a [] (other.mp nests)

/-- Two selectors as a scope: the first one is left alone, where nesting puts the class under it. -/
theorem some_scopes_alone :
    let rs : List Rule := [⟨".x", [⟨"color", "red"⟩], []⟩]
    headAt? (emphasizeAll (.scope "#a, #b") rs) [0] =
        some ⟨"#a, #b .x", [⟨"color", "red"⟩]⟩ ∧
      parts "#a, #b .x" = ["#a", "#b .x"] ∧ nested "#a, #b" ".x" = "#a .x, #b .x" := by
  decide +kernel

end Rule

end StyleLayers
