import StyleLayers.Proofs.Css.Trailing
import StyleLayers.Proofs.Variant.Declaring

/-!
Preludes as carriers of variant lists. A list comes back from the prelude written for it exactly
when no name has a comma in it or white space at an end, and a compiled block has the prelude
written for the list that its key declares.
-/

namespace StyleLayers

namespace AtRule

theorem nameOf_behind (body : List Char) {spaces : List Char}
    (blank : ∀ c ∈ spaces, Text.isBlank c = true) : nameOf (body ++ spaces) = nameOf body := by
  rw [nameOf, Text.firstWord_behind body blank, nameOf]

theorem paramsOf_behind (body : List Char) {spaces : List Char}
    (blank : ∀ c ∈ spaces, Text.isBlank c = true) : paramsOf (body ++ spaces) = paramsOf body := by
  obtain ⟨kept, keptBlank, split⟩ := Text.trimStart_behind body blank
  have short : (Text.firstWord body).length ≤ (Text.trimStart body).length :=
    (List.takeWhile_prefix _).length_le
  rw [paramsOf, Text.firstWord_behind body blank, split, List.drop_append_of_le_length short,
    Text.trim_behind _ keptBlank, paramsOf]

theorem body?_eq_some_iff (prelude : String) (body : List Char) :
    body? prelude = some body ↔ prelude.toList = '@' :: body := by
  unfold body?
  split
  · next rest shape => simp [shape]
  · next other =>
    constructor
    · intro none
      cases none
    · exact fun shape => (other body shape).elim

/-- Trimming the prelude of an at-rule cuts off white space behind it, and nothing else. -/
theorem body?_trimmed (prelude : String) (body : List Char) (isBody : body? prelude = some body) :
    ∃ kept spaces, body? (Text.trimmed prelude) = some kept ∧ body = kept ++ spaces ∧
      ∀ c ∈ spaces, Text.isBlank c = true := by
  rw [body?_eq_some_iff] at isBody
  have visible : Text.isBlank '@' = false := by decide
  have whole : Text.trimStart prelude.toList = '@' :: body := by
    rw [isBody]
    exact Text.dropWhile_of_head? _ (by simp [visible])
  have kept : Text.trim prelude.toList = '@' :: Text.trimEnd body := by
    rw [isBody, Css.trim_visible_cons _ _ visible]
  have parts := Text.trimEnd_split prelude.toList
  rw [whole, kept, List.cons_append] at parts
  refine ⟨Text.trimEnd body, Text.trail prelude.toList, ?_, (List.cons.inj parts).2,
    Text.trail_blank _⟩
  rw [body?_eq_some_iff, Text.trimmed, String.toList_ofList, kept]

theorem declared?_trimmed (prelude : String) (isAt : isPrelude prelude = true) :
    declared? (Text.trimmed prelude) = declared? prelude := by
  obtain ⟨body, isBody⟩ := Option.isSome_iff_exists.mp isAt
  obtain ⟨kept, spaces, isKept, rfl, blank⟩ := body?_trimmed prelude body isBody
  rw [declared?, declared?, isKept, isBody, Option.bind_some, Option.bind_some,
    nameOf_behind kept blank, paramsOf_behind kept blank]

theorem declared?_isSome_iff (prelude : String) :
    (declared? prelude).isSome = true ↔ name? prelude = some variantsName := by
  rw [declared?_eq]
  unfold name? params?
  cases body? prelude with
  | none => simp
  | some body => split <;> simp_all

end AtRule

namespace Variants

/-- Trimming a name leaves it as it is when neither end is white space. -/
theorem readable_iff (l : Variants) : l.Readable ↔
    ∀ name ∈ l.names, ',' ∉ name.toList ∧
      (∀ c ∈ name.toList.head?, Text.isBlank c = false) ∧
      (∀ c ∈ name.toList.getLast?, Text.isBlank c = false) := by
  refine forall₂_congr fun name _ => and_congr_right fun _ => ?_
  constructor
  · intro trimmed
    rw [← trimmed]
    exact ⟨Text.trim_head? _, Text.trim_getLast? _⟩
  · rintro ⟨first, last⟩
    exact Text.trim_of_shown _ first last

theorem declared?_marker_iff (l : Variants) :
    AtRule.declared? l.marker = some l ↔ l.Readable :=
  ⟨AtRule.declared?_readable l.marker l, AtRule.declared?_marker l⟩

end Variants

namespace Styles

theorem preludeOf_declaring (key : String) (l : Variants) (isAt : isAtKey key = true)
    (declares : AtRule.declared? key = some l) : preludeOf key = l.marker := by
  rw [preludeOf, AtRule.canonical, AtRule.declared?_trimmed key isAt, declares]

/-- A list comes back from the prelude written for it exactly when its names have no comma and no
white space at their ends. Every list read from a text is such a list, and the block compiled from
a key that declares one carries it in a prelude that stays as it is. -/
theorem markers_carry_lists :
    (∀ (l : Variants) (declarations : List Declaration) (children : List Rule),
      (⟨l.marker, declarations, children⟩ : Rule).declared? = some l ↔
        ∀ name ∈ l.names, ',' ∉ name.toList ∧
          (∀ c ∈ name.toList.head?, Text.isBlank c = false) ∧
          (∀ c ∈ name.toList.getLast?, Text.isBlank c = false)) ∧
      (∀ text, Variants.parse (Variants.parse text).params = Variants.parse text) ∧
      (∀ (parent key : String) (entries : Entries), AtRule.name? key = some variantsName →
        ∃ (l : Variants) (r : Rule), AtRule.declared? key = some l ∧
          compileEntry parent key (.object entries) = ⟨[], [r]⟩ ∧ r.declared? = some l ∧
          r.selector = l.marker ∧ preludeOf r.selector = r.selector) := by
  refine ⟨?_, ?_, ?_⟩
  · intro l declarations children
    exact (Variants.declared?_marker_iff l).trans l.readable_iff
  · exact fun text => Variants.parse_params _ (Variants.parse_readable text)
  · intro parent key entries named
    obtain ⟨l, declares⟩ :=
      Option.isSome_iff_exists.mp ((AtRule.declared?_isSome_iff key).mpr named)
    have isAt : isAtKey key = true := by
      rw [isAtKey, ← AtRule.name?_isSome, named]
      rfl
    have marked : AtRule.declared? l.marker = some l :=
      AtRule.declared?_marker l (AtRule.declared?_readable key l declares)
    have compiled : compileEntry parent key (.object entries) = ⟨[], [(compileEntries
        (chainBelow l.marker parent) entries).inAtRule l.marker (chainBelow l.marker parent)]⟩ := by
      rw [compileEntry, if_pos isAt, preludeOf_declaring key l isAt declares]
    refine ⟨l, _, declares, compiled, ?_, ?_, ?_⟩
    · rw [Rule.declared?, inAtRule_selector, marked]
    · rw [inAtRule_selector]
    · rw [inAtRule_selector]
      exact preludeOf_declaring l.marker l (AtRule.marker_isPrelude l) marked

theorem markers_carry_lists_samples :
    let spaced : Variants := ⟨["hover", "group hover"], by decide, by decide⟩
    let joined : Variants := ⟨["hover,focus"], by decide, by decide⟩
    (⟨spaced.marker, [], []⟩ : Rule).declared? = some spaced ∧
      (⟨joined.marker, [], []⟩ : Rule).declared? ≠ some joined ∧
      ∃ r, compileEntry ".a" "@variants hover ,, focus,hover\t" (.object []) = ⟨[], [r]⟩ ∧
        r.declared? = some ⟨["hover", "focus"], by decide, by decide⟩ ∧
        preludeOf r.selector = r.selector := by
  intro spaced joined
  have comma : ¬ ∀ name ∈ joined.names, ',' ∉ name.toList ∧
      (∀ c ∈ name.toList.head?, Text.isBlank c = false) ∧
      (∀ c ∈ name.toList.getLast?, Text.isBlank c = false) := by decide
  obtain ⟨l, r, declares, compiled, carried, _, stable⟩ :=
    markers_carry_lists.2.2 ".a" "@variants hover ,, focus,hover\t" [] (by decide +kernel)
  have list : AtRule.declared? "@variants hover ,, focus,hover\t" =
      some ⟨["hover", "focus"], by decide, by decide⟩ := by decide +kernel
  refine ⟨(markers_carry_lists.1 spaced [] []).mpr (by decide),
    fun back => comma ((markers_carry_lists.1 joined [] []).mp back), r, compiled, ?_, stable⟩
  rw [carried, ← declares, list]

end Styles

end StyleLayers
