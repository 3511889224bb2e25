import StyleLayers.Rule.Rewrite
import StyleLayers.Variant.Group

/-!
Which selectors are preludes of at-rules, and what a rewriting does to either kind of rule.
-/

namespace StyleLayers

namespace AtRule

theorem name?_isSome (selector : String) : (name? selector).isSome = isPrelude selector := by
  simp [name?, isPrelude]

theorem prelude_named (selector : String) (present : isPrelude selector = true) :
    ∃ name, name? selector = some name := by
  rwa [← name?_isSome, Option.isSome_iff_exists] at present

theorem selector_unnamed (selector : String) (absent : isPrelude selector = false) :
    name? selector = none := by
  rwa [← name?_isSome, Option.isSome_eq_false_iff, Option.isNone_iff_eq_none] at absent

theorem isPrelude_iff (selector : String) :
    isPrelude selector = true ↔ ∃ body, selector.toList = '@' :: body := by
  unfold isPrelude body?
  constructor
  · intro present
    split at present
    · next body shape => exact ⟨body, shape⟩
    · cases present
  · rintro ⟨body, shape⟩
    simp [shape]

theorem isPrelude_append (prelude text : String) (present : isPrelude prelude = true) :
    isPrelude (prelude ++ text) = true := by
  rw [isPrelude_iff] at present ⊢
  obtain ⟨body, shape⟩ := present
  exact ⟨body ++ text.toList, by rw [String.toList_append, shape]; rfl⟩

theorem marker_isPrelude (l : Variants) : isPrelude l.marker = true := by
  unfold Variants.marker
  split
  · decide
  · exact isPrelude_append _ _ (by decide)

end AtRule

namespace Rule

theorem rewriteAll_append (f : Option String → Head → Head) (enclosing : Option String)
    (rs ss : List Rule) :
    rewriteAll f enclosing (rs ++ ss) = rewriteAll f enclosing rs ++ rewriteAll f enclosing ss := by
  induction rs with
  | nil => rfl
  | cons r rs ih => simp only [List.cons_append, rewriteAll, ih]

theorem rewrite_atRule (f : Option String → Head → Head) (enclosing : Option String)
    (prelude name : String) (ds : List Declaration) (rs : List Rule)
    (named : AtRule.name? prelude = some name) :
    rewrite f enclosing ⟨prelude, ds, rs⟩ = ⟨prelude, ds, rewriteAll f (some name) rs⟩ := by
  rw [rewrite, named]

theorem rewrite_style (f : Option String → Head → Head) (enclosing : Option String)
    (selector : String) (ds : List Declaration) (rs : List Rule)
    (unnamed : AtRule.name? selector = none) :
    rewrite f enclosing ⟨selector, ds, rs⟩ =
      ⟨(f enclosing ⟨selector, ds⟩).selector, (f enclosing ⟨selector, ds⟩).declarations,
        rewriteAll f none rs⟩ := by
  rw [rewrite, unnamed]

end Rule

end StyleLayers
