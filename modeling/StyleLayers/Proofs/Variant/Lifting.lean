import StyleLayers.Proofs.Rule.Frames

/-!
Rules can be rewritten before they are made into a group, or in the group. A block that declares
variants is recognized either way, and its children are rewritten alike inside it and lifted out
of it.
-/

namespace StyleLayers

namespace Selector

/-- A prefix is put behind a point, and so never in front of a selector. -/
theorem prefixedOf_head? (name cs : List Char) : (prefixedOf name cs).head? = cs.head? := by
  cases cs with
  | nil => simp [prefixedOf, scan, Css.lexemes, pieces]
  | cons c cs =>
    rw [prefixedOf, scan, Css.lexemes, pieces, List.flatMap_cons, prefixedPiece]
    split
    · rfl
    · rfl

theorem withinOf_head? (scope cs : List Char) :
    (withinOf scope cs).head? = none ∨ (withinOf scope cs).head? = (scope ++ [' ']).head? := by
  rw [withinOf]
  cases partsOf cs with
  | nil => exact Or.inl rfl
  | cons p ps =>
    right
    cases scope <;> cases ps <;> rfl

end Selector

namespace AtRule

theorem isPrelude_head? (selector : String) :
    isPrelude selector = true ↔ selector.toList.head? = some '@' := by
  rw [isPrelude_iff, List.head?_eq_some_iff]

theorem prefixed_isPrelude (name selector : String) :
    isPrelude (Selector.prefixed name selector) = isPrelude selector := by
  rw [Bool.eq_iff_iff, isPrelude_head?, isPrelude_head?, Selector.prefixed, String.toList_ofList,
    Selector.prefixedOf_head?]

theorem within_isPrelude (scope selector : String) (selects : isPrelude scope = false) :
    isPrelude (Selector.within scope selector) = false := by
  rw [← Bool.not_eq_true, isPrelude_head?] at selects ⊢
  intro found
  apply selects
  rw [Selector.within, String.toList_ofList] at found
  rcases Selector.withinOf_head? scope.toList selector.toList with none | first
  · rw [none] at found
    cases found
  · rw [first] at found
    cases shape : scope.toList with
    | nil =>
      rw [shape] at found
      exact absurd found (by decide)
    | cons c cs =>
      rw [shape] at found
      exact found

theorem declared?_eq (selector : String) : declared? selector =
    if name? selector = some variantsName then (params? selector).map Variants.parse else none := by
  unfold declared? name? params?
  cases body? selector with
  | none => rfl
  | some body => simp

theorem declared?_unnamed {selector : String} (unnamed : name? selector = none) :
    declared? selector = none := by
  rw [declared?_eq, unnamed, if_neg (Option.some_ne_none variantsName).symm]

theorem name?_of_declared? {selector : String} {l : Variants}
    (declares : declared? selector = some l) : name? selector = some variantsName := by
  by_cases named : name? selector = some variantsName
  · exact named
  · rw [declared?_eq, if_neg named] at declares
    cases declares

end AtRule

namespace Rule

/-- The rewriting makes no style rule an at-rule, and does to a rule in a block that declares
variants what it does to one that stands free. -/
structure Liftable (f : Option String → Head → Head) : Prop where
  keepsStyle : ∀ enclosing h, AtRule.isPrelude h.selector = false →
    AtRule.isPrelude (f enclosing h).selector = false
  blind : f (some variantsName) = f none

theorem outsideKeyframes_liftable (f : Head → Head)
    (keepsStyle : ∀ h, AtRule.isPrelude h.selector = false →
      AtRule.isPrelude (f h).selector = false) : Liftable (outsideKeyframes f) where
  keepsStyle enclosing h style := by
    unfold outsideKeyframes
    split
    · exact style
    · exact keepsStyle h style
  blind := by
    have noAnimation : isKeyframe (some variantsName) = false := by decide
    funext h
    simp only [outsideKeyframes, noAnimation]
    rfl

variable {f : Option String → Head → Head}

theorem rewrite_selector (enclosing : Option String) (r : Rule) :
    (rewrite f enclosing r).selector =
      if AtRule.isPrelude r.selector then r.selector else (f enclosing r.head).selector := by
  have changed := congrArg Head.selector (rewrite_head f enclosing r)
  rwa [apply_ite Head.selector] at changed

theorem declared?_rewrite (liftable : Liftable f) (enclosing : Option String) (r : Rule) :
    (rewrite f enclosing r).declared? = r.declared? := by
  unfold declared?
  rw [rewrite_selector]
  by_cases prelude : AtRule.isPrelude r.selector
  · rw [if_pos prelude]
  · have style : AtRule.isPrelude r.selector = false := by simpa using prelude
    have kept := liftable.keepsStyle enclosing r.head style
    rw [if_neg prelude, AtRule.declared?_unnamed (AtRule.selector_unnamed _ style),
      AtRule.declared?_unnamed (AtRule.selector_unnamed _ kept)]

theorem rewriteAll_variants (liftable : Liftable f) (rs : List Rule) :
    rewriteAll f (some variantsName) rs = rewriteAll f none rs := by
  rw [rewriteAll_eq_map, rewriteAll_eq_map]
  refine List.map_congr_left fun r _ => ?_
  obtain ⟨selector, declarations, children⟩ := r
  cases named : AtRule.name? selector with
  | some name => rw [rewrite_atRule _ _ _ _ _ _ named, rewrite_atRule _ _ _ _ _ _ named]
  | none =>
    rw [rewrite_style _ _ _ _ _ named, rewrite_style _ _ _ _ _ named, liftable.blind]

theorem rewrite_declaring (liftable : Liftable f) (enclosing : Option String) (r : Rule)
    {l : Variants} (declares : r.declared? = some l) :
    rewrite f enclosing r = ⟨r.selector, r.declarations, rewriteAll f none r.children⟩ := by
  obtain ⟨selector, declarations, children⟩ := r
  rw [rewrite_atRule _ _ _ _ _ _ (AtRule.name?_of_declared? declares),
    rewriteAll_variants liftable]

end Rule

namespace Group

def changed (change : List Rule → List Rule) (g : Group) : Group := ⟨change g.rules, g.variants⟩

theorem wrap_plain (rs : List Rule) (variants : Variants)
    (none : (rs.any fun r => r.declared?.isSome) = false) : wrap rs variants = ⟨rs, variants⟩ := by
  simp only [wrap, none, Bool.false_eq_true, if_false]

theorem wrap_rewriteAll (f : Option String → Head → Head) (liftable : Rule.Liftable f)
    (rs : List Rule) (variants : Variants) :
    wrap (Rule.rewriteAll f none rs) variants =
      (wrap rs variants).changed (Rule.rewriteAll f none) := by
  have same : ((Rule.rewriteAll f none rs).any fun r => r.declared?.isSome) =
      rs.any fun r => r.declared?.isSome := by
    rw [Rule.rewriteAll_eq_map, List.any_map]
    congr 1
    funext r
    exact congrArg Option.isSome (Rule.declared?_rewrite liftable none r)
  by_cases declaring : (rs.any fun r => r.declared?.isSome) = true
  · match rs with
    | [] => cases declaring
    | [r] =>
      obtain ⟨l, declares⟩ := Option.isSome_iff_exists.mp (by simpa using declaring)
      have rewritten := Rule.rewrite_declaring liftable none r declares
      have declaresAfter := Rule.declared?_rewrite liftable none r
      rw [declares] at declaresAfter
      -- The declarations of a declaring block stay, so it is lifted in both cases or in none.
      have declarations : (Rule.rewrite f none r).declarations = r.declarations := by
        rw [rewritten]
      have children : (Rule.rewrite f none r).children = Rule.rewriteAll f none r.children := by
        rw [rewritten]
      by_cases lone : r.declarations = []
      · simp [wrap, changed, Rule.rewriteAll, declares, declaresAfter, declarations, children,
          lone]
      · simp [wrap, changed, Rule.rewriteAll, declares, declaresAfter, declarations, lone]
    | r :: s :: rest =>
      have declaringAfter := same.trans declaring
      simp only [Rule.rewriteAll] at declaringAfter
      simp only [wrap, changed, Rule.rewriteAll, declaring, declaringAfter, if_true]
  · rw [Bool.not_eq_true] at declaring
    rw [wrap_plain rs variants declaring, wrap_plain _ variants (same.trans declaring)]
    rfl

end Group

/-- A scope that makes no at-rules of the rules it is put around. -/
def Importance.Selects : Importance → Prop
  | .scope selector => AtRule.isPrelude selector = false
  | .off => True
  | .flag => True

/-- Whether rules get their prefix and their importance first, or are made into a group first,
perhaps lifted out of the block that declares its variants, the group is the same. -/
theorem Group.wrap_treated (rs : List Rule) (variants : Variants) (name : String)
    (importance : Importance) (selects : importance.Selects) :
    wrap (Rule.prefixAll name rs) variants = (wrap rs variants).changed (Rule.prefixAll name) ∧
      wrap (Rule.emphasizeAll importance rs) variants =
        (wrap rs variants).changed (Rule.emphasizeAll importance) := by
  have prefixing : Rule.Liftable (Rule.outsideKeyframes (Head.prefixed name)) :=
    Rule.outsideKeyframes_liftable _ fun h style =>
      (AtRule.prefixed_isPrelude name h.selector).trans style
  refine ⟨wrap_rewriteAll _ prefixing rs variants, ?_⟩
  cases importance with
  | off => rfl
  | flag =>
    have flagging : Rule.Liftable (Rule.outsideKeyframes Head.flagged) :=
      Rule.outsideKeyframes_liftable _ fun _ style => style
    exact wrap_rewriteAll _ flagging rs variants
  | scope selector =>
    have scoping : Rule.Liftable (Rule.outsideKeyframes (Head.within selector)) :=
      Rule.outsideKeyframes_liftable _ fun h _ =>
        AtRule.within_isPrelude selector h.selector selects
    exact wrap_rewriteAll _ scoping rs variants

theorem Group.wrap_treated_lifted :
    let block : Rule := ⟨"@variants hover", [],
      [⟨".a, .b", [⟨"color", "red"⟩], []⟩, ⟨"@keyframes spin", [], [⟨"from", [], []⟩]⟩]⟩
    Importance.Selects (.scope "#app") ∧
      wrap (Rule.emphasizeAll (.scope "#app") [block]) .empty =
        (wrap [block] .empty).changed (Rule.emphasizeAll (.scope "#app")) ∧
      (wrap (Rule.emphasizeAll (.scope "#app") [block]) .empty).rules.map Rule.head =
        [⟨"#app .a, #app .b", [⟨"color", "red"⟩]⟩, ⟨"@keyframes spin", []⟩] := by
  intro block
  have selects : Importance.Selects (.scope "#app") :=
    (by decide : AtRule.isPrelude "#app" = false)
  exact ⟨selects, (Group.wrap_treated [block] .empty "" (.scope "#app") selects).2,
    by decide +kernel⟩

end StyleLayers
