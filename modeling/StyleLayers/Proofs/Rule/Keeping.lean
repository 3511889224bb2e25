import StyleLayers.Proofs.Css.Trailing
import StyleLayers.Proofs.Variant.Lifting

/-!
What the two rewritings leave alone: the shape of the trees, their at-rules, the names of the
properties and the frames directly in an animation. What they do to a rule that no animation is
around, and that marking it as important a second time changes nothing.
-/

namespace StyleLayers

namespace Declaration

/-- The value says `!important` at its end, white space aside. -/
def Insists (d : Declaration) : Prop := "!important".toList <:+ Text.trimEnd d.value.toList

instance (d : Declaration) : Decidable d.Insists :=
  inferInstanceAs (Decidable ("!important".toList <:+ Text.trimEnd d.value.toList))

theorem isImportant_iff (d : Declaration) : d.isImportant = true ↔ d.Insists :=
  List.isSuffixOf_iff_suffix

theorem withImportance_eq (d : Declaration) : d.withImportance =
    ⟨d.property, if d.Insists then d.value else d.value ++ " !important"⟩ := by
  rw [withImportance]
  by_cases insists : d.Insists
  · rw [if_pos ((isImportant_iff d).mpr insists), if_pos insists]
  · rw [if_neg (mt (isImportant_iff d).mp insists), if_neg insists]

theorem withImportance_insists (d : Declaration) : d.withImportance.Insists := by
  rw [withImportance_eq]
  by_cases insists : d.Insists
  · rwa [if_pos insists]
  · have written : (d.value ++ " !important").toList =
        d.value.toList ++ " !importan".toList ++ ['t'] := by
      simp
    rw [if_neg insists, Insists, written, Css.trimEnd_visible _ 't' (by decide)]
    exact ⟨d.value.toList ++ [' '], by simp⟩

theorem withImportance_twice (d : Declaration) :
    d.withImportance.withImportance = d.withImportance := by
  rw [withImportance_eq d.withImportance, if_pos (withImportance_insists d)]

end Declaration

namespace Selector

theorem within_eq (scope selector : String) : within scope selector =
    ", ".intercalate ((parts selector).map fun part => scope ++ " " ++ part) := by
  apply String.toList_inj.mp
  rw [within, String.toList_ofList, withinOf, String.toList_intercalate, parts, List.map_map,
    List.map_map]
  simp [Function.comp_def, listText]

end Selector

namespace Head

def properties (h : Head) : List String := h.declarations.map Declaration.property

def demanded (h : Head) : Importance → Head
  | .off => h
  | .flag => ⟨h.selector, h.declarations.map fun d =>
      ⟨d.property, if d.Insists then d.value else d.value ++ " !important"⟩⟩
  | .scope scope =>
      ⟨", ".intercalate ((Selector.parts h.selector).map fun part => scope ++ " " ++ part),
        h.declarations⟩

theorem flagged_eq (h : Head) : h.flagged = h.demanded .flag := by
  rw [flagged, demanded]
  congr 1
  apply List.map_congr_left
  intro d _
  exact Declaration.withImportance_eq d

theorem flagged_properties (h : Head) : h.flagged.properties = h.properties := by
  rw [properties, flagged, List.map_map]
  apply List.map_congr_left
  intro d _
  rw [Function.comp_apply, Declaration.withImportance_eq]

theorem flagged_twice (h : Head) : h.flagged.flagged = h.flagged := by
  have declarations : (h.declarations.map Declaration.withImportance).map
      Declaration.withImportance = h.declarations.map Declaration.withImportance := by
    rw [List.map_map]
    apply List.map_congr_left
    intro d _
    rw [Function.comp_apply, Declaration.withImportance_twice]
  exact congrArg (Head.mk h.selector) declarations

theorem within_eq (scope : String) (h : Head) : h.within scope = h.demanded (.scope scope) := by
  rw [within, Selector.within_eq]
  rfl

end Head

namespace Rule

/-- The changed trees have rules at the same places. They have the same properties there, the same
at-rules whole, and the same frames directly in an animation. -/
structure Keeps (rs changed : List Rule) : Prop where
  places : ∀ path, (headAt? changed path).isSome = (headAt? rs path).isSome
  properties : ∀ path,
    (headAt? changed path).map Head.properties = (headAt? rs path).map Head.properties
  atRules : ∀ path h, headAt? rs path = some h → AtRule.isPrelude h.selector = true →
    headAt? changed path = some h
  frames : ∀ path p, siteAt? [] rs path = some p → isKeyframe p.enclosing? = true →
    headAt? changed path = some p.head

/-- Every at-rule of the changed trees was there before, and the same. -/
def AddsNoAtRule (rs changed : List Rule) : Prop :=
  ∀ path h, headAt? changed path = some h → AtRule.isPrelude h.selector = true →
    headAt? rs path = some h

theorem Site.rewritten_prelude (f : Head → Head) (p : Site)
    (prelude : AtRule.isPrelude p.head.selector = true) : p.rewritten f = p.head := by
  rw [Site.rewritten, prelude, Bool.true_or, if_pos rfl]

theorem Site.rewritten_frame (f : Head → Head) (p : Site)
    (frame : isKeyframe p.enclosing? = true) : p.rewritten f = p.head := by
  rw [Site.rewritten, frame, Bool.or_true, if_pos rfl]

theorem Site.rewritten_style (f : Head → Head) (p : Site)
    (style : AtRule.isPrelude p.head.selector = false)
    (noFrame : isKeyframe p.enclosing? = false) : p.rewritten f = f p.head := by
  rw [Site.rewritten, style, noFrame]
  rfl

theorem Site.rewritten_properties (f : Head → Head)
    (same : ∀ h, (f h).properties = h.properties) (p : Site) :
    (p.rewritten f).properties = p.head.properties := by
  rw [Site.rewritten]
  split
  · rfl
  · exact same p.head

theorem keeps_refl (rs : List Rule) : Keeps rs rs where
  places _ := rfl
  properties _ := rfl
  atRules _ _ found _ := found
  frames _ _ found _ := congrArg (Option.map Site.head) found

theorem keeps_rewriteAll (f : Head → Head) (same : ∀ h, (f h).properties = h.properties)
    (rs : List Rule) : Keeps rs (rewriteAll (outsideKeyframes f) none rs) where
  places path := by
    rw [headAt?_outsideKeyframes, headAt?, Option.isSome_map, Option.isSome_map]
  properties path := by
    rw [headAt?_outsideKeyframes, headAt?, Option.map_map, Option.map_map]
    congr 1
    funext p
    exact Site.rewritten_properties f same p
  atRules path h found prelude := by
    obtain ⟨p, site, rfl⟩ := Option.map_eq_some_iff.mp found
    rw [headAt?_outsideKeyframes, site, Option.map_some, Site.rewritten_prelude f p prelude]
  frames path p site frame := by
    rw [headAt?_outsideKeyframes, site, Option.map_some, Site.rewritten_frame f p frame]

theorem addsNoAtRule_rewriteAll (f : Head → Head)
    (keepsStyle : ∀ h, AtRule.isPrelude h.selector = false →
      AtRule.isPrelude (f h).selector = false) (rs : List Rule) :
    AddsNoAtRule rs (rewriteAll (outsideKeyframes f) none rs) := by
  intro path h found prelude
  rw [headAt?_outsideKeyframes] at found
  obtain ⟨p, site, rfl⟩ := Option.map_eq_some_iff.mp found
  rw [headAt?, site, Option.map_some]
  by_cases before : AtRule.isPrelude p.head.selector = true
  · rw [Site.rewritten_prelude f p before]
  · rw [Bool.not_eq_true] at before
    -- A style rule in a frame is as it was, and any other is still a style rule.
    by_cases frame : isKeyframe p.enclosing? = true
    · rw [Site.rewritten_frame f p frame]
    · rw [Bool.not_eq_true] at frame
      rw [Site.rewritten_style f p before frame, keepsStyle p.head before] at prelude
      cases prelude

/-- A style rule that no animation is around, near or far. -/
def Site.Free (p : Site) : Prop := AtRule.isPrelude p.head.selector = false ∧ ¬p.InAnimation

theorem Site.enclosing_noKeyframe (p : Site) (outside : ¬p.InAnimation) :
    isKeyframe p.enclosing? = false := by
  rw [Site.enclosing?]
  cases shape : p.around with
  | nil => rfl
  | cons s around =>
    rw [← Bool.not_eq_true]
    intro frame
    exact outside ⟨s, by simp [shape], frame⟩

theorem headAt?_style (f : Head → Head) (rs : List Rule) (path : List Nat) (p : Site)
    (site : siteAt? [] rs path = some p) (style : AtRule.isPrelude p.head.selector = false)
    (noFrame : isKeyframe p.enclosing? = false) :
    headAt? (rewriteAll (outsideKeyframes f) none rs) path = some (f p.head) := by
  rw [headAt?_outsideKeyframes, site, Option.map_some, Site.rewritten_style f p style noFrame]

theorem headAt?_emphasizeAll (importance : Importance) (rs : List Rule) (path : List Nat)
    (p : Site) (site : siteAt? [] rs path = some p)
    (style : AtRule.isPrelude p.head.selector = false)
    (noFrame : isKeyframe p.enclosing? = false) :
    headAt? (emphasizeAll importance rs) path = some (p.head.demanded importance) := by
  cases importance with
  | off => exact congrArg (Option.map Site.head) site
  | flag =>
    rw [← Head.flagged_eq]
    exact headAt?_style Head.flagged rs path p site style noFrame
  | scope scope =>
    rw [← Head.within_eq]
    exact headAt?_style (Head.within scope) rs path p site style noFrame

/-- Done again, the rewriting changes nothing, and it never touches a selector. -/
structure Settles (f : Option String → Head → Head) : Prop where
  selector : ∀ enclosing h, (f enclosing h).selector = h.selector
  again : ∀ enclosing h, f enclosing (f enclosing h) = f enclosing h

mutual

theorem rewrite_again (f : Option String → Head → Head) (settles : Settles f) :
    ∀ (enclosing : Option String) (r : Rule),
      rewrite f enclosing (rewrite f enclosing r) = rewrite f enclosing r
  | enclosing, ⟨selector, declarations, children⟩ => by
    cases named : AtRule.name? selector with
    | some name =>
      rw [rewrite_atRule _ _ _ _ _ _ named, rewrite_atRule _ _ _ _ _ _ named,
        rewriteAll_again f settles]
    | none =>
      -- The selector stays, so the rule is a style rule the second time too.
      have kept := settles.selector enclosing ⟨selector, declarations⟩
      have again := settles.again enclosing ⟨selector, declarations⟩
      rw [rewrite_style _ _ _ _ _ named, rewrite_style _ _ _ _ _ (kept ▸ named),
        rewriteAll_again f settles]
      exact congrArg (fun h : Head => Rule.mk h.selector h.declarations
        (rewriteAll f none children)) again

theorem rewriteAll_again (f : Option String → Head → Head) (settles : Settles f) :
    ∀ (enclosing : Option String) (rs : List Rule),
      rewriteAll f enclosing (rewriteAll f enclosing rs) = rewriteAll f enclosing rs
  | _, [] => rfl
  | enclosing, r :: rs => by
    rw [rewriteAll, rewriteAll, rewrite_again f settles, rewriteAll_again f settles]

end

theorem flagging_settles : Settles (outsideKeyframes Head.flagged) where
  selector enclosing h := by
    rw [outsideKeyframes]
    split
    · rfl
    · rfl
  again enclosing h := by
    rw [outsideKeyframes, outsideKeyframes]
    split
    · rfl
    · exact h.flagged_twice

/-- A prefix or a setting of importance keeps the trees with their at-rules, properties and frames,
and makes no at-rule of a style rule unless the scope is one. It does what it is for to every
style rule that is in no animation, and nothing more when it marks declarations a second time. -/
theorem rewritings_keep_the_rest (rs : List Rule) (name : String) (importance : Importance) :
    Keeps rs (prefixAll name rs) ∧ AddsNoAtRule rs (prefixAll name rs) ∧
      Keeps rs (emphasizeAll importance rs) ∧
      (importance.Selects → AddsNoAtRule rs (emphasizeAll importance rs)) ∧
      (∀ path p, siteAt? [] rs path = some p → p.Free →
        headAt? (prefixAll name rs) path =
            some ⟨Selector.prefixed name p.head.selector, p.head.declarations⟩ ∧
          headAt? (emphasizeAll importance rs) path = some (p.head.demanded importance)) ∧
      emphasizeAll .flag (emphasizeAll .flag rs) = emphasizeAll .flag rs := by
  refine ⟨keeps_rewriteAll (Head.prefixed name) (fun _ => rfl) rs, ?_, ?_, ?_, ?_,
    rewriteAll_again _ flagging_settles none rs⟩
  · apply addsNoAtRule_rewriteAll
    intro h style
    exact (AtRule.prefixed_isPrelude name h.selector).trans style
  · cases importance with
    | off => exact keeps_refl rs
    | flag => exact keeps_rewriteAll Head.flagged Head.flagged_properties rs
    | scope scope => exact keeps_rewriteAll (Head.within scope) (fun _ => rfl) rs
  · intro selects
    cases importance with
    | off => exact fun _ _ found _ => found
    | flag => exact addsNoAtRule_rewriteAll Head.flagged (fun _ style => style) rs
    | scope scope =>
      apply addsNoAtRule_rewriteAll
      intro h _
      exact AtRule.within_isPrelude scope h.selector selects
  · intro path p site free
    have noFrame := p.enclosing_noKeyframe free.2
    exact ⟨headAt?_style (Head.prefixed name) rs path p site free.1 noFrame,
      headAt?_emphasizeAll importance rs path p site free.1 noFrame⟩

theorem rewritings_keep_the_rest_print :
    let p : Site := ⟨["@media print"],
      ⟨".a, .b", [⟨"color", "red"⟩, ⟨"top", "0 !important\t"⟩]⟩⟩
    let rs : List Rule := [⟨"@media print", [], [⟨p.head.selector, p.head.declarations, []⟩]⟩,
      ⟨"@keyframes spin", [], [⟨"from", [⟨"color", "red"⟩], []⟩]⟩]
    siteAt? [] rs [0, 0] = some p ∧ p.Free ∧ Importance.Selects (.scope "#app") ∧
      headAt? (prefixAll "tw-" rs) [0, 0] = some ⟨".tw-a, .tw-b", p.head.declarations⟩ ∧
      headAt? (emphasizeAll .flag rs) [0, 0] =
        some ⟨".a, .b", [⟨"color", "red !important"⟩, ⟨"top", "0 !important\t"⟩]⟩ ∧
      headAt? (emphasizeAll (.scope "#app") rs) [0, 0] =
        some ⟨"#app .a, #app .b", p.head.declarations⟩ ∧
      AddsNoAtRule rs (emphasizeAll (.scope "#app") rs) := by
  intro p rs
  have site : siteAt? [] rs [0, 0] = some p := by decide +kernel
  have outside : ¬p.InAnimation := by
    intro inside
    obtain ⟨s, member, frame⟩ := inside
    rw [List.mem_singleton.mp member] at frame
    exact absurd frame (by decide)
  have free : p.Free := ⟨by decide, outside⟩
  have selects : Importance.Selects (.scope "#app") :=
    (by decide : AtRule.isPrelude "#app" = false)
  obtain ⟨_, _, _, _, flagging, _⟩ := rewritings_keep_the_rest rs "tw-" .flag
  obtain ⟨_, _, _, noneAdded, scoping, _⟩ := rewritings_keep_the_rest rs "tw-" (.scope "#app")
  have flagged := flagging [0, 0] p site free
  have within := (scoping [0, 0] p site free).2
  have prefixed : Selector.prefixed "tw-" p.head.selector = ".tw-a, .tw-b" := by decide +kernel
  have marked : p.head.demanded .flag =
      ⟨".a, .b", [⟨"color", "red !important"⟩, ⟨"top", "0 !important\t"⟩]⟩ := by
    decide +kernel
  have below : p.head.demanded (.scope "#app") = ⟨"#app .a, #app .b", p.head.declarations⟩ := by
    decide +kernel
  rw [prefixed, marked] at flagged
  rw [below] at within
  exact ⟨site, free, selects, flagged.1, flagged.2, within, noneAdded selects⟩

end Rule

end StyleLayers
