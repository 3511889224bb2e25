import StyleLayers.Proofs.Rule.Rewriting
import StyleLayers.Style.Compile

/-!
Frames of animations under the two rewritings. Rules are addressed by the positions on the way to
them, since a rewriting keeps the shape of the trees; what becomes of a rule depends on the rule
directly around it and on none further out.
-/

namespace StyleLayers

def Head.emphasized : Importance → Head → Head
  | .off => id
  | .flag => Head.flagged
  | .scope selector => Head.within selector

namespace Rule

/-- A rule with the selectors of the rules around it, the innermost first. -/
structure Site where
  around : List String
  head : Head
  deriving DecidableEq, Repr

namespace Site

def enclosing? (p : Site) : Option String := p.around.head?.bind AtRule.name?

/-- Some rule around, near or far, is the at-rule of an animation. -/
def InAnimation (p : Site) : Prop := ∃ s ∈ p.around, isKeyframe (AtRule.name? s) = true

/-- At-rules and the rules directly in an animation stay as they are. -/
def rewritten (f : Head → Head) (p : Site) : Head :=
  if AtRule.isPrelude p.head.selector || isKeyframe p.enclosing? then p.head else f p.head

end Site

def siteAt? (around : List String) (rs : List Rule) : List Nat → Option Site
  | [] => none
  | [i] => rs[i]?.map fun r => ⟨around, r.head⟩
  | i :: j :: path => rs[i]?.bind fun r => siteAt? (r.selector :: around) r.children (j :: path)

def headAt? (rs : List Rule) (path : List Nat) : Option Head := (siteAt? [] rs path).map Site.head

theorem rewriteAll_eq_map (f : Option String → Head → Head) (enclosing : Option String)
    (rs : List Rule) : rewriteAll f enclosing rs = rs.map (rewrite f enclosing) := by
  induction rs with
  | nil => rfl
  | cons r rs ih => rw [rewriteAll, List.map_cons, ih]

theorem rewrite_head (f : Option String → Head → Head) (enclosing : Option String) (r : Rule) :
    (rewrite f enclosing r).head =
      if AtRule.isPrelude r.selector then r.head else f enclosing r.head := by
  obtain ⟨selector, declarations, children⟩ := r
  by_cases present : AtRule.isPrelude selector
  · obtain ⟨name, named⟩ := AtRule.prelude_named selector present
    rw [rewrite_atRule f enclosing selector name declarations children named, if_pos present]
    rfl
  · have unnamed := AtRule.selector_unnamed selector (Bool.not_eq_true _ ▸ present)
    rw [rewrite_style f enclosing selector declarations children unnamed, if_neg present]
    rfl

theorem rewrite_children (f : Option String → Head → Head) (enclosing : Option String)
    (r : Rule) :
    (rewrite f enclosing r).children = rewriteAll f (AtRule.name? r.selector) r.children := by
  obtain ⟨selector, declarations, children⟩ := r
  cases named : AtRule.name? selector with
  | some name => rw [rewrite_atRule f enclosing selector name declarations children named]
  | none => rw [rewrite_style f enclosing selector declarations children named]

/-- The selectors around may themselves have been rewritten; only those of the original count. -/
theorem heads_rewriteAll (f : Option String → Head → Head) (path : List Nat) (rs : List Rule)
    (around changed : List String) :
    (siteAt? changed (rewriteAll f (around.head?.bind AtRule.name?) rs) path).map Site.head =
      (siteAt? around rs path).map fun p =>
        if AtRule.isPrelude p.head.selector then p.head else f p.enclosing? p.head := by
  induction path generalizing rs around changed with
  | nil => rfl
  | cons i path ih =>
    rw [rewriteAll_eq_map]
    cases path with
    | nil =>
      rw [siteAt?, siteAt?, List.getElem?_map]
      cases rs[i]? with
      | none => rfl
      | some r => exact congrArg some (rewrite_head f _ r)
    | cons j path =>
      rw [siteAt?, siteAt?, List.getElem?_map]
      cases rs[i]? with
      | none => rfl
      | some r =>
        rw [Option.map_some, Option.bind_some, Option.bind_some, rewrite_children]
        exact ih r.children (r.selector :: around) _

theorem headAt?_outsideKeyframes (f : Head → Head) (rs : List Rule) (path : List Nat) :
    headAt? (rewriteAll (outsideKeyframes f) none rs) path =
      (siteAt? [] rs path).map (Site.rewritten f) := by
  refine (heads_rewriteAll (outsideKeyframes f) path rs [] []).trans ?_
  congr 1
  funext p
  rw [Site.rewritten, outsideKeyframes]
  by_cases prelude : AtRule.isPrelude p.head.selector
  · simp [prelude]
  · simp [prelude]

/-- A prefix or a setting of importance changes every style rule but those directly in the at-rule
of an animation, and changes nothing else. -/
theorem rewritten_at_every_site (rs : List Rule) (name : String) (importance : Importance)
    (path : List Nat) :
    headAt? (prefixAll name rs) path =
        (siteAt? [] rs path).map (Site.rewritten (Head.prefixed name)) ∧
      headAt? (emphasizeAll importance rs) path =
        (siteAt? [] rs path).map (Site.rewritten (Head.emphasized importance)) := by
  refine ⟨headAt?_outsideKeyframes (Head.prefixed name) rs path, ?_⟩
  cases importance with
  | off =>
    rw [emphasizeAll, headAt?]
    congr 1
    funext p
    exact (ite_self p.head).symm
  | flag => exact headAt?_outsideKeyframes Head.flagged rs path
  | scope selector => exact headAt?_outsideKeyframes (Head.within selector) rs path

/-- Further inside an animation rules are rewritten: behind another at-rule a frame becomes
important or gets a scope, and inside a frame a class gets a prefix. -/
theorem frames_further_inside_rewritten :
    let compiled := Styles.compile "" (.mapping [("@keyframes spin", .object
      [("@media print", .object [("from", .object [("color", .string "red")])])])])
    let nested : List Rule := [⟨"@keyframes spin", [], [⟨"from", [], [⟨".a", [], []⟩]⟩]⟩]
    (¬∀ (rs : List Rule) (path : List Nat) (p : Site), siteAt? [] rs path = some p →
        p.InAnimation → ∀ (name : String) (importance : Importance),
          headAt? (prefixAll name rs) path = some p.head ∧
            headAt? (emphasizeAll importance rs) path = some p.head) ∧
      siteAt? [] compiled [0, 0, 0] =
        some ⟨["@media print", "@keyframes spin"], ⟨"from", [⟨"color", "red"⟩]⟩⟩ ∧
      headAt? (emphasizeAll .flag compiled) [0, 0, 0] =
        some ⟨"from", [⟨"color", "red !important"⟩]⟩ ∧
      headAt? (emphasizeAll (.scope "#app") compiled) [0, 0, 0] =
        some ⟨"#app from", [⟨"color", "red"⟩]⟩ ∧
      siteAt? [] nested [0, 0, 0] = some ⟨["from", "@keyframes spin"], ⟨".a", []⟩⟩ ∧
      headAt? (prefixAll "tw-" nested) [0, 0, 0] = some ⟨".tw-a", []⟩ := by
  intro compiled nested
  have site : siteAt? [] compiled [0, 0, 0] =
      some ⟨["@media print", "@keyframes spin"], ⟨"from", [⟨"color", "red"⟩]⟩⟩ := by
    decide +kernel
  have flagged : headAt? (emphasizeAll .flag compiled) [0, 0, 0] =
      some ⟨"from", [⟨"color", "red !important"⟩]⟩ := by
    decide +kernel
  refine ⟨?_, site, flagged, by decide +kernel, by decide +kernel, by decide +kernel⟩
  intro kept
  have inside : Site.InAnimation
      ⟨["@media print", "@keyframes spin"], ⟨"from", [⟨"color", "red"⟩]⟩⟩ :=
    ⟨"@keyframes spin", by decide, by decide⟩
  have same := (kept compiled [0, 0, 0] _ site inside "" .flag).2
  rw [flagged] at same
  exact absurd same (by decide)

end Rule

end StyleLayers
