import StyleLayers.Proofs.Config.Distinct
import StyleLayers.Proofs.Config.Joining
import StyleLayers.Proofs.Plugin.Reaching
import StyleLayers.Proofs.Style.EscapedNesting
import StyleLayers.Proofs.Variant.Lifting

/-!
The opacity plugin from the theme to its group: one rule for each step of the scale, in the order of
the scale. A step that is set to null is a step like the others.
-/

namespace StyleLayers

namespace Css

/-- What step names are made of: ASCII letters and digits, points, slashes and hyphens. -/
def IsStepChar (c : Char) : Prop :=
  isAsciiLetter c = true ∨ isAsciiDigit c = true ∨ c ∈ ['.', '/', '-']

instance (c : Char) : Decidable (IsStepChar c) :=
  inferInstanceAs (Decidable (isAsciiLetter c = true ∨ isAsciiDigit c = true ∨ c ∈ ['.', '/', '-']))

def IsStepName (name : String) : Prop := ∀ c ∈ name.toList, IsStepChar c

instance (name : String) : Decidable (IsStepName name) :=
  inferInstanceAs (Decidable (∀ c ∈ name.toList, IsStepChar c))

theorem stepChar_range (c : Char) (step : IsStepChar c) : 45 ≤ c.toNat ∧ c.toNat ≤ 122 := by
  rcases step with letter | digit | mark
  · rw [isAsciiLetter_iff] at letter
    omega
  · rw [isAsciiDigit_iff] at digit
    omega
  · have marks : ∀ d ∈ ['.', '/', '-'], 45 ≤ d.toNat ∧ d.toNat ≤ 122 := by decide
    exact marks c mark

theorem stepChar_visible (c : Char) (step : IsStepChar c) : Text.isBlank c = false := by
  have range := stepChar_range c step
  have ascii : isAscii c = true := by
    simp only [isAscii, decide_eq_true_eq]
    omega
  by_contra blank
  have low := blank_ascii c ascii (by simpa using blank)
  omega

/-- None is escaped by code, which would bring in white space. -/
theorem escapedChar_stepChar (c : Char) (step : IsStepChar c) :
    ∀ d ∈ escapedChar c, Text.isBlank d = false := by
  have range := stepChar_range c step
  have shown := stepChar_visible c step
  have noControl : ¬(c.toNat < 0x20 || c = '\x7f') = true := by
    rw [Bool.or_eq_true, decide_eq_true_eq, decide_eq_true_eq]
    rintro (low | rfl)
    · omega
    · exact absurd range.2 (by decide)
  intro d member
  rw [escapedChar, if_neg noControl] at member
  split at member
  · rwa [List.mem_singleton.mp member]
  · split at member
    · rw [List.mem_singleton.mp member]
      decide
    · rcases List.mem_cons.mp member with rfl | same
      · decide
      · rwa [List.mem_singleton.mp same]

theorem isStepName_append (front back : String) (stepFront : IsStepName front)
    (stepBack : IsStepName back) : IsStepName (front ++ back) := by
  intro c member
  rw [String.toList_append] at member
  rcases List.mem_append.mp member with inFront | inBack
  · exact stepFront c inFront
  · exact stepBack c inBack

theorem trimEnd_escaped_step (c : Char) (cs : List Char) (letter : isAsciiLetter c = true)
    (steps : ∀ d ∈ cs, IsStepChar d) :
    Text.trimEnd (escaped (c :: cs)) = escaped (c :: cs) := by
  have noHyphen : c ≠ '-' := by
    rintro rfl
    exact absurd letter (by decide)
  have noDigit : ¬isAsciiDigit c = true := by
    rw [isAsciiDigit_iff]
    rw [isAsciiLetter_iff] at letter
    omega
  have all : ∀ d ∈ c :: cs, IsStepChar d := List.forall_mem_cons.mpr ⟨Or.inl letter, steps⟩
  have shown : ∀ e ∈ (c :: cs).flatMap escapedChar, Text.isBlank e = false := by
    intro e member
    obtain ⟨d, inside, written⟩ := List.mem_flatMap.mp member
    exact escapedChar_stepChar d (all d inside) e written
  have whole := trimEnd_append _ [] shown
  rw [List.append_nil] at whole
  rw [escaped_start c cs noHyphen, escapedStart, if_neg noDigit, whole]
  exact List.append_nil _

end Css

namespace Selector

open Css

theorem nested_class (name : String) (nonempty : name ≠ "") (noPlaceholder : '&' ∉ name.toList)
    (shown : Text.trimEnd (escaped name.toList) = escaped name.toList) :
    nested "" ("." ++ escape name) = "." ++ escape name := by
  have chars : name.toList ≠ [] := fun none => nonempty (String.toList_eq_nil_iff.mp none)
  apply String.toList_inj.mp
  rw [nested, String.toList_ofList, toList_class, String.toList_empty,
    nestedOf_class name.toList chars noPlaceholder, shown]

theorem prefixed_class (added name : String) (nonempty : name ≠ "") :
    prefixed added ("." ++ escape name) = "." ++ added ++ escape name := by
  have chars : name.toList ≠ [] := fun none => nonempty (String.toList_eq_nil_iff.mp none)
  have behind := series_prefixed added.toList (.one (.one (.simple (.ofClass ⟨_, chars⟩))))
  change prefixedOf added.toList ('.' :: escaped name.toList) = _ at behind
  apply String.toList_inj.mp
  rw [prefixed, String.toList_ofList, toList_class, behind]
  simp [Series.textWith, Complex.textWith, Compound.textWith, Simple.textWith, escape]

end Selector

namespace BuiltIn

def stepName (key : String) : String := "opacity-" ++ key

def opacityRule (name : String) (step : String × Value) : Rule :=
  ⟨"." ++ name ++ Css.escape (stepName step.1), [⟨"opacity", step.2.css⟩], []⟩

def opacityStyle (step : String × Value) : String × Value :=
  ("." ++ Css.escape (stepName step.1), .object [("opacity", .string step.2.css)])

theorem stepName_nonempty (key : String) : stepName key ≠ "" := by
  intro none
  have chars := congrArg String.toList none
  rw [stepName, String.toList_append] at chars
  cases chars

theorem stepName_isStepName (key : String) (steps : Css.IsStepName key) :
    Css.IsStepName (stepName key) := Css.isStepName_append _ _ (by decide) steps

theorem stepName_notMem (key : String) (steps : Css.IsStepName key) (c : Char)
    (outside : ¬Css.IsStepChar c) : c ∉ (stepName key).toList := fun member =>
  outside (stepName_isStepName key steps c member)

theorem compileEntry_opacityStyle (step : String × Value) (steps : Css.IsStepName step.1) :
    Styles.compileEntry "" (opacityStyle step).1 (opacityStyle step).2 =
      ⟨[], [opacityRule "" step]⟩ := by
  have property : Property.hyphenated "opacity" = "opacity" := by decide
  have letters : ∀ d ∈ "pacity-".toList, Css.IsStepChar d := by decide
  -- The name starts with a letter, so a key that starts with a digit needs no code.
  have shown : Text.trimEnd (Css.escaped (stepName step.1).toList) =
      Css.escaped (stepName step.1).toList := by
    rw [stepName, String.toList_append]
    exact Css.trimEnd_escaped_step 'o' _ (by decide) (List.forall_mem_append.mpr ⟨letters, steps⟩)
  have selector := Selector.nested_class (stepName step.1) (stepName_nonempty step.1)
    (stepName_notMem step.1 steps '&' (by decide)) shown
  rw [opacityStyle, Styles.compileEntry_class _ _ _ (by decide), selector, property, opacityRule,
    String.append_empty]

theorem compileEntries_opacityStyle (scale : Entries) (steps : ∀ step ∈ scale,
    Css.IsStepName step.1) :
    Styles.compileEntries "" (scale.map opacityStyle) = ⟨[], scale.map (opacityRule "")⟩ := by
  induction scale with
  | nil => rfl
  | cons step scale ih =>
    obtain ⟨first, later⟩ := List.forall_mem_cons.mp steps
    rw [List.map_cons, Styles.compileEntries, compileEntry_opacityStyle step first, ih later]
    rfl

theorem opacityRule_unnamed (name : String) (step : String × Value) :
    AtRule.name? (opacityRule name step).selector = none := by
  apply AtRule.selector_unnamed
  simp [opacityRule, AtRule.isPrelude, AtRule.body?]

theorem prefixAll_opacityRule (name : String) (scale : Entries) :
    Rule.prefixAll name (scale.map (opacityRule "")) = scale.map (opacityRule name) := by
  rw [Rule.prefixAll, Rule.rewriteAll_eq_map, List.map_map]
  refine List.map_congr_left fun step _ => ?_
  have selector := Selector.prefixed_class name (stepName step.1) (stepName_nonempty step.1)
  have unnamed : AtRule.name? ("." ++ "" ++ Css.escape (stepName step.1)) = none :=
    opacityRule_unnamed "" step
  rw [Function.comp_apply, opacityRule, Rule.rewrite_style _ none _ _ _ unnamed,
    String.append_empty]
  change (⟨Selector.prefixed name _, _, _⟩ : Rule) = _
  rw [selector]
  rfl

theorem wrap_opacityRule (name : String) (scale : Entries) (variants : Variants) :
    Group.wrap (scale.map (opacityRule name)) variants =
      ⟨scale.map (opacityRule name), variants⟩ := by
  apply Group.wrap_plain
  rw [List.any_eq_false]
  intro r member
  obtain ⟨step, _, rfl⟩ := List.mem_map.mp member
  rw [Rule.declared?, AtRule.declared?_unnamed (opacityRule_unnamed name step)]
  exact Bool.false_ne_true

theorem opacityClass_injective (key other : String) (steps : Css.IsStepName key)
    (stepsOther : Css.IsStepName other)
    (same : "." ++ Css.escape (stepName key) = "." ++ Css.escape (stepName other)) :
    key = other := by
  have written := congrArg String.toList same
  rw [Selector.toList_class, Selector.toList_class, List.cons.injEq] at written
  have names := Css.escaped_injective _ _ (stepName_notMem key steps '\x00' (by decide))
    (stepName_notMem other stepsOther '\x00' (by decide)) written.2
  rw [stepName, stepName, String.toList_append, String.toList_append] at names
  exact String.toList_inj.mp (List.append_cancel_left names)

theorem opacityStyle_distinct (scale : Entries) (steps : ∀ step ∈ scale, Css.IsStepName step.1)
    (distinct : scale.keys.Nodup) : (Entries.keys (scale.map opacityStyle)).Nodup := by
  have shape : Entries.keys (scale.map opacityStyle) =
      scale.keys.map fun key => "." ++ Css.escape (stepName key) := by
    rw [Entries.keys, Entries.keys, List.map_map, List.map_map]
    rfl
  have named : ∀ key ∈ scale.keys, Css.IsStepName key := List.forall_mem_map.mpr steps
  rw [shape]
  exact distinct.map_on fun key member other memberOther =>
    opacityClass_injective key other (named key member) (named other memberOther)

theorem addOpacity_scale (c : Config) (scale : Entries)
    (found : c.theme? "opacity" = some (.object scale)) :
    addOpacity.calls c = [.utilities (.mapping (Entries.ofList (scale.map opacityStyle)))
      ⟨c.variants? "opacity", true, true⟩] := by
  have read : (Handler.theme "opacity").result c = some (.object scale) := found
  rw [addOpacity, Handler.calls_bind, read]
  change [] ++ (scale.mapM opacityEntry >>= _).calls c = _
  rw [List.nil_append, Handler.calls_bind, opacityEntries_calls, List.nil_append,
    Handler.result_mapM]
  rfl

theorem compile_scale (scale : Entries) (steps : ∀ step ∈ scale, Css.IsStepName step.1) :
    Styles.compile "" (.mapping (scale.map opacityStyle)) = scale.map (opacityRule "") := by
  rw [Styles.compile, Styles.compileMapping, if_pos rfl, compileEntries_opacityStyle scale steps]

def opacityGroup (c : Config) (scale : Entries) : Group :=
  ⟨scale.map (opacityRule c.classPrefix),
    Call.chosenVariants c ⟨c.variants? "opacity", true, true⟩⟩

theorem opacity_groups (c : Config) (scale : Entries)
    (found : c.theme? "opacity" = some (.object scale))
    (steps : ∀ step ∈ scale, Css.IsStepName step.1) (distinct : scale.keys.Nodup)
    (off : c.importance = .off) :
    (opacity.plugin.runOn c .empty).groups .utilities = [opacityGroup c scale] := by
  rw [Plugin.groups_alone]
  change (addOpacity.calls c).filterMap (Call.groupIn? c .utilities) = _
  rw [addOpacity_scale c scale found,
    Entries.ofList_distinct _ (opacityStyle_distinct scale steps distinct),
    List.filterMap_cons, Call.groupIn?]
  simp only [compile_scale scale steps, prefixAll_opacityRule, off, Rule.emphasizeAll,
    wrap_opacityRule, if_true, List.filterMap_nil, opacityGroup]

theorem keywords_groups (c : Config) (b : BuiltIn) (other : b ≠ opacity) :
    ((b.plugin.runOn c .empty).groups .utilities).length = 1 := by
  rw [Plugin.groups_alone]
  cases b with
  | justifyItems => rfl
  | placeSelf => rfl
  | opacity => exact absurd rfl other

theorem length_keywords_groups (c : Config) (bs : List BuiltIn) (others : opacity ∉ bs) :
    (bs.flatMap fun b => (b.plugin.runOn c .empty).groups .utilities).length = bs.length := by
  induction bs with
  | nil => rfl
  | cons b bs ih =>
    have first := keywords_groups c b fun same => others (same ▸ List.mem_cons_self)
    have rest := ih fun member => others (List.mem_cons_of_mem b member)
    rw [List.flatMap_cons, List.length_append, first, rest, List.length_cons, Nat.add_comm]

theorem enabled_opacity (c : Config) (on : c.enables "opacity" = true) :
    ∃ others, opacity ∉ others ∧ enabled c = others ++ [opacity] := by
  have kept : [opacity].filter (fun b => c.enables b.name) = [opacity] :=
    List.filter_cons_of_pos on
  refine ⟨[justifyItems, placeSelf].filter fun b => c.enables b.name, ?_, ?_⟩
  · exact fun member => absurd (List.mem_filter.mp member).1 (by decide)
  · rw [← kept, ← List.filter_append]
    rfl

theorem enabledPlugins_opacity (c : Config) (on : c.enables "opacity" = true) (g : Group)
    (alone : (opacity.plugin.runOn c .empty).groups .utilities = [g]) (more : List Group) :
    (((enabledPlugins c).flatMap fun p => (p.runOn c .empty).groups .utilities) ++
      more)[(enabled c).idxOf opacity]? = some g := by
  -- Opacity is the last of the enabled plugins, and each one before it adds a single group.
  obtain ⟨others, absent, shape⟩ := enabled_opacity c on
  have front := length_keywords_groups c others absent
  rw [enabledPlugins, List.flatMap_map, shape, List.idxOf_append_of_notMem absent,
    List.idxOf_cons_self, Nat.add_zero, List.flatMap_append, List.flatMap_singleton, alone,
    List.append_assoc, ← front, List.getElem?_append_right (Nat.le_refl _), Nat.sub_self]
  rfl

end BuiltIn

namespace Config

theorem theme?_section (c : Config) (key : String) (v : Value) (plain : Path.IsPlainKey key)
    (noPosition : Path.position? key = none)
    (found : c.root.valueAt? ["theme", key] = some v) :
    c.theme? key = some (Theme.normalize key v) := by
  have path : Path.keys key = [key] := Path.keys_plain key plain.1 plain.2.1 plain.2.2
  obtain ⟨theme, present, inside⟩ := Option.bind_eq_some_iff.mp found
  obtain ⟨w, entry, same⟩ := Option.bind_eq_some_iff.mp inside
  cases same
  rw [theme?, path, present, Option.bind_some, Value.descend?,
    Value.child?_of_no_position theme key noPosition, entry]
  rfl

end Config

namespace Run

theorem config_uniqueKeys (user : Value) (ps : List Plugin) (c : Config) (unique : user.UniqueKeys)
    (uniqueConfigs : ∀ p ∈ ps, ∀ v, p.config? = some v → v.UniqueKeys)
    (settled : config ps user = .ok c) : c.root.UniqueKeys := by
  rw [config_of_valid user ps (valid_of_config user ps c settled), configOf] at settled
  refine Config.resolve_uniqueKeys _ c ?_ settled
  have defaults : Config.defaultLayer.UniqueKeys := by decide
  rw [layers, Registration.filterMap_fragment_numbered, List.forall_mem_cons,
    List.forall_mem_append, List.forall_mem_singleton]
  refine ⟨defaults, ?_, unique⟩
  intro v member
  obtain ⟨p, registered, brings⟩ := List.mem_filterMap.mp member
  exact uniqueConfigs p registered v (p.config?_of_fragment v brings)

/-- With importance off, the group of opacity has one rule for each step of the scale in the theme,
in order and under the prefix. The value of a step is written as it is, be it null. -/
theorem opacity_steps_become_rules (user : Value) (ps : List Plugin) (c : Config) (scale : Entries)
    (unique : user.UniqueKeys)
    (uniqueConfigs : ∀ p ∈ ps, ∀ v, p.config? = some v → v.UniqueKeys)
    (settled : config ps user = .ok c) (on : c.enables "opacity" = true)
    (scaled : c.root.valueAt? ["theme", "opacity"] = some (.object scale))
    (steps : ∀ step ∈ scale, Css.IsStepName step.1) (off : c.importance = .off) :
    ∃ report g, build user ps = .ok report ∧
      report.stylesheet.utilities[(BuiltIn.enabled c).idxOf .opacity]? = some g ∧
      g.rules = scale.map (BuiltIn.opacityRule c.classPrefix) := by
  have found : c.theme? "opacity" = some (.object scale) :=
    c.theme?_section "opacity" _ (by decide) (by decide) scaled
  have distinct : scale.keys.Nodup := (Value.uniqueKeys_of_valueAt? _ _ _
    (config_uniqueKeys user ps c unique uniqueConfigs settled) scaled).1
  have alone := BuiltIn.opacity_groups c scale found steps distinct off
  rw [build_eq, settled]
  refine ⟨_, BuiltIn.opacityGroup c scale, rfl, ?_, rfl⟩
  have behind := groups_prepended c ps .utilities
  change Stylesheet.groups _ .utilities = _ at behind
  change (Stylesheet.groups _ .utilities)[_]? = _
  rw [behind]
  exact BuiltIn.enabledPlugins_opacity c on _ alone _

theorem opacity_steps_become_rules_own :
    let plugin := Plugin.configOnly (.object [("theme", .object [("opacity", .null)])])
    let scale : Entries := [("12.5", .string "0.125"), ("1/2", .string "0.5"), ("0", .null),
      ("-x", .number (.integer 1))]
    let user : Value := .object [("prefix", .string "tw-"),
      ("corePlugins", .object [("justifyItems", .bool false)]),
      ("theme", .object [("opacity", .object scale)])]
    ∃ c, config [plugin] user = .ok c ∧ c.enables "opacity" = true ∧ c.importance = .off ∧
      c.root.valueAt? ["theme", "opacity"] = some (.object scale) ∧
      (∀ step ∈ scale, Css.IsStepName step.1) ∧
      ∃ report g, build user [plugin] = .ok report ∧ report.stylesheet.utilities[1]? = some g ∧
        g.rules.map Rule.head =
          [⟨".tw-opacity-12\\.5", [⟨"opacity", "0.125"⟩]⟩,
            ⟨".tw-opacity-1\\/2", [⟨"opacity", "0.5"⟩]⟩, ⟨".tw-opacity-0", [⟨"opacity", "null"⟩]⟩,
            ⟨".tw-opacity--x", [⟨"opacity", "1"⟩]⟩] := by
  intro plugin scale user
  have settled : ∃ c, config [plugin] user = .ok c ∧ c.enables "opacity" = true ∧
      c.importance = .off ∧ c.classPrefix = "tw-" ∧
      c.root.valueAt? ["theme", "opacity"] = some (.object scale) ∧
      (BuiltIn.enabled c).idxOf .opacity = 1 := ⟨_, rfl, rfl, rfl, rfl, rfl, rfl⟩
  obtain ⟨c, settled, on, off, named, scaled, place⟩ := settled
  have unique : user.UniqueKeys := by decide
  have uniqueConfigs : ∀ p ∈ [plugin], ∀ v, p.config? = some v → v.UniqueKeys := by
    intro p member v brought
    obtain rfl := List.mem_singleton.mp member
    cases brought
    decide
  have steps : ∀ step ∈ scale, Css.IsStepName step.1 := by decide
  obtain ⟨report, g, built, found, rules⟩ :=
    opacity_steps_become_rules user [plugin] c scale unique uniqueConfigs settled on scaled steps
      off
  rw [place] at found
  refine ⟨c, settled, on, off, scaled, steps, report, g, built, found, ?_⟩
  rw [rules, named]
  decide +kernel

/-- A step that the user sets to null still has its rule, with the word as the value. -/
theorem null_step_declared :
    let user : Value := .object [("corePlugins", .array [.string "opacity"]),
      ("theme", .object [("opacity", .object [("50", .null)])])]
    let half (rules : List Rule) := (rules.map Rule.head).filter fun h => h.selector = ".opacity-50"
    ((build user []).toOption.bind fun report =>
        report.stylesheet.utilities[0]?.map fun g => half g.rules) =
      some [⟨".opacity-50", [⟨"opacity", "null"⟩]⟩] ∧
      ¬∀ (user : Value) (ps : List Plugin) (c : Config) (scale : Entries), user.UniqueKeys →
        (∀ p ∈ ps, ∀ v, p.config? = some v → v.UniqueKeys) → config ps user = .ok c →
        c.enables "opacity" = true →
        c.root.valueAt? ["theme", "opacity"] = some (.object scale) →
        (∀ step ∈ scale, Css.IsStepName step.1 ∧ step.2.kind ∈ [.string, .number, .null]) →
        (c.classPrefix = "" ∨ ∃ first others, c.classPrefix = String.ofList (first :: others) ∧
          Css.isAsciiLetter first = true ∧
          ∀ d ∈ others, Css.isAsciiLetter d = true ∨ Css.isAsciiDigit d = true ∨ d = '-') →
        c.importance = .off →
        ∃ report g, build user ps = .ok report ∧
          report.stylesheet.utilities[(BuiltIn.enabled c).idxOf .opacity]? = some g ∧
          g.rules = (scale.filter fun step => step.2.kind ≠ .null).map
            (BuiltIn.opacityRule c.classPrefix) := by
  intro user half
  have made : ((build user []).toOption.bind fun report =>
      report.stylesheet.utilities[0]?.map fun g => half g.rules) =
        some [⟨".opacity-50", [⟨"opacity", "null"⟩]⟩] := by
    decide +kernel
  refine ⟨made, fun every => ?_⟩
  have settled : ∃ c scale, config [] user = .ok c ∧ c.enables "opacity" = true ∧
      c.root.valueAt? ["theme", "opacity"] = some (.object scale) ∧
      (∀ step ∈ scale, Css.IsStepName step.1 ∧ step.2.kind ∈ [.string, .number, .null]) ∧
      c.classPrefix = "" ∧ c.importance = .off ∧ (BuiltIn.enabled c).idxOf .opacity = 0 ∧
      half ((scale.filter fun step => step.2.kind ≠ .null).map (BuiltIn.opacityRule "")) = [] :=
    ⟨_, _, rfl, rfl, rfl, by decide, rfl, rfl, rfl, by decide +kernel⟩
  obtain ⟨c, scale, settled, on, scaled, steps, bare, off, place, dropped⟩ := settled
  obtain ⟨report, g, built, found, rules⟩ := every user [] c scale (by decide) (by simp) settled on
    scaled steps (Or.inl bare) off
  rw [place] at found
  rw [built] at made
  change (report.stylesheet.utilities[0]?.map fun g => half g.rules) = _ at made
  rw [found, Option.map_some, rules, bare, dropped] at made
  cases made

end Run

end StyleLayers
