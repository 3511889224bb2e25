import Mathlib.Data.List.Basic
import StyleLayers.Proofs.Config.Apart
import StyleLayers.Proofs.Plugin.Reading
import StyleLayers.Proofs.Plugin.Settling

/-!
How far settings reach. The setting of importance reaches the utilities only, as long as handlers
make no styles of it themselves, and no setting at all reaches base styles that are given outright.
-/

namespace StyleLayers

section Importance

variable {c d : Config}

theorem Query.answer_congr (same : c.SameBut "important" d) (q : Query) (styling : q.IsStyling) :
    q.answer c = q.answer d := by
  cases q with
  | theme path => exact same.theme? (by decide) path
  | themeD path fallback =>
    rw [answer, answer, Config.themeD, Config.themeD, same.theme? (by decide) path]
  | variants key => exact same.variants? (by decide) key
  | prefixed selector => rw [answer, answer, same.classPrefix (by decide)]
  | escaped text => rfl
  | config path => cases styling
  | configD path fallback => cases styling
  | enables name => cases styling

theorem Handler.Styled.calls_congr {α : Type} {h : Handler α} (styled : h.Styled)
    (same : c.SameBut "important" d) : h.calls c = h.calls d := by
  induction styled with
  | done result => rfl
  | add call next _ ih => rw [calls, calls, ih]
  | read query next styling _ ih =>
    rw [calls, calls, ih, Query.answer_congr same query styling]
  | idle query next _ unused ih =>
    calc (next (query.answer c)).calls c = (next (query.answer c)).calls d := ih _
      _ = (next (query.answer d)).calls d := unused d _ _

theorem Call.groupIn?_congr (same : c.SameBut "important" d) (l : Layer) (lower : l ≠ .utilities)
    (call : Call) : call.groupIn? c l = call.groupIn? d l := by
  have chosen (t : Treatment) : chosenVariants c t = chosenVariants d t := by
    rw [chosenVariants, chosenVariants, same.globalVariants? (by decide)]
  cases call with
  | base styles => cases l <;> rfl
  | components styles t =>
    cases l with
    | components => rw [groupIn?, groupIn?, chosen t, same.classPrefix (by decide)]
    | _ => rfl
  | utilities styles t =>
    cases l with
    | utilities => exact absurd rfl lower
    | _ => rfl

end Importance

theorem Handler.AddsBase.groups {α : Type} {h : Handler α} {ss : List Styles}
    (adds : h.AddsBase ss) (c : Config) :
    (h.calls c).filterMap (Call.groupIn? c .base) =
      ss.map fun styles => ⟨styles.compile "", .empty⟩ := by
  induction adds with
  | done result => rfl
  | base styles next rest _ ih =>
    rw [calls, List.filterMap_cons, ih, List.map_cons]
    rfl
  | other call next rest elsewhere _ ih =>
    have absent : call.groupIn? c .base = none := by rw [Call.groupIn?_eq, if_neg elsewhere]
    rw [calls, List.filterMap_cons_none absent, ih]
  | ask query next rest _ ih => exact ih (query.answer c)

theorem Call.base_variants (c : Config) (call : Call) (g : Group)
    (added : call.groupIn? c .base = some g) : g.variants = .empty := by
  cases call with
  | base styles =>
    cases added
    rfl
  | _ => cases added

namespace Plugin

theorem groups_alone (c : Config) (p : Plugin) (l : Layer) :
    (p.runOn c .empty).groups l =
      (p.handler?.map fun h => (h.calls c).filterMap (Call.groupIn? c l)).getD [] := by
  rw [runOn]
  cases p.handler? with
  | none => exact Stylesheet.groups_empty l
  | some h =>
    change (h.runOn c .empty).groups l = _
    rw [Handler.groups_runOn, Stylesheet.groups_empty]
    rfl

theorem groups_congr {c d : Config} (same : c.SameBut "important" d) (p : Plugin)
    (styled : ∀ h, p.handler? = some h → h.Styled) (l : Layer) (lower : l ≠ .utilities) :
    (p.runOn c .empty).groups l = (p.runOn d .empty).groups l := by
  rw [groups_alone, groups_alone]
  cases handled : p.handler? with
  | none => rw [Option.map_none, Option.map_none]
  | some h =>
    have calls := (styled h handled).calls_congr same
    have groups : Call.groupIn? c l = Call.groupIn? d l :=
      funext (Call.groupIn?_congr same l lower)
    rw [Option.map_some, Option.map_some, calls, groups]

theorem base_congr (c d : Config) (p : Plugin)
    (adds : ∀ h, p.handler? = some h → ∃ ss, h.AddsBase ss) :
    (p.runOn c .empty).groups .base = (p.runOn d .empty).groups .base := by
  rw [groups_alone, groups_alone]
  cases handled : p.handler? with
  | none => rw [Option.map_none, Option.map_none]
  | some h =>
    obtain ⟨ss, given⟩ := adds h handled
    rw [Option.map_some, Option.map_some, given.groups c, given.groups d]

theorem base_variants (c : Config) (p : Plugin) (g : Group)
    (added : g ∈ (p.runOn c .empty).groups .base) : g.variants = .empty := by
  rw [groups_alone] at added
  cases handled : p.handler? with
  | none =>
    rw [handled] at added
    cases added
  | some h =>
    rw [handled] at added
    obtain ⟨call, _, grouped⟩ := List.mem_filterMap.mp added
    exact Call.base_variants c call g grouped

end Plugin

namespace Run

theorem groups_invoke_congr (c d : Config) (ps : List Plugin) (l : Layer)
    (alike : ∀ p ∈ ps, (p.runOn c .empty).groups l = (p.runOn d .empty).groups l) :
    (invoke c (Registration.numbered 0 ps)).stylesheet.groups l =
      (invoke d (Registration.numbered 0 ps)).stylesheet.groups l := by
  rw [groups_invoke, groups_invoke]
  exact List.flatMap_congr alike

theorem base_bare (c : Config) (ps : List Plugin) :
    ∀ g ∈ (invoke c (Registration.numbered 0 ps)).stylesheet.base, g.variants = .empty := by
  intro g added
  change g ∈ (invoke c (Registration.numbered 0 ps)).stylesheet.groups .base at added
  rw [groups_invoke] at added
  obtain ⟨p, _, grouped⟩ := List.mem_flatMap.mp added
  exact p.base_variants c g grouped

theorem settings_object (ps : List Plugin) : ∃ lower : Entries, settings ps = .object lower := by
  obtain ⟨lower, laid, _⟩ :=
    Value.foldl_overlaid_object (ps.filterMap Plugin.fragment?) Defaults.entries
  exact ⟨lower, laid⟩

theorem config_sameBut (ps : List Plugin) (u v : Value) (c d : Config)
    (settledFirst : config ps u = .ok c) (settledSecond : config ps v = .ok d)
    (agree : Entries.without "important" (u.entries?.getD []) =
      Entries.without "important" (v.entries?.getD [])) : c.SameBut "important" d := by
  obtain ⟨_, acceptedFirst, treeFirst⟩ := (config_eq_ok_iff ps u c).mp settledFirst
  obtain ⟨_, acceptedSecond, treeSecond⟩ := (config_eq_ok_iff ps v d).mp settledSecond
  obtain ⟨lower, tree⟩ := settings_object ps
  have differ := Config.sameBut_overlaid lower u v "important" acceptedFirst acceptedSecond
    (by decide) agree
  rwa [← tree, treeFirst, treeSecond] at differ

/-- Users that differ in importance only get the same base and the same components. All users get
the same base from handlers whose base styles are given, and no group of the base has variants. -/
theorem importance_reaches_utilities_only (ps : List Plugin) (u v : Value) (first second : Report)
    (ranFirst : run ps u = .ok first) (ranSecond : run ps v = .ok second) :
    ((∀ p ∈ ps, ∀ h, p.handler? = some h → h.Styled) →
        Entries.without "important" (u.entries?.getD []) =
          Entries.without "important" (v.entries?.getD []) →
        first.stylesheet.base = second.stylesheet.base ∧
          first.stylesheet.components = second.stylesheet.components) ∧
      ((∀ p ∈ ps, ∀ h, p.handler? = some h → ∃ ss, h.AddsBase ss) →
        first.stylesheet.base = second.stylesheet.base) ∧
      ∀ g ∈ first.stylesheet.base ++ second.stylesheet.base, g.variants = .empty := by
  obtain ⟨c, settledFirst, rfl⟩ := (run_eq_ok_iff ps u first).mp ranFirst
  obtain ⟨d, settledSecond, rfl⟩ := (run_eq_ok_iff ps v second).mp ranSecond
  refine ⟨?_, ?_, ?_⟩
  · intro styled agree
    have same := config_sameBut ps u v c d settledFirst settledSecond agree
    have layer (l : Layer) (lower : l ≠ .utilities) :
        (invoke c (Registration.numbered 0 ps)).stylesheet.groups l =
          (invoke d (Registration.numbered 0 ps)).stylesheet.groups l := by
      apply groups_invoke_congr
      intro p member
      exact p.groups_congr same (styled p member) l lower
    exact ⟨layer .base (by decide), layer .components (by decide)⟩
  · intro adds
    apply groups_invoke_congr c d ps .base
    intro p member
    exact p.base_congr c d (adds p member)
  · exact List.forall_mem_append.mpr ⟨base_bare c ps, base_bare d ps⟩

theorem importance_reaches_utilities_only_scripts :
    let heading : Rule := ⟨"h1", [⟨"margin", "0"⟩], []⟩
    let scale : Value := .object [("s", .string "1px"), ("m", .string "2px")]
    let steps : List Step := [.addBase (.rule heading), .config "important", .theme "size",
      .addComponents (.rule ⟨".box", [⟨"width", "1px"⟩], []⟩) (.variantsOf "size"),
      .themeUtilities "size" "wide" "width"]
    let ps := [Plugin.function (Script.plugin [.addUtilities (.rule heading) (.given {})]),
      Plugin.create (Script.plugin steps)
        (.object [("important", .string "#site"), ("theme", .object [("size", scale)])])]
    let u : Value := .object [("prefix", .string "tw-"), ("important", .bool true)]
    let v : Value := .object [("important", .string "#app"), ("prefix", .string "tw-")]
    let w : Value := .object [("variants", .array [.string "hover"])]
    (∀ p ∈ ps, ∀ h, p.handler? = some h → h.Styled ∧ ∃ ss, h.AddsBase ss) ∧
      ∃ first second third, run ps u = .ok first ∧ run ps v = .ok second ∧ run ps w = .ok third ∧
        first.stylesheet.base = second.stylesheet.base ∧
        first.stylesheet.components = second.stylesheet.components ∧
        first.stylesheet.base = third.stylesheet.base ∧
        ∀ g ∈ third.stylesheet.base, g.variants = .empty := by
  intro heading scale steps ps u v w
  have scripted : ∀ p ∈ ps, ∀ h, p.handler? = some h → h.Styled ∧ ∃ ss, h.AddsBase ss := by
    intro p member h handled
    rcases List.mem_cons.mp member with rfl | member
    · cases handled
      exact ⟨Script.plugin_styled _, _, Script.plugin_addsBase _⟩
    · obtain rfl := List.mem_singleton.mp member
      cases handled
      exact ⟨Script.plugin_styled steps, _, Script.plugin_addsBase steps⟩
  have valid : ∀ p ∈ ps, p.Valid := by
    intro p member v brought
    rcases List.mem_cons.mp member with rfl | member
    · cases brought
    · obtain rfl := List.mem_singleton.mp member
      cases brought
      exact Or.inr ⟨_, rfl⟩
  obtain ⟨first, ranFirst⟩ := run_accepts ps u valid (Or.inr ⟨_, rfl⟩)
  obtain ⟨second, ranSecond⟩ := run_accepts ps v valid (Or.inr ⟨_, rfl⟩)
  obtain ⟨third, ranThird⟩ := run_accepts ps w valid (Or.inr ⟨_, rfl⟩)
  obtain ⟨important, _⟩ :=
    importance_reaches_utilities_only ps u v first second ranFirst ranSecond
  obtain ⟨_, any, bare⟩ := importance_reaches_utilities_only ps u w first third ranFirst ranThird
  obtain ⟨base, components⟩ :=
    important (fun p member h handled => (scripted p member h handled).1) rfl
  exact ⟨scripted, first, second, third, ranFirst, ranSecond, ranThird, base, components,
    any fun p member h handled => (scripted p member h handled).2,
    fun g added => bare g (List.mem_append_right _ added)⟩

end Run

end StyleLayers
