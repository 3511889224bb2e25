import StyleLayers.Proofs.Config.Repeating
import StyleLayers.Proofs.Plugin.Building

/-!
The configuration that a run settles before its handlers. It is the user's laid over what defaults
and plugins make together; a plugin that comes twice in a row counts there once.
-/

namespace StyleLayers

theorem Plugin.fragment?_isSettings (p : Plugin) (v : Value) (brings : p.fragment? = some v) :
    v.IsSettings := by
  rw [fragment?] at brings
  split at brings
  · next entries _ =>
    cases brings
    exact Or.inr ⟨entries, rfl⟩
  · cases brings

theorem Plugin.config?_of_fragment (p : Plugin) (v : Value) (brings : p.fragment? = some v) :
    p.config? = some v := by
  rw [fragment?] at brings
  split at brings
  · next entries shape =>
    cases brings
    exact shape
  · cases brings

theorem Registration.filterMap_fragment_numbered (index : Nat) (ps : List Plugin) :
    (numbered index ps).filterMap fragment = ps.filterMap Plugin.fragment? := by
  induction ps generalizing index with
  | nil => rfl
  | cons p ps ih => rw [numbered, List.filterMap_cons, List.filterMap_cons, ih]

namespace Run

/-- What the user's configuration is laid over: the defaults under those of the plugins. -/
def settings (ps : List Plugin) : Value :=
  (ps.filterMap Plugin.fragment?).foldl Value.overlaid Config.defaultLayer

theorem settings_append (ps qs : List Plugin) :
    settings (ps ++ qs) = (qs.filterMap Plugin.fragment?).foldl Value.overlaid (settings ps) := by
  rw [settings, List.filterMap_append, List.foldl_append]
  rfl

theorem defaults_overlaid : (Value.object []).overlaid Config.defaultLayer = Config.defaultLayer :=
  rfl

theorem config_eq_ok_iff (ps : List Plugin) (user : Value) (c : Config) :
    config ps user = .ok c ↔
      (∀ p ∈ ps, p.Valid) ∧ user.IsSettings ∧ (settings ps).overlaid user = c.root := by
  have fragments : ∀ v ∈ ps.filterMap Plugin.fragment?, v.IsSettings := by
    intro v member
    obtain ⟨p, _, brings⟩ := List.mem_filterMap.mp member
    exact p.fragment?_isSettings v brings
  have settled : (∀ p ∈ ps, p.Valid) →
      (config ps user = .ok c ↔ user.IsSettings ∧ (settings ps).overlaid user = c.root) := by
    intro valid
    rw [config_of_valid user ps valid, configOf, Config.resolve_eq_ok_iff, layers,
      Registration.filterMap_fragment_numbered, List.forall_mem_cons, List.forall_mem_append,
      List.forall_mem_singleton, List.foldl_cons, List.foldl_append, defaults_overlaid]
    constructor
    · rintro ⟨⟨_, _, accepted⟩, tree⟩
      exact ⟨accepted, tree⟩
    · rintro ⟨accepted, tree⟩
      exact ⟨⟨Or.inr ⟨_, rfl⟩, fragments, accepted⟩, tree⟩
  constructor
  · intro made
    have valid := valid_of_config user ps c made
    exact ⟨valid, (settled valid).mp made⟩
  · rintro ⟨valid, rest⟩
    exact (settled valid).mpr rest

theorem run_eq_ok_iff (ps : List Plugin) (user : Value) (report : Report) :
    run ps user = .ok report ↔
      ∃ c, config ps user = .ok c ∧ invoke c (Registration.numbered 0 ps) = report := by
  rw [run_eq]
  cases config ps user with
  | error e =>
    constructor
    · intro impossible
      cases impossible
    · rintro ⟨c, impossible, _⟩
      cases impossible
  | ok c =>
    constructor
    · intro made
      cases made
      exact ⟨c, rfl, rfl⟩
    · rintro ⟨_, same, rfl⟩
      cases same
      rfl

theorem run_accepts (ps : List Plugin) (user : Value) (valid : ∀ p ∈ ps, p.Valid)
    (accepted : user.IsSettings) : ∃ report, run ps user = .ok report := by
  have settled : config ps user = .ok ⟨(settings ps).overlaid user⟩ :=
    (config_eq_ok_iff ps user _).mpr ⟨valid, accepted, rfl⟩
  exact ⟨_, (run_eq_ok_iff ps user _).mpr ⟨_, settled, rfl⟩⟩

theorem groups_invoke (c : Config) (ps : List Plugin) (l : Layer) :
    (invoke c (Registration.numbered 0 ps)).stylesheet.groups l =
      ps.flatMap fun p => (p.runOn c .empty).groups l := by
  rw [invoke, stylesheet_numbered, Plugin.groups_foldl_runOn, Stylesheet.groups_empty,
    List.nil_append]

theorem groups_invoke_append (c : Config) (ps qs : List Plugin) (l : Layer) :
    (invoke c (Registration.numbered 0 (ps ++ qs))).stylesheet.groups l =
      (invoke c (Registration.numbered 0 ps)).stylesheet.groups l ++
        (invoke c (Registration.numbered 0 qs)).stylesheet.groups l := by
  rw [groups_invoke, groups_invoke, groups_invoke, List.flatMap_append]

theorem settings_repeated (ps qs : List Plugin) (p : Plugin)
    (unique : ∀ v, p.config? = some v → v.UniqueKeys) :
    settings (ps ++ p :: p :: qs) = settings (ps ++ p :: qs) := by
  rw [settings_append, settings_append]
  cases brings : p.fragment? with
  | none => rw [List.filterMap_cons_none brings, List.filterMap_cons_none brings]
  | some v =>
    have brought : p.config? = some v := p.config?_of_fragment v brings
    rw [List.filterMap_cons_some brings, List.filterMap_cons_some brings, List.foldl_cons,
      List.foldl_cons, Value.overlaid_overlaid _ v (unique v brought), List.foldl_cons]

/-- A layer on top of itself changes nothing, and so neither does a plugin that is registered twice
in a row, wherever it stands. -/
theorem resolve_repeated (layers : List Value) (layer : Entries) (c₀ : Config)
    (unique : (Value.object layer).UniqueKeys) (resolved : Config.resolve layers = .ok c₀) :
    (∃ c, Config.resolve (layers ++ [.object layer]) = .ok c ∧
        Config.resolve (layers ++ [.object layer, .object layer]) = .ok c ∧
        c.root = c₀.root.overrideLayer layer) ∧
      ∀ (ps qs : List Plugin) (p : Plugin), p.config? = some (.object layer) →
        ∀ (user : Value) (c : Config),
          config (ps ++ p :: p :: qs) user = .ok c ↔ config (ps ++ p :: qs) user = .ok c := by
  obtain ⟨accepted, tree⟩ := (Config.resolve_eq_ok_iff layers c₀).mp resolved
  have mapping : (Value.object layer).IsSettings := Or.inr ⟨layer, rfl⟩
  refine ⟨⟨⟨c₀.root.overrideLayer layer⟩, ?_, ?_, rfl⟩, ?_⟩
  · apply (Config.resolve_eq_ok_iff _ _).mpr
    constructor
    · exact List.forall_mem_append.mpr ⟨accepted, List.forall_mem_singleton.mpr mapping⟩
    · rw [List.foldl_append, tree]
      rfl
  · apply (Config.resolve_eq_ok_iff _ _).mpr
    constructor
    · have both : ∀ v ∈ [Value.object layer, .object layer], v.IsSettings :=
        List.forall_mem_cons.mpr ⟨mapping, List.forall_mem_singleton.mpr mapping⟩
      exact List.forall_mem_append.mpr ⟨accepted, both⟩
    · rw [List.foldl_append, tree]
      exact Value.overrideLayer_overrideLayer c₀.root layer unique
  · intro ps qs p brings user c
    have uniqueConfig : ∀ v, p.config? = some v → v.UniqueKeys := by
      intro v brought
      rw [brings] at brought
      cases brought
      exact unique
    have members : (∀ q ∈ ps ++ p :: p :: qs, q.Valid) ↔ ∀ q ∈ ps ++ p :: qs, q.Valid := by
      simp only [List.forall_mem_append, List.forall_mem_cons, and_self_left]
    rw [config_eq_ok_iff, config_eq_ok_iff, settings_repeated ps qs p uniqueConfig, members]

theorem resolve_repeated_edits :
    let flat : Value := .object [("prefix", .string "a"),
      ("variants", .array [.string "hover", .string "focus"])]
    let names (key : String) (ns : List String) := (key, Value.array (ns.map .string))
    let layer : Entries := [("theme", .object [("screens", .object [("sm", .string "1px")])]),
      ("variants", .object [
        ("opacity", .object [names "before" ["first", "focus"], ("anchor", .string "first")]),
        ("float", .object [names "after" ["active"], ("anchor", .string "hover")]),
        ("order", .object [names "extend" ["last", "hover"]]),
        ("size", .object [names "without" ["hover"]]),
        ("cursor", .object [names "extend" ["last"], names "without" ["hover"]])])]
    (Value.object layer).UniqueKeys ∧
      (∃ c₀, Config.resolve [.null, flat] = .ok c₀ ∧
        ∃ c, Config.resolve [.null, flat, .object layer] = .ok c ∧
          Config.resolve [.null, flat, .object layer, .object layer] = .ok c ∧
          c.root = c₀.root.overrideLayer layer ∧
          c.root.inheritedVariants "opacity" = Variants.ofList ["first", "hover", "focus"] ∧
          c.root.inheritedVariants "float" = Variants.ofList ["hover", "active", "focus"] ∧
          c.root.inheritedVariants "order" = Variants.ofList ["hover", "focus", "last"] ∧
          c.root.inheritedVariants "size" = Variants.ofList ["focus"]) ∧
      ∃ c, config [.configOnly (.object layer)] .null = .ok c ∧
        config [.configOnly (.object layer), .configOnly (.object layer)] .null = .ok c := by
  intro flat names layer
  have unique : (Value.object layer).UniqueKeys := by decide
  have resolved : ∃ c₀, Config.resolve [.null, flat] = .ok c₀ := ⟨_, rfl⟩
  obtain ⟨c₀, below⟩ := resolved
  obtain ⟨⟨c, once, twice, tree⟩, registered⟩ := resolve_repeated _ layer c₀ unique below
  have settled : ∃ made, config [.configOnly (.object layer)] .null = .ok made := ⟨_, rfl⟩
  obtain ⟨made, single⟩ := settled
  refine ⟨unique, ⟨c₀, below, c, once, twice, tree, ?_⟩, made, single,
    (registered [] [] _ rfl .null made).mpr single⟩
  cases once
  exact ⟨rfl, rfl, rfl, rfl⟩

end Run

end StyleLayers
