import StyleLayers.Plugin.Run
import StyleLayers.Proofs.Plugin.Additions

/-!
Building is running with the built-in plugins in front: the same errors, the same configuration, and
the same groups behind those of the built-ins.
-/

namespace StyleLayers

namespace Handler

theorem bind_done {α : Type} (h : Handler α) : h.bind done = h := by
  induction h with
  | done a => rfl
  | add call next ih => rw [bind, ih]
  | ask query next ih =>
    rw [bind]
    congr 1
    funext answer
    exact ih answer

theorem bind_bind {α β γ : Type} (h : Handler α) (f : α → Handler β) (g : β → Handler γ) :
    (h.bind f).bind g = h.bind fun a => (f a).bind g := by
  induction h with
  | done a => rfl
  | add call next ih => rw [bind, bind, bind, ih]
  | ask query next ih =>
    rw [bind, bind, bind]
    congr 1
    funext answer
    exact ih answer

instance : LawfulMonad Handler :=
  LawfulMonad.mk' Handler bind_done (fun _ _ => rfl) bind_bind

theorem calls_bind {α β : Type} (c : Config) (h : Handler α) (f : α → Handler β) :
    (h >>= f).calls c = h.calls c ++ (f (h.result c)).calls c := by
  induction h with
  | done a => rfl
  | add call next ih => exact congrArg (call :: ·) ih
  | ask query next ih => exact ih (query.answer c)

theorem calls_mapM {α β : Type} (c : Config) (f : α → Handler β) (xs : List α) :
    (xs.mapM f).calls c = xs.flatMap fun x => (f x).calls c := by
  induction xs with
  | nil => rfl
  | cons x xs ih =>
    rw [List.mapM_cons, calls_bind, calls_bind, ih, List.flatMap_cons]
    exact congrArg _ (List.append_nil _)

theorem result_bind {α β : Type} (c : Config) (h : Handler α) (f : α → Handler β) :
    (h >>= f).result c = (f (h.result c)).result c := by
  induction h with
  | done a => rfl
  | add call next ih => exact ih
  | ask query next ih => exact ih (query.answer c)

theorem result_mapM {α β : Type} (c : Config) (f : α → Handler β) (xs : List α) :
    (xs.mapM f).result c = xs.map fun x => (f x).result c := by
  induction xs with
  | nil => rfl
  | cons x xs ih =>
    rw [List.mapM_cons, result_bind, result_bind, ih]
    rfl

end Handler

namespace BuiltIn

theorem addKeywords_calls (c : Config) (name property : String) :
    (addKeywords name property).calls c =
      [.utilities (.mapping (keywordUtilities property placements))
        ⟨c.variants? name, true, true⟩] := rfl

theorem opacityEntries_calls (c : Config) (scale : Entries) :
    (scale.mapM opacityEntry).calls c = [] := by
  rw [Handler.calls_mapM]
  exact List.flatMap_eq_nil_iff.mpr fun entry _ => rfl

theorem addOpacity_calls (c : Config) : ∀ call ∈ addOpacity.calls c, call.layer = .utilities := by
  intro call member
  rw [addOpacity, Handler.calls_bind] at member
  have scale : (Handler.theme "opacity").result c = c.theme? "opacity" := rfl
  rcases List.mem_append.mp member with asked | added
  · cases asked
  · rw [scale] at added
    split at added
    · next entries _ =>
      rw [Handler.calls_bind, opacityEntries_calls, List.nil_append] at added
      rw [List.mem_singleton.mp added]
      rfl
    · cases added

theorem handler_calls (c : Config) (b : BuiltIn) :
    ∀ call ∈ b.handler.calls c, call.layer = .utilities := by
  cases b with
  | justifyItems =>
    intro call member
    rw [handler, addKeywords_calls] at member
    rw [List.mem_singleton.mp member]
    rfl
  | placeSelf =>
    intro call member
    rw [handler, addKeywords_calls] at member
    rw [List.mem_singleton.mp member]
    rfl
  | opacity => exact addOpacity_calls c

theorem plugin_valid (b : BuiltIn) : b.plugin.Valid := by
  intro v config
  cases config

def enabledPlugins (c : Config) : List Plugin := (enabled c).map plugin

theorem enabledPlugins_valid (c : Config) : ∀ p ∈ enabledPlugins c, p.Valid := by
  intro p member
  obtain ⟨b, _, rfl⟩ := List.mem_map.mp member
  exact plugin_valid b

theorem enabledPlugins_groups (c : Config) (l : Layer) (other : l ≠ .utilities) :
    ((enabledPlugins c).flatMap fun p => (p.runOn c .empty).groups l) = [] := by
  apply List.flatMap_eq_nil_iff.mpr
  intro p member
  obtain ⟨b, _, rfl⟩ := List.mem_map.mp member
  exact b.handler.groups_elsewhere c .utilities l (handler_calls c b) other

theorem enabledPlugins_none (c : Config) (off : ∀ b : BuiltIn, c.enables b.name = false) :
    enabledPlugins c = [] := by
  have none : enabled c = [] := by
    apply List.filter_eq_nil_iff.mpr
    intro b _
    rw [off b]
    exact Bool.false_ne_true
  rw [enabledPlugins, none]
  rfl

end BuiltIn

namespace Run

theorem valid_of_config (user : Value) (ps : List Plugin) (c : Config)
    (settled : config ps user = .ok c) : ∀ p ∈ ps, p.Valid := by
  rw [config] at settled
  cases checked : Registration.ofPlugins ps with
  | error e =>
    rw [checked] at settled
    cases settled
  | ok rs => exact Registration.valid_of_ofPluginsFrom 0 ps rs checked

theorem config_of_valid (user : Value) (ps : List Plugin) (valid : ∀ p ∈ ps, p.Valid) :
    config ps user = configOf (Registration.numbered 0 ps) user := by
  rw [config, Registration.ofPlugins, Registration.ofPluginsFrom_of_valid 0 ps valid]
  rfl

theorem run_eq (user : Value) (ps : List Plugin) :
    run ps user = (config ps user).map fun c => invoke c (Registration.numbered 0 ps) := by
  cases settled : config ps user with
  | error e =>
    rw [config] at settled
    rw [run]
    cases checked : Registration.ofPlugins ps with
    | error first =>
      rw [checked] at settled
      cases settled
      rfl
    | ok rs =>
      rw [checked] at settled
      change configOf rs user = .error e at settled
      change (do let c ← configOf rs user; .ok (invoke c rs)) = _
      rw [settled]
      rfl
  | ok c =>
    have valid := valid_of_config user ps c settled
    rw [config_of_valid user ps valid] at settled
    rw [run, Registration.ofPlugins, Registration.ofPluginsFrom_of_valid 0 ps valid]
    change (do let c ← configOf _ user; .ok (invoke c _)) = _
    rw [settled]
    rfl

theorem build_eq (user : Value) (ps : List Plugin) :
    build user ps = (config ps user).map fun c =>
      let rs := Registration.numbered 0 (BuiltIn.enabledPlugins c ++ ps)
      ⟨stylesheet c rs, .enabledBuiltIns (BuiltIn.enabled c).length :: log c rs⟩ := by
  rw [build]
  cases settled : config ps user with
  | error e => rfl
  | ok c =>
    have validAll : ∀ p ∈ BuiltIn.enabledPlugins c ++ ps, p.Valid := by
      intro p member
      rcases List.mem_append.mp member with builtIn | given
      · exact BuiltIn.enabledPlugins_valid c p builtIn
      · exact valid_of_config user ps c settled p given
    change (do let report ← withConfig (BuiltIn.enabledPlugins c ++ ps) c; _) = _
    rw [withConfig_of_valid c _ validAll]
    rfl

theorem groups_prepended (c : Config) (ps : List Plugin) (l : Layer) :
    (stylesheet c (Registration.numbered 0 (BuiltIn.enabledPlugins c ++ ps))).groups l =
      ((BuiltIn.enabledPlugins c).flatMap fun p => (p.runOn c .empty).groups l) ++
        (stylesheet c (Registration.numbered 0 ps)).groups l := by
  rw [stylesheet_numbered, stylesheet_numbered, Plugin.groups_foldl_runOn,
    Plugin.groups_foldl_runOn, List.flatMap_append, Stylesheet.groups_empty, List.nil_append,
    List.nil_append]

/-- A build fails when the run fails, with the same error, and otherwise puts the groups of the
enabled built-in plugins in front of the utilities of the run. With none of them enabled it is the
run. -/
theorem build_prepends_builtIns (user : Value) (ps : List Plugin) :
    (∀ e, build user ps = .error e ↔ run ps user = .error e) ∧
      (∀ built ran, build user ps = .ok built → run ps user = .ok ran →
        ∃ c, config ps user = .ok c ∧ built.stylesheet.base = ran.stylesheet.base ∧
          built.stylesheet.components = ran.stylesheet.components ∧
          built.stylesheet.utilities =
            ((BuiltIn.all.filter fun b => c.enables b.name).flatMap fun b =>
              (b.plugin.runOn c .empty).utilities) ++ ran.stylesheet.utilities) ∧
      ∀ c, config ps user = .ok c → (∀ b : BuiltIn, c.enables b.name = false) →
        (build user ps).map Report.stylesheet = (run ps user).map Report.stylesheet := by
  rw [run_eq, build_eq]
  cases settled : config ps user with
  | error e =>
    refine ⟨fun _ => Iff.rfl, ?_, fun _ _ _ => rfl⟩
    intro built ran impossible
    cases impossible
  | ok c =>
    refine ⟨?_, ?_, ?_⟩
    · intro e
      constructor
      · intro impossible
        cases impossible
      · intro impossible
        cases impossible
    · intro built ran same₁ same₂
      cases same₁
      cases same₂
      refine ⟨c, rfl, ?_, ?_, ?_⟩
      · have base := groups_prepended c ps .base
        rwa [BuiltIn.enabledPlugins_groups c .base (by decide), List.nil_append] at base
      · have components := groups_prepended c ps .components
        rwa [BuiltIn.enabledPlugins_groups c .components (by decide), List.nil_append]
          at components
      · have utilities := groups_prepended c ps .utilities
        rwa [BuiltIn.enabledPlugins, List.flatMap_map] at utilities
    · intro other same off
      cases same
      rw [Except.map, Except.map, Except.map, Except.map]
      simp only [BuiltIn.enabledPlugins_none c off, List.nil_append]
      rfl

/-- The utility of a plugin stands behind those of the one built-in plugin that it leaves enabled,
and alone where it leaves none. -/
theorem build_prepends_builtIns_placeSelf :
    let leaving (builtIns : List Value) : Plugin :=
      .create (Handler.addUtilities (.mapping [(".wide", .object [("width", .string "3rem")])]))
        (.object [("corePlugins", .array builtIns)])
    let selectors (groups : List Group) := (groups.flatMap Group.rules).map Rule.selector
    (∃ built ran, build .null [leaving [.string "placeSelf"]] = .ok built ∧
        run [leaving [.string "placeSelf"]] .null = .ok ran ∧
        selectors ran.stylesheet.utilities = [".wide"] ∧
        selectors built.stylesheet.utilities = [".place-self-auto", ".place-self-start",
          ".place-self-end", ".place-self-center", ".place-self-stretch", ".wide"]) ∧
      (∃ c, config [leaving []] .null = .ok c ∧ ∀ b : BuiltIn, c.enables b.name = false) ∧
      (build .null [leaving []]).map Report.stylesheet =
        (run [leaving []] .null).map Report.stylesheet := by
  intro leaving selectors
  refine ⟨?_, ?_⟩
  · obtain ⟨built, madeBuilt⟩ : ∃ built, build .null [leaving [.string "placeSelf"]] = .ok built :=
      ⟨_, rfl⟩
    obtain ⟨ran, madeRan, own⟩ : ∃ ran, run [leaving [.string "placeSelf"]] .null = .ok ran ∧
        selectors ran.stylesheet.utilities = [".wide"] := ⟨_, rfl, by decide +kernel⟩
    obtain ⟨c, settled, front⟩ : ∃ c, config [leaving [.string "placeSelf"]] .null = .ok c ∧
        selectors ((BuiltIn.all.filter fun b => c.enables b.name).flatMap fun b =>
          (b.plugin.runOn c .empty).utilities) = [".place-self-auto", ".place-self-start",
            ".place-self-end", ".place-self-center", ".place-self-stretch"] :=
      ⟨_, rfl, by decide +kernel⟩
    obtain ⟨d, again, _, _, utilities⟩ :=
      (build_prepends_builtIns .null [leaving [.string "placeSelf"]]).2.1 built ran madeBuilt
        madeRan
    obtain rfl : c = d := Except.ok.inj (settled.symm.trans again)
    refine ⟨built, ran, madeBuilt, madeRan, own, ?_⟩
    have joined (front back : List Group) :
        selectors (front ++ back) = selectors front ++ selectors back := by simp [selectors]
    rw [utilities, joined, front, own]
    rfl
  · obtain ⟨c, settled, off⟩ : ∃ c, config [leaving []] .null = .ok c ∧
        ∀ b : BuiltIn, c.enables b.name = false := by
      refine ⟨_, rfl, ?_⟩
      intro b
      cases b with
      | justifyItems => rfl
      | placeSelf => rfl
      | opacity => rfl
    exact ⟨⟨c, settled, off⟩, (build_prepends_builtIns .null [leaving []]).2.2 c settled off⟩

end Run

end StyleLayers
