import StyleLayers.Proofs.Plugin.Failing

/-!
Plugins taken apart into their configurations and their handlers. With all configurations in front
of all handlers a run is the same, so how they are paired makes no difference.
-/

namespace StyleLayers

namespace Plugin

def settingsPart (p : Plugin) : Plugin := .configured none p.config?

def handlerPart (p : Plugin) : Plugin := .configured p.handler? none

def parted (ps : List Plugin) : List Plugin := ps.map settingsPart ++ ps.map handlerPart

theorem handlerPart_valid (p : Plugin) : p.handlerPart.Valid := by
  intro v brought
  cases brought

theorem parted_valid (ps : List Plugin) (valid : ∀ p ∈ ps, p.Valid) : ∀ p ∈ parted ps, p.Valid := by
  refine List.forall_mem_append.mpr ⟨?_, ?_⟩
  · intro p member
    obtain ⟨q, inside, rfl⟩ := List.mem_map.mp member
    exact valid q inside
  · intro p member
    obtain ⟨q, _, rfl⟩ := List.mem_map.mp member
    exact q.handlerPart_valid

theorem parted_firstRefused (ps : List Plugin) (index : Nat) (kind : Value.Kind)
    (refused : FirstRefused ps index kind) : FirstRefused (parted ps) index kind := by
  obtain ⟨⟨p, here, kinds⟩, before⟩ := refused
  have inside : index < (ps.map settingsPart).length := by
    rw [List.length_map]
    exact (List.getElem?_eq_some_iff.mp here).1
  constructor
  · refine ⟨p.settingsPart, ?_, kinds⟩
    rw [parted, List.getElem?_append_left inside, List.getElem?_map, here]
    rfl
  · rw [parted, List.take_append_of_le_length (Nat.le_of_lt inside), ← List.map_take]
    intro q member
    obtain ⟨r, earlier, rfl⟩ := List.mem_map.mp member
    exact before r earlier

theorem fragments_parted (ps : List Plugin) :
    (parted ps).filterMap fragment? = ps.filterMap fragment? := by
  have none : (ps.map handlerPart).filterMap fragment? = [] := by
    apply List.filterMap_eq_nil_iff.mpr
    intro q member
    obtain ⟨p, _, rfl⟩ := List.mem_map.mp member
    rfl
  rw [parted, List.filterMap_append, none, List.append_nil, List.filterMap_map]
  rfl

theorem handlers_parted (ps : List Plugin) :
    (parted ps).filterMap handler? = ps.filterMap handler? := by
  have none : (ps.map settingsPart).filterMap handler? = [] := by
    apply List.filterMap_eq_nil_iff.mpr
    intro q member
    obtain ⟨p, _, rfl⟩ := List.mem_map.mp member
    rfl
  rw [parted, List.filterMap_append, none, List.nil_append, List.filterMap_map]
  rfl

theorem foldl_runOn_handlers (c : Config) (ps : List Plugin) (s : Stylesheet) :
    ps.foldl (runOn c) s = (ps.filterMap handler?).foldl (fun s h => h.runOn c s) s := by
  induction ps generalizing s with
  | nil => rfl
  | cons p ps ih =>
    rw [List.foldl_cons, ih, runOn]
    cases has : p.handler? with
    | none => rw [List.filterMap_cons_none has]
    | some h => rw [List.filterMap_cons_some has, List.foldl_cons]

end Plugin

namespace Run

theorem config_parted (ps : List Plugin) (user : Value) :
    config (Plugin.parted ps) user = config ps user := by
  rcases Plugin.valid_or_firstRefused ps with valid | ⟨index, kind, refused⟩
  · rw [config_eq_overlay _ user (Plugin.parted_valid ps valid), config_eq_overlay ps user valid,
      settings, settings, ← Plugin.length_fragments, ← Plugin.length_fragments,
      Plugin.fragments_parted]
  · rw [config_of_firstRefused _ user index kind (Plugin.parted_firstRefused ps index kind refused),
      config_of_firstRefused ps user index kind refused]

theorem stylesheet_handlers (c : Config) (ps : List Plugin) :
    stylesheet c (Registration.numbered 0 ps) =
      (ps.filterMap Plugin.handler?).foldl (fun s h => h.runOn c s) .empty := by
  rw [stylesheet_numbered, Plugin.foldl_runOn_handlers]

/-- Only the order of the configurations and that of the handlers count. With all configurations in
front a run fails with the same error or gives the same stylesheet, and in both every handler is
answered from the one configuration that all plugins make together, those behind it included. -/
theorem run_parted (ps : List Plugin) (user : Value) :
    (run ps user).map Report.stylesheet =
        (run (ps.map Plugin.settingsPart ++ ps.map Plugin.handlerPart) user).map
          Report.stylesheet ∧
      ∀ report, run ps user = .ok report →
        report.stylesheet =
          (ps.filterMap Plugin.handler?).foldl
            (fun s h => h.runOn ⟨(settings ps).overlaid user⟩ s) .empty := by
  constructor
  · change _ = (run (Plugin.parted ps) user).map _
    rw [run_eq, run_eq, config_parted]
    cases config ps user with
    | error e => rfl
    | ok c =>
      have same : stylesheet c (Registration.numbered 0 (Plugin.parted ps)) =
          stylesheet c (Registration.numbered 0 ps) := by
        rw [stylesheet_handlers, stylesheet_handlers, Plugin.handlers_parted]
      exact congrArg Except.ok same.symm
  · intro report made
    obtain ⟨c, settled, rfl⟩ := (run_eq_ok_iff ps user report).mp made
    obtain ⟨_, _, tree⟩ := (config_eq_ok_iff ps user c).mp settled
    rw [tree]
    exact stylesheet_handlers c ps

theorem run_parted_late :
    let reads : Plugin := .function do
      let size ← Handler.themeD "late.size" (.string "missing")
      Handler.addUtilities (.mapping [(".late", .object [("width", size)])])
    let late : Plugin := .configOnly
      (.object [("theme", .object [("late", .object [("size", .string "3rem")])])])
    ∃ report, run [reads, late] .null = .ok report ∧
      (report.stylesheet.utilities.flatMap Group.rules).map Rule.head =
        [⟨".late", [⟨"width", "3rem"⟩]⟩] ∧
      (run ([reads, late].map Plugin.settingsPart ++ [reads, late].map Plugin.handlerPart)
        .null).map Report.stylesheet = .ok report.stylesheet := by
  intro reads late
  obtain ⟨same, answered⟩ := run_parted [reads, late] .null
  have made : ∃ report, run [reads, late] .null = .ok report := ⟨_, rfl⟩
  obtain ⟨report, made⟩ := made
  refine ⟨report, made, ?_, ?_⟩
  · rw [answered report made]
    decide +kernel
  · rw [← same, made]
    rfl

end Run

end StyleLayers
