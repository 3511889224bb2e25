import StyleLayers.Proofs.Plugin.Settling

/-!
When running fails: at the first plugin whose configuration is refused, and if there is none at the
user's configuration. All of that is found out before the first handler takes a step.
-/

namespace StyleLayers

namespace Plugin

/-- The plugin brings a value of this kind as its configuration, no mapping and not null. -/
def Refused (p : Plugin) (kind : Value.Kind) : Prop :=
  ∃ v, p.config? = some v ∧ v.kind = kind ∧ kind ≠ .null ∧ kind ≠ .mapping

/-- The plugin at `index` is refused, and none in front of it. -/
def FirstRefused (ps : List Plugin) (index : Nat) (kind : Value.Kind) : Prop :=
  (∃ p, ps[index]? = some p ∧ p.Refused kind) ∧ ∀ q ∈ ps.take index, q.Valid

theorem firstRefused_nil (index : Nat) (kind : Value.Kind) : ¬FirstRefused [] index kind := by
  rintro ⟨⟨p, here, _⟩, _⟩
  cases here

theorem firstRefused_cons (p : Plugin) (ps : List Plugin) (index : Nat) (kind : Value.Kind) :
    FirstRefused (p :: ps) index kind ↔
      (index = 0 ∧ p.Refused kind) ∨ (p.Valid ∧ ∃ i, index = i + 1 ∧ FirstRefused ps i kind) := by
  cases index with
  | zero => simp [FirstRefused]
  | succ i =>
    simp only [FirstRefused, List.getElem?_cons_succ, List.take_succ_cons, List.forall_mem_cons]
    constructor
    · rintro ⟨here, valid, before⟩
      exact Or.inr ⟨valid, i, rfl, here, before⟩
    · rintro (⟨impossible, _⟩ | ⟨valid, j, same, here, before⟩)
      · cases impossible
      · cases same
        exact ⟨here, valid, before⟩

theorem valid_or_refused (p : Plugin) : p.Valid ∨ ∃ kind, p.Refused kind := by
  by_cases valid : p.Valid
  · exact Or.inl valid
  · rw [Valid, not_forall] at valid
    obtain ⟨v, valid⟩ := valid
    rw [Classical.not_imp, not_or] at valid
    obtain ⟨brought, notNull, notMapping⟩ := valid
    refine Or.inr ⟨v.kind, v, brought, rfl, ?_⟩
    cases v with
    | null => exact absurd rfl notNull
    | object entries => exact absurd ⟨entries, rfl⟩ notMapping
    | _ => exact ⟨nofun, nofun⟩

theorem valid_or_firstRefused (ps : List Plugin) :
    (∀ p ∈ ps, p.Valid) ∨ ∃ index kind, FirstRefused ps index kind := by
  induction ps with
  | nil => exact Or.inl (List.forall_mem_nil _)
  | cons p ps ih =>
    rcases p.valid_or_refused with valid | ⟨kind, refused⟩
    · rcases ih with others | ⟨index, kind, later⟩
      · exact Or.inl (List.forall_mem_cons.mpr ⟨valid, others⟩)
      · exact Or.inr ⟨index + 1, kind, (firstRefused_cons p ps _ kind).mpr
          (Or.inr ⟨valid, index, rfl, later⟩)⟩
    · exact Or.inr ⟨0, kind, (firstRefused_cons p ps 0 kind).mpr (Or.inl ⟨rfl, refused⟩)⟩

end Plugin

namespace Registration

theorem ofPlugin_of_refused (index : Nat) (p : Plugin) (kind : Value.Kind)
    (refused : p.Refused kind) : ofPlugin index p = .error (.invalidPlugin index kind) := by
  obtain ⟨v, brought, rfl, notNull, notMapping⟩ := refused
  rw [ofPlugin, brought]
  cases v with
  | null => exact absurd rfl notNull
  | object entries => exact absurd rfl notMapping
  | _ => rfl

theorem ofPluginsFrom_of_firstRefused (start index : Nat) (ps : List Plugin) (kind : Value.Kind)
    (refused : Plugin.FirstRefused ps index kind) :
    ofPluginsFrom start ps = .error (.invalidPlugin (start + index) kind) := by
  induction ps generalizing start index with
  | nil => exact absurd refused (Plugin.firstRefused_nil index kind)
  | cons p ps ih =>
    rcases (Plugin.firstRefused_cons p ps index kind).mp refused with
      ⟨rfl, here⟩ | ⟨valid, i, rfl, later⟩
    · rw [ofPluginsFrom, ofPlugin_of_refused start p kind here]
      rfl
    · rw [ofPluginsFrom, ofPlugin_of_valid start p valid, ih (start + 1) i later,
        Nat.add_right_comm, ← Nat.add_assoc]
      rfl

theorem eq_numbered (ps : List Plugin) (rs : List Registration) (checked : ofPlugins ps = .ok rs) :
    rs = numbered 0 ps := by
  have valid := valid_of_ofPluginsFrom 0 ps rs checked
  rw [ofPlugins, ofPluginsFrom_of_valid 0 ps valid] at checked
  cases checked
  rfl

end Registration

namespace Config

theorem overlay_eq_error_iff (below layer : Value) (index : Nat) (e : ConfigError) :
    overlay below index layer = .error e ↔
      e = .invalidLayer index layer.kind ∧ layer.kind ≠ .null ∧ layer.kind ≠ .mapping := by
  cases layer <;> simp [overlay, Value.kind, eq_comm]

theorem resolveFrom_concat (layers : List Value) (below top : Value) (index : Nat)
    (settings : ∀ layer ∈ layers, layer.IsSettings) :
    resolveFrom below index (layers ++ [top]) =
      overlay (layers.foldl Value.overlaid below) (index + layers.length) top := by
  induction layers generalizing below index with
  | nil =>
    change (do resolveFrom (← overlay below index top) (index + 1) []) = _
    rw [List.foldl_nil, List.length_nil, Nat.add_zero]
    cases overlay below index top <;> rfl
  | cons layer layers ih =>
    obtain ⟨first, others⟩ := List.forall_mem_cons.mp settings
    have laid := (overlay_eq_ok_iff below layer _ index).mpr ⟨first, rfl⟩
    rw [List.cons_append, resolveFrom, laid, List.foldl_cons, List.length_cons, ← Nat.add_assoc,
      Nat.add_right_comm]
    exact ih (below.overlaid layer) (index + 1) others

end Config

namespace Plugin

def layerCount (ps : List Plugin) : Nat :=
  ps.countP fun p => p.config?.map Value.kind = some .mapping

theorem length_fragments (ps : List Plugin) : (ps.filterMap fragment?).length = layerCount ps := by
  induction ps with
  | nil => rfl
  | cons p ps ih =>
    rw [layerCount, List.countP_cons, List.filterMap_cons, ← layerCount, ← ih, fragment?]
    rcases p.config? with _ | (_ | _ | _ | _ | _ | entries) <;> rfl

end Plugin

namespace Run

/-- The error of running these plugins over the user's configuration. The plugins come before the
user, and the layer of the user after the defaults and one layer for each mapping of a plugin. -/
def Failure (ps : List Plugin) (user : Value) : ConfigError → Prop
  | .invalidPlugin index kind => Plugin.FirstRefused ps index kind
  | .invalidLayer index kind => (∀ p ∈ ps, p.Valid) ∧ index = 1 + Plugin.layerCount ps ∧
      user.kind = kind ∧ kind ≠ .null ∧ kind ≠ .mapping
  | .unreadableText _ => False

theorem config_of_firstRefused (ps : List Plugin) (user : Value) (index : Nat) (kind : Value.Kind)
    (refused : Plugin.FirstRefused ps index kind) :
    config ps user = .error (.invalidPlugin index kind) := by
  rw [config, Registration.ofPlugins,
    Registration.ofPluginsFrom_of_firstRefused 0 index ps kind refused, Nat.zero_add]
  rfl

theorem config_eq_overlay (ps : List Plugin) (user : Value) (valid : ∀ p ∈ ps, p.Valid) :
    config ps user =
      (Config.overlay (settings ps) (1 + Plugin.layerCount ps) user).map Config.mk := by
  have fragments : ∀ v ∈ Config.defaultLayer :: ps.filterMap Plugin.fragment?, v.IsSettings := by
    refine List.forall_mem_cons.mpr ⟨Or.inr ⟨_, rfl⟩, ?_⟩
    intro v member
    obtain ⟨p, _, brings⟩ := List.mem_filterMap.mp member
    exact p.fragment?_isSettings v brings
  have laid := Config.resolveFrom_concat _ (.object []) user 0 fragments
  rw [List.foldl_cons, defaults_overlaid, List.length_cons, Plugin.length_fragments, Nat.zero_add,
    Nat.add_comm] at laid
  rw [config_of_valid user ps valid, configOf, layers, Registration.filterMap_fragment_numbered,
    Config.resolve, ← List.cons_append, laid]
  rfl

theorem config_eq_error_iff (ps : List Plugin) (user : Value) (e : ConfigError) :
    config ps user = .error e ↔ Failure ps user e := by
  constructor
  · intro failed
    rcases Plugin.valid_or_firstRefused ps with valid | ⟨index, kind, refused⟩
    · rw [config_eq_overlay ps user valid] at failed
      cases laid : Config.overlay (settings ps) (1 + Plugin.layerCount ps) user with
      | error found =>
        rw [laid] at failed
        cases failed
        obtain ⟨rfl, refused⟩ := (Config.overlay_eq_error_iff _ _ _ _).mp laid
        exact ⟨valid, rfl, rfl, refused⟩
      | ok root =>
        rw [laid] at failed
        cases failed
    · rw [config_of_firstRefused ps user index kind refused] at failed
      cases failed
      exact refused
  · intro failure
    cases e with
    | invalidPlugin index kind => exact config_of_firstRefused ps user index kind failure
    | invalidLayer index kind =>
      obtain ⟨valid, rfl, rfl, refused⟩ := failure
      rw [config_eq_overlay ps user valid,
        (Config.overlay_eq_error_iff _ _ _ _).mpr ⟨rfl, refused⟩]
      rfl
    | unreadableText format => exact failure.elim

theorem withConfig_eq_error_iff (ps : List Plugin) (c : Config) (e : ConfigError) :
    withConfig ps c = .error e ↔
      ∃ index kind, Plugin.FirstRefused ps index kind ∧ e = .invalidPlugin index kind := by
  have failed (index : Nat) (kind : Value.Kind) (refused : Plugin.FirstRefused ps index kind) :
      withConfig ps c = .error (.invalidPlugin index kind) := by
    rw [withConfig, Registration.ofPlugins,
      Registration.ofPluginsFrom_of_firstRefused 0 index ps kind refused, Nat.zero_add]
    rfl
  constructor
  · intro found
    rcases Plugin.valid_or_firstRefused ps with valid | ⟨index, kind, refused⟩
    · rw [withConfig_of_valid c ps valid] at found
      cases found
    · rw [failed index kind refused] at found
      cases found
      exact ⟨index, kind, refused, rfl⟩
  · rintro ⟨index, kind, refused, rfl⟩
    exact failed index kind refused

theorem run_eq_error_iff (ps : List Plugin) (user : Value) (e : ConfigError) :
    run ps user = .error e ↔ Failure ps user e := by
  rw [← config_eq_error_iff, run_eq]
  cases config ps user <;> simp [Except.map]

theorem build_eq_error_iff (user : Value) (ps : List Plugin) (e : ConfigError) :
    build user ps = .error e ↔ Failure ps user e := by
  rw [← config_eq_error_iff, build_eq]
  cases config ps user <;> simp [Except.map]

end Run

inductive HandlerStep where
  | asked (query : Query)
  | added (call : Call)

structure Progress where
  stylesheet : Stylesheet
  steps : List HandlerStep

namespace Progress

def start : Progress := ⟨.empty, []⟩

def afterCall (c : Config) (call : Call) (s : Progress) : Progress :=
  ⟨s.stylesheet.add (call.addition c), s.steps ++ [.added call]⟩

def afterQuery (q : Query) (s : Progress) : Progress := { s with steps := s.steps ++ [.asked q] }

end Progress

/-- Running as it goes on: checks and configuration can fail, handlers move the progress on. An
error comes with the progress made until then. -/
abbrev Execution (α : Type) := EStateM ConfigError Progress α

def Handler.execute {α : Type} (c : Config) : Handler α → Execution α
  | done result => pure result
  | add call next => do
    modify (Progress.afterCall c call)
    next.execute c
  | ask q next => do
    modify (Progress.afterQuery q)
    (next (q.answer c)).execute c

namespace Execution

def handlers (c : Config) (rs : List Registration) : Execution Unit :=
  rs.forM fun r => match r.handler with
    | some h => h.execute c
    | none => pure ()

def ofConfig (ps : List Plugin) (c : Config) : Execution Unit := do
  let rs ← MonadExcept.ofExcept (Registration.ofPlugins ps)
  handlers c rs

def ofRun (ps : List Plugin) (user : Value) : Execution Unit := do
  let rs ← MonadExcept.ofExcept (Registration.ofPlugins ps)
  let c ← MonadExcept.ofExcept (Run.configOf rs user)
  handlers c rs

def ofBuild (user : Value) (ps : List Plugin) : Execution Unit := do
  let c ← MonadExcept.ofExcept (Run.config ps user)
  ofConfig (BuiltIn.enabledPlugins c ++ ps) c

/-- An error leaves the progress as it was, and without one the handlers come to the stylesheet of
the report. -/
def Reports (x : Execution Unit) (outcome : Except ConfigError Report) : Prop :=
  match outcome with
  | .error e => ∀ s, x.run s = .error e s
  | .ok report => ∃ steps, x.run .start = .ok () ⟨report.stylesheet, steps⟩

end Execution

def Handler.steps {α : Type} (c : Config) : Handler α → List HandlerStep
  | done _ => []
  | add call next => .added call :: next.steps c
  | ask q next => .asked q :: (next (q.answer c)).steps c

def Plugin.steps (c : Config) (p : Plugin) : List HandlerStep :=
  match p.handler? with
  | some h => h.steps c
  | none => []

theorem Handler.execute_run {α : Type} (c : Config) (h : Handler α) (s : Progress) :
    (h.execute c).run s =
      .ok (h.result c) ⟨h.runOn c s.stylesheet, s.steps ++ h.steps c⟩ := by
  induction h generalizing s with
  | done result =>
    rw [steps, List.append_nil]
    rfl
  | add call next ih =>
    have later := ih (s.afterCall c call)
    rw [Progress.afterCall, List.append_assoc] at later
    exact later
  | ask query next ih =>
    have later := ih (query.answer c) (s.afterQuery query)
    rw [Progress.afterQuery, List.append_assoc] at later
    exact later

namespace Execution

theorem handlers_run (c : Config) (index : Nat) (ps : List Plugin) (s : Progress) :
    (handlers c (Registration.numbered index ps)).run s =
      .ok () ⟨ps.foldl (Plugin.runOn c) s.stylesheet, s.steps ++ ps.flatMap (Plugin.steps c)⟩ := by
  induction ps generalizing index s with
  | nil =>
    rw [List.flatMap_nil, List.append_nil]
    rfl
  | cons p ps ih =>
    rw [Registration.numbered, List.foldl_cons, List.flatMap_cons, ← List.append_assoc]
    change ((match p.handler? with
      | some h => h.execute c
      | none => pure ()) >>= fun _ => handlers c (Registration.numbered (index + 1) ps)).run s = _
    rw [Plugin.runOn, Plugin.steps]
    cases p.handler? with
    | none =>
      rw [List.append_nil]
      exact ih (index + 1) s
    | some h =>
      rw [EStateM.run_bind, h.execute_run c s]
      exact ih (index + 1) ⟨_, _⟩

theorem handlers_reports (c : Config) (ps : List Plugin) :
    (handlers c (Registration.numbered 0 ps)).Reports
      (.ok (Run.invoke c (Registration.numbered 0 ps))) := by
  rw [Reports, Run.invoke, Run.stylesheet_numbered]
  exact ⟨_, handlers_run c 0 ps .start⟩

theorem check_reports {α : Type} (x : Except ConfigError α) (next : α → Execution Unit)
    (outcome : α → Except ConfigError Report)
    (later : ∀ a, x = .ok a → (next a).Reports (outcome a)) :
    (MonadExcept.ofExcept x >>= next).Reports (x >>= outcome) := by
  cases x with
  | error e => exact fun s => rfl
  | ok a => exact later a rfl

theorem ofConfig_reports (ps : List Plugin) (c : Config) :
    (ofConfig ps c).Reports (Run.withConfig ps c) := by
  apply check_reports
  intro rs checked
  obtain rfl := Registration.eq_numbered ps rs checked
  exact handlers_reports c ps

theorem ofRun_reports (ps : List Plugin) (user : Value) :
    (ofRun ps user).Reports (Run.run ps user) := by
  apply check_reports
  intro rs checked
  obtain rfl := Registration.eq_numbered ps rs checked
  apply check_reports
  intro c _
  exact handlers_reports c ps

theorem ofBuild_reports (user : Value) (ps : List Plugin) :
    (ofBuild user ps).Reports (Run.build user ps) := by
  apply check_reports
  intro c _
  have handlers := ofConfig_reports (BuiltIn.enabledPlugins c ++ ps) c
  change (ofConfig _ c).Reports
    (do let report ← Run.withConfig (BuiltIn.enabledPlugins c ++ ps) c; _)
  cases outcome : Run.withConfig (BuiltIn.enabledPlugins c ++ ps) c with
  | error e =>
    rw [outcome] at handlers
    exact handlers
  | ok report =>
    rw [outcome] at handlers
    exact handlers

end Execution

namespace Run

/-- Nothing is refused exactly when every plugin and the user bring a mapping or nothing. -/
theorem no_failure_iff (ps : List Plugin) (user : Value) :
    (∀ e, ¬Failure ps user e) ↔ (∀ p ∈ ps, p.Valid) ∧ user.IsSettings := by
  simp only [← config_eq_error_iff]
  constructor
  · intro settled
    cases made : config ps user with
    | error e => exact absurd made (settled e)
    | ok c =>
      obtain ⟨valid, accepted, _⟩ := (config_eq_ok_iff ps user c).mp made
      exact ⟨valid, accepted⟩
  · rintro ⟨valid, accepted⟩ e failed
    rw [(config_eq_ok_iff ps user ⟨_⟩).mpr ⟨valid, accepted, rfl⟩] at failed
    cases failed

/-- What is malformed is all that fails: the first plugin that is refused, else the user's
configuration. Under a configuration that is settled only the plugins can fail. No handler has
taken a step by then, also not one of a plugin in front of the one that is refused. -/
theorem fails_before_handlers (ps : List Plugin) (user : Value) (c : Config) :
    (∀ e, config ps user = .error e ↔ Failure ps user e) ∧
      (∀ e, run ps user = .error e ↔ Failure ps user e) ∧
      (∀ e, build user ps = .error e ↔ Failure ps user e) ∧
      (∀ e, withConfig ps c = .error e ↔
        ∃ index kind, Plugin.FirstRefused ps index kind ∧ e = .invalidPlugin index kind) ∧
      ((∀ e, ¬Failure ps user e) ↔ (∀ p ∈ ps, p.Valid) ∧ user.IsSettings) ∧
      (Execution.ofRun ps user).Reports (run ps user) ∧
      (Execution.ofBuild user ps).Reports (build user ps) ∧
      (Execution.ofConfig ps c).Reports (withConfig ps c) :=
  ⟨config_eq_error_iff ps user, run_eq_error_iff ps user, build_eq_error_iff user ps,
    withConfig_eq_error_iff ps c, no_failure_iff ps user, Execution.ofRun_reports ps user,
    Execution.ofBuild_reports user ps, Execution.ofConfig_reports ps c⟩

end Run

end StyleLayers
