import StyleLayers.Plugin.Run

/-!
What handlers add to a stylesheet. A run hands one stylesheet from handler to handler, each call
puts one group at the end of its layer, and so the layers of a list of plugins are those of its
parts, one behind the other.
-/

namespace StyleLayers

namespace Stylesheet

theorem groups_empty (l : Layer) : empty.groups l = [] := by
  cases l with
  | base => rfl
  | components => rfl
  | utilities => rfl

theorem groups_add (s : Stylesheet) (a : Addition) (l : Layer) :
    (s.add a).groups l = s.groups l ++ if a.layer = l then [a.group] else [] := by
  obtain ⟨layer, group⟩ := a
  cases layer with
  | base => cases l <;> simp [add, groups]
  | components => cases l <;> simp [add, groups]
  | utilities => cases l <;> simp [add, groups]

theorem groups_addAll (s : Stylesheet) (as : List Addition) (l : Layer) :
    (s.addAll as).groups l = s.groups l ++ (as.filter (·.layer = l)).map Addition.group := by
  induction as generalizing s with
  | nil => simp [addAll]
  | cons a as ih =>
    have later := ih (s.add a)
    rw [addAll] at later
    rw [addAll, List.foldl_cons, later, groups_add, List.append_assoc]
    by_cases here : a.layer = l
    · simp [here]
    · simp [here]

theorem addAll_append (s : Stylesheet) (as bs : List Addition) :
    s.addAll (as ++ bs) = (s.addAll as).addAll bs := List.foldl_append

end Stylesheet

namespace Call

/-- The variants of a call: its own list, even an empty one, else the one for every group, else
none. -/
def chosenVariants (c : Config) (t : Treatment) : Variants :=
  match t.variants, c.globalVariants? with
  | some own, _ => own
  | none, some global => global
  | none, none => .empty

/-- The group that a call adds to a layer. Calls for another layer add none there. -/
def groupIn? (c : Config) : Layer → Call → Option Group
  | .base, .base styles => some ⟨styles.compile "", .empty⟩
  | .components, .components styles t =>
    let rules := styles.compile ""
    let prefixed := if t.prefixed then Rule.prefixAll c.classPrefix rules else rules
    some (Group.wrap prefixed (chosenVariants c t))
  | .utilities, .utilities styles t =>
    let rules := styles.compile ""
    let prefixed := if t.prefixed then Rule.prefixAll c.classPrefix rules else rules
    let important := if t.important then Rule.emphasizeAll c.importance prefixed else prefixed
    some (Group.wrap important (chosenVariants c t))
  | _, _ => none

theorem chosenVariants_eq (c : Config) (t : Treatment) : chosenVariants c t = variantsFor c t := by
  unfold chosenVariants variantsFor
  cases t.variants with
  | some own => rfl
  | none => cases c.globalVariants? <;> rfl

theorem groupIn?_eq (c : Config) (l : Layer) (call : Call) :
    call.groupIn? c l = if call.layer = l then some (call.group c) else none := by
  cases call with
  | base styles => cases l <;> rfl
  | components styles t =>
    cases l with
    | components =>
      change some (Group.wrap _ (chosenVariants c t)) = _
      rw [chosenVariants_eq]
      rfl
    | _ => rfl
  | utilities styles t =>
    cases l with
    | utilities =>
      change some (Group.wrap _ (chosenVariants c t)) = _
      rw [chosenVariants_eq]
      rfl
    | _ => rfl

theorem filter_additions (c : Config) (l : Layer) (calls : List Call) :
    ((calls.map (addition c)).filter (·.layer = l)).map Addition.group =
      calls.filterMap (groupIn? c l) := by
  induction calls with
  | nil => rfl
  | cons call calls ih =>
    by_cases here : call.layer = l
    · have added : call.groupIn? c l = some (call.group c) := by rw [groupIn?_eq, if_pos here]
      rw [List.filterMap_cons_some added, ← ih]
      simp [addition, here]
    · have none : call.groupIn? c l = none := by rw [groupIn?_eq, if_neg here]
      rw [List.filterMap_cons_none none, ← ih]
      simp [addition, here]

end Call

namespace Handler

/-- The stylesheet after a handler: each call adds to what the calls before it have left. -/
def runOn {α : Type} (c : Config) (s : Stylesheet) : Handler α → Stylesheet
  | done _ => s
  | add call next => next.runOn c (s.add (call.addition c))
  | ask query next => (next (query.answer c)).runOn c s

theorem runOn_eq_addAll {α : Type} (c : Config) (h : Handler α) (s : Stylesheet) :
    h.runOn c s = s.addAll (h.additions c) := by
  induction h generalizing s with
  | done result => rfl
  | add call next ih => exact ih (s.add (call.addition c))
  | ask query next ih => exact ih (query.answer c) s

theorem groups_runOn {α : Type} (c : Config) (h : Handler α) (s : Stylesheet) (l : Layer) :
    (h.runOn c s).groups l = s.groups l ++ (h.calls c).filterMap (Call.groupIn? c l) := by
  rw [runOn_eq_addAll, Stylesheet.groups_addAll, additions, Call.filter_additions]

theorem groups_elsewhere {α : Type} (c : Config) (h : Handler α) (own l : Layer)
    (calls : ∀ call ∈ h.calls c, call.layer = own) (other : l ≠ own) :
    (h.runOn c .empty).groups l = [] := by
  rw [groups_runOn, Stylesheet.groups_empty, List.nil_append]
  apply List.filterMap_eq_nil_iff.mpr
  intro call made
  have elsewhere : call.layer ≠ l := by
    rw [calls call made]
    exact other.symm
  rw [Call.groupIn?_eq, if_neg elsewhere]

end Handler

namespace Plugin

/-- The configuration of the plugin is a mapping, null or left out. -/
def Valid (p : Plugin) : Prop :=
  ∀ v, p.config? = some v → v = .null ∨ ∃ entries, v = .object entries

def fragment? (p : Plugin) : Option Value :=
  match p.config? with
  | some (.object entries) => some (.object entries)
  | _ => none

def runOn (c : Config) (s : Stylesheet) (p : Plugin) : Stylesheet :=
  match p.handler? with
  | some h => h.runOn c s
  | none => s

end Plugin

namespace Registration

def numbered (index : Nat) : List Plugin → List Registration
  | [] => []
  | p :: ps => ⟨index, p.handler?, p.fragment?⟩ :: numbered (index + 1) ps

theorem ofPlugin_of_valid (index : Nat) (p : Plugin) (valid : p.Valid) :
    ofPlugin index p = .ok ⟨index, p.handler?, p.fragment?⟩ := by
  unfold ofPlugin Plugin.fragment?
  cases config : p.config? with
  | none => rfl
  | some v =>
    rcases valid v config with rfl | ⟨entries, rfl⟩
    · rfl
    · rfl

theorem valid_of_ofPlugin (index : Nat) (p : Plugin) (r : Registration)
    (accepted : ofPlugin index p = .ok r) : p.Valid := by
  intro v config
  unfold ofPlugin at accepted
  rw [config] at accepted
  cases v with
  | null => exact Or.inl rfl
  | object entries => exact Or.inr ⟨entries, rfl⟩
  | _ => cases accepted

theorem ofPluginsFrom_of_valid (index : Nat) (ps : List Plugin) (valid : ∀ p ∈ ps, p.Valid) :
    ofPluginsFrom index ps = .ok (numbered index ps) := by
  induction ps generalizing index with
  | nil => rfl
  | cons p ps ih =>
    obtain ⟨validFirst, validRest⟩ := List.forall_mem_cons.mp valid
    rw [ofPluginsFrom, ofPlugin_of_valid index p validFirst, ih (index + 1) validRest]
    rfl

theorem valid_of_ofPluginsFrom (index : Nat) (ps : List Plugin) (rs : List Registration)
    (accepted : ofPluginsFrom index ps = .ok rs) : ∀ p ∈ ps, p.Valid := by
  induction ps generalizing index rs with
  | nil =>
    intro p member
    cases member
  | cons p ps ih =>
    rw [ofPluginsFrom] at accepted
    cases first : ofPlugin index p with
    | error e =>
      rw [first] at accepted
      cases accepted
    | ok r =>
      cases rest : ofPluginsFrom (index + 1) ps with
      | error e =>
        rw [first, rest] at accepted
        cases accepted
      | ok others =>
        intro q member
        rcases List.mem_cons.mp member with rfl | member
        · exact valid_of_ofPlugin index q r first
        · exact ih (index + 1) others rest q member

end Registration

namespace Run

theorem addAll_numbered (c : Config) (index : Nat) (ps : List Plugin) (s : Stylesheet) :
    s.addAll ((Registration.numbered index ps).flatMap (Registration.additions c)) =
      ps.foldl (Plugin.runOn c) s := by
  induction ps generalizing index s with
  | nil => rfl
  | cons p ps ih =>
    have first : s.addAll (Registration.additions c ⟨index, p.handler?, p.fragment?⟩) =
        p.runOn c s := by
      unfold Registration.additions Plugin.runOn
      cases p.handler? with
      | none => rfl
      | some h => exact (Handler.runOn_eq_addAll c h s).symm
    rw [Registration.numbered, List.flatMap_cons, Stylesheet.addAll_append, first, List.foldl_cons]
    exact ih (index + 1) (p.runOn c s)

theorem stylesheet_numbered (c : Config) (index : Nat) (ps : List Plugin) :
    stylesheet c (Registration.numbered index ps) = ps.foldl (Plugin.runOn c) .empty :=
  addAll_numbered c index ps .empty

theorem withConfig_of_valid (c : Config) (ps : List Plugin) (valid : ∀ p ∈ ps, p.Valid) :
    withConfig ps c = .ok (invoke c (Registration.numbered 0 ps)) := by
  rw [withConfig, Registration.ofPlugins, Registration.ofPluginsFrom_of_valid 0 ps valid]
  rfl

end Run

namespace Plugin

theorem runOn_eq (c : Config) (s : Stylesheet) (p : Plugin) (l : Layer) :
    (p.runOn c s).groups l = s.groups l ++ (p.runOn c .empty).groups l := by
  unfold runOn
  cases p.handler? with
  | none => simp [Stylesheet.groups_empty]
  | some h => simp [Handler.groups_runOn, Stylesheet.groups_empty]

theorem groups_foldl_runOn (c : Config) (ps : List Plugin) (s : Stylesheet) (l : Layer) :
    (ps.foldl (runOn c) s).groups l =
      s.groups l ++ ps.flatMap fun p => (p.runOn c .empty).groups l := by
  induction ps generalizing s with
  | nil => simp
  | cons p ps ih => rw [List.foldl_cons, ih, runOn_eq, List.flatMap_cons, List.append_assoc]

end Plugin

namespace Run

/-- Plugins meet only in the configuration. With the configuration settled, each layer of a longer
list of plugins is that of its first part and then that of its second; and a handler, whatever ran
before it, adds one group for each of its calls, to the layer of the call and in order. -/
theorem withConfig_append (c : Config) (ps qs : List Plugin)
    (valid : ∀ p ∈ ps ++ qs, p.Valid) :
    ∃ first second both, withConfig ps c = .ok first ∧ withConfig qs c = .ok second ∧
      withConfig (ps ++ qs) c = .ok both ∧
      (∀ l, both.stylesheet.groups l = first.stylesheet.groups l ++ second.stylesheet.groups l) ∧
      both.stylesheet = (ps ++ qs).foldl (Plugin.runOn c) .empty ∧
      ∀ (h : Handler Unit) (s : Stylesheet) (l : Layer),
        ((Plugin.function h).runOn c s).groups l =
          s.groups l ++ (h.calls c).filterMap (Call.groupIn? c l) := by
  obtain ⟨validFirst, validSecond⟩ := List.forall_mem_append.mp valid
  refine ⟨_, _, _, withConfig_of_valid c ps validFirst, withConfig_of_valid c qs validSecond,
    withConfig_of_valid c (ps ++ qs) valid, ?_, stylesheet_numbered c 0 (ps ++ qs), ?_⟩
  · intro l
    simp only [invoke, stylesheet_numbered, Plugin.groups_foldl_runOn, Stylesheet.groups_empty,
      List.nil_append, List.flatMap_append]
  · intro h s l
    exact Handler.groups_runOn c h s l

theorem withConfig_append_global :
    let c : Config := ⟨.object [("variants", .array [.string "hover"])]⟩
    let rule : Rule := ⟨".a", [], []⟩
    let first : Plugin := .function (Handler.addComponents (.rule rule) ⟨none, false, true⟩)
    let second : Plugin := .create (Handler.addUtilities (.rule rule) ⟨some .empty, false, true⟩)
      (.object [("variants", .array [])])
    (∀ p ∈ [first] ++ [second], p.Valid) ∧
      ∃ both, withConfig ([first] ++ [second]) c = .ok both ∧
        both.stylesheet = ⟨[], [⟨[rule], .ofList ["hover"]⟩], [⟨[rule], .empty⟩]⟩ := by
  intro c rule first second
  have valid : ∀ p ∈ [first] ++ [second], p.Valid := by
    intro p member v config
    rcases List.mem_cons.mp member with rfl | member
    · cases config
    · obtain rfl := List.mem_singleton.mp member
      cases config
      exact Or.inr ⟨_, rfl⟩
  obtain ⟨_, _, both, _, _, accepted, _, run, _⟩ := withConfig_append c [first] [second] valid
  refine ⟨valid, both, accepted, ?_⟩
  rw [run]
  simp only [c, rule, first, second]
  rfl

end Run

end StyleLayers
