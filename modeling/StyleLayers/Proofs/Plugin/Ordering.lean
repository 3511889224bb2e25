import StyleLayers.Proofs.Config.Commuting
import StyleLayers.Proofs.Plugin.Settling

/-!
Plugins whose fragments do not conflict, registered in any order. The configuration is the same but
for the order of keys, also under a user who edits variants.
-/

namespace StyleLayers

theorem Plugin.fragment?_object (p : Plugin) (v : Value) (brings : p.fragment? = some v) :
    ∃ entries, v = .object entries := by
  rw [fragment?] at brings
  split at brings
  · next entries _ =>
    cases brings
    exact ⟨entries, rfl⟩
  · cases brings

namespace Run

theorem settings_uniqueKeys (ps : List Plugin)
    (unique : ∀ p ∈ ps, ∀ v, p.config? = some v → v.UniqueKeys) : (settings ps).UniqueKeys := by
  have defaults : Config.defaultLayer.UniqueKeys := by decide
  refine Value.foldl_overlaid_uniqueKeys _ _ defaults fun v member => ?_
  obtain ⟨p, registered, brings⟩ := List.mem_filterMap.mp member
  exact unique p registered v (p.config?_of_fragment v brings)

/-- Fragments without conflicts and without edits of variants can be laid over each other in any
order: the configuration of a run differs in the order of keys at most. -/
theorem fragments_in_any_order :
    (∀ base u v : Value, base.UniqueKeys → u.UniqueKeys → v.UniqueKeys → Value.Compatible u v →
      Value.Alike ((base.override u).override v) ((base.override v).override u)) ∧
    ∀ (ps qs : List Plugin) (user : Value), ps.Perm qs → (∀ p ∈ ps, p.Valid) →
      (∀ p ∈ ps, ∀ v, p.config? = some v → v.UniqueKeys ∧ v.EditFree) →
      (ps.filterMap Plugin.fragment?).Pairwise Value.Compatible →
      user.UniqueKeys → user.IsSettings →
      ∃ c d, config ps user = .ok c ∧ config qs user = .ok d ∧ Value.Alike c.root d.root ∧
        (∀ path, Option.Rel Value.Alike (c.root.valueAt? path) (d.root.valueAt? path)) ∧
        ∀ path, Option.Rel Value.Alike (c.get? path) (d.get? path) := by
  constructor
  · intro base u v uniqueBase unique uniqueOther compatible
    exact compatible.overAny_comm (some base) (by simpa using uniqueBase) unique uniqueOther
  · intro ps qs user order valid plain compatible uniqueUser accepted
    have validOther : ∀ q ∈ qs, q.Valid := fun q member => valid q (order.mem_iff.mpr member)
    have plainOther : ∀ q ∈ qs, ∀ v, q.config? = some v → v.UniqueKeys := fun q member v brings =>
      (plain q (order.mem_iff.mpr member) v brings).1
    have layers : ∀ v ∈ ps.filterMap Plugin.fragment?, v.IsPlainLayer := by
      intro v member
      obtain ⟨p, registered, brings⟩ := List.mem_filterMap.mp member
      obtain ⟨unique, free⟩ := plain p registered v (p.config?_of_fragment v brings)
      exact ⟨p.fragment?_object v brings, unique, free⟩
    have below : Value.Alike (settings ps) (settings qs) :=
      Value.foldl_overlaid_perm (order.filterMap _) Config.defaultLayer (by decide) layers
        compatible
    have whole : Value.Alike ((settings ps).overlaid user) ((settings qs).overlaid user) :=
      below.overlaid user (settings_uniqueKeys ps fun p member v brings =>
        (plain p member v brings).1) (settings_uniqueKeys qs plainOther) uniqueUser
    refine ⟨⟨(settings ps).overlaid user⟩, ⟨(settings qs).overlaid user⟩, ?_, ?_, whole,
      whole.valueAt?, fun path => whole.descend? (Path.keys path)⟩
    · exact (config_eq_ok_iff ps user _).mpr ⟨valid, accepted, rfl⟩
    · exact (config_eq_ok_iff qs user _).mpr ⟨validOther, accepted, rfl⟩

theorem fragments_in_any_order_scale :
    let first : Value := .object [("theme", .object [("skew", .object [("sm", .string "1deg")])]),
      ("variants", .object [("skew", .array [.string "hover", .string "focus"])])]
    let second : Value := .object [("variants", .object [("skew", .array [.string "hover",
      .string "focus"])]), ("theme", .object [("skew", .object [("md", .string "2deg"),
        ("sm", .string "1deg")]), ("order", .null)])]
    let user : Value := .object [("variants", .object [("skew", .object [("without", .array
      [.string "focus"])])])]
    first.UniqueKeys ∧ second.UniqueKeys ∧ user.UniqueKeys ∧ first.EditFree ∧ second.EditFree ∧
      Value.Compatible first second ∧
      Value.Alike ((user.override first).override second)
        ((user.override second).override first) ∧
      ∃ c d, config [.configOnly first, .configOnly second] user = .ok c ∧
        config [.configOnly second, .configOnly first] user = .ok d ∧ Value.Alike c.root d.root ∧
        c.root.valueAt? ["theme", "skew"] =
          some (.object [("sm", .string "1deg"), ("md", .string "2deg")]) ∧
        d.root.valueAt? ["theme", "skew"] =
          some (.object [("md", .string "2deg"), ("sm", .string "1deg")]) ∧
        d.root.inheritedVariants "skew" = Variants.ofList ["hover"] := by
  intro first second user
  have unique : first.UniqueKeys := by decide
  have uniqueOther : second.UniqueKeys := by decide
  have uniqueUser : user.UniqueKeys := by decide
  have free : first.EditFree := by
    rintro _ ⟨⟩ entry member
    obtain rfl := List.mem_singleton.mp member
    rfl
  have freeOther : second.EditFree := by
    rintro _ ⟨⟩ entry member
    obtain rfl := List.mem_singleton.mp member
    rfl
  have compatible : Value.Compatible first second := by
    refine .of_entries _ _ (List.forall_mem_cons.mpr ⟨?theme, List.forall_mem_singleton.mpr ?lists⟩)
    case theme =>
      rintro _ ⟨⟩
      refine .of_entries _ _ (List.forall_mem_singleton.mpr ?_)
      rintro _ ⟨⟩
      refine .of_entries _ _ (List.forall_mem_singleton.mpr ?_)
      rintro _ ⟨⟩
      exact .leaf _ _ rfl (.refl _)
    case lists =>
      rintro _ ⟨⟩
      refine .of_entries _ _ (List.forall_mem_singleton.mpr ?_)
      rintro _ ⟨⟩
      exact .leaf _ _ rfl (.refl _)
  have plain : ∀ p ∈ [Plugin.configOnly first, .configOnly second], ∀ v, p.config? = some v →
      v.UniqueKeys ∧ v.EditFree := by
    refine List.forall_mem_cons.mpr ⟨?_, List.forall_mem_singleton.mpr ?_⟩
    · rintro _ ⟨⟩
      exact ⟨unique, free⟩
    · rintro _ ⟨⟩
      exact ⟨uniqueOther, freeOther⟩
  have valid : ∀ p ∈ [Plugin.configOnly first, .configOnly second], p.Valid := by
    refine List.forall_mem_cons.mpr ⟨?_, List.forall_mem_singleton.mpr ?_⟩
    · rintro _ ⟨⟩
      exact Or.inr ⟨_, rfl⟩
    · rintro _ ⟨⟩
      exact Or.inr ⟨_, rfl⟩
  obtain ⟨values, plugins⟩ := fragments_in_any_order
  obtain ⟨c, d, settled, settledOther, same, _⟩ := plugins _ _ user (.swap _ _ []) valid plain
    (List.pairwise_pair.mpr compatible) uniqueUser (Or.inr ⟨_, rfl⟩)
  refine ⟨unique, uniqueOther, uniqueUser, free, freeOther, compatible,
    values user first second uniqueUser unique uniqueOther compatible, c, d, settled,
    settledOther, same, ?_⟩
  cases settled
  cases settledOther
  exact ⟨rfl, rfl, rfl⟩

end Run

end StyleLayers
