import StyleLayers.Proofs.Config.Repeating

/-!
Configurations that agree but for one key. Users that differ in one key only are laid over the same
tree to configurations that differ in that key only, and what is read from other keys is the same.
-/

namespace StyleLayers

namespace Value

theorem entry?_without (v : Value) (key other : String) (different : other ≠ key) :
    Value.entry? (v.without key) other = v.entry? other := by
  cases v with
  | object entries => exact Entries.get?_without_of_ne key other entries different
  | _ => rfl

theorem withEdits_without (below : Value) (layer : Entries) (key : String)
    (different : key ≠ "variants") :
    (withEdits below layer).without key = withEdits below (layer.without key) := by
  rw [withEdits, withEdits, Entries.get?_without_of_ne key "variants" layer different.symm]
  split
  · exact Entries.without_insert_of_ne key "variants" _ layer different.symm
  · rfl

theorem overlaid_without (lower : Entries) (user : Value) (key : String)
    (accepted : user.IsSettings) (different : key ≠ "variants") :
    ((object lower).overlaid user).without key =
      ((object lower).without key).override
        (.object (withEdits (.object lower) (Entries.without key (user.entries?.getD [])))) := by
  rcases accepted with rfl | ⟨entries, rfl⟩
  · rfl
  · calc ((object lower).overrideLayer entries).without key
        = ((object lower).without key).override
            (.object ((withEdits (.object lower) entries).without key)) :=
          override_without key _ _
      _ = ((object lower).without key).override
            (.object (withEdits (.object lower) (Entries.without key entries))) := by
          rw [withEdits_without (.object lower) entries key different]

theorem overrideEntries_nodup (lower upper : Entries) (distinct : lower.keys.Nodup) :
    (Entries.keys (overrideEntries lower upper)).Nodup := by
  induction upper generalizing lower with
  | nil => exact distinct
  | cons entry rest ih =>
    rw [overrideEntries_cons]
    exact ih _ (Entries.insert_nodup entry.1 _ lower distinct)

theorem overlaid_object (lower : Entries) (layer : Value) :
    ∃ entries : Entries, (object lower).overlaid layer = .object entries ∧
      (lower.keys.Nodup → entries.keys.Nodup) := by
  cases layer with
  | object upper => exact ⟨_, rfl, overrideEntries_nodup lower _⟩
  | _ => exact ⟨lower, rfl, id⟩

theorem foldl_overlaid_object (layers : List Value) (lower : Entries) :
    ∃ entries : Entries, layers.foldl overlaid (.object lower) = .object entries ∧
      (lower.keys.Nodup → entries.keys.Nodup) := by
  induction layers generalizing lower with
  | nil => exact ⟨lower, rfl, id⟩
  | cons layer rest ih =>
    obtain ⟨next, laid, kept⟩ := overlaid_object lower layer
    obtain ⟨entries, all, keptAll⟩ := ih next
    rw [List.foldl_cons, laid]
    exact ⟨entries, all, fun distinct => keptAll (kept distinct)⟩

end Value

namespace Config

def SameBut (key : String) (c d : Config) : Prop :=
  ∀ other, other ≠ key → c.root.entry? other = d.root.entry? other

variable {c d : Config} {key : String}

theorem SameBut.theme? (same : SameBut key c d) (different : "theme" ≠ key) (path : String) :
    c.theme? path = d.theme? path := by
  rw [Config.theme?, Config.theme?, same "theme" different]

theorem SameBut.classPrefix (same : SameBut key c d) (different : "prefix" ≠ key) :
    c.classPrefix = d.classPrefix := by
  rw [Config.classPrefix, Config.classPrefix, stringD, stringD, same "prefix" different]

theorem SameBut.globalVariants? (same : SameBut key c d) (different : "variants" ≠ key) :
    c.globalVariants? = d.globalVariants? := by
  rw [Config.globalVariants?, Config.globalVariants?, same "variants" different]

theorem SameBut.variants? (same : SameBut key c d) (different : "variants" ≠ key)
    (name : String) : c.variants? name = d.variants? name := by
  rw [Config.variants?, Config.variants?, same.globalVariants? different, keyedVariants?,
    keyedVariants?, same "variants" different]

theorem sameBut_overlaid (lower : Entries) (u v : Value) (key : String)
    (acceptedFirst : u.IsSettings) (acceptedSecond : v.IsSettings) (different : key ≠ "variants")
    (agree : Entries.without key (u.entries?.getD []) = Entries.without key (v.entries?.getD [])) :
    SameBut key ⟨(Value.object lower).overlaid u⟩ ⟨(Value.object lower).overlaid v⟩ := by
  intro other elsewhere
  calc Value.entry? ((Value.object lower).overlaid u) other
      = Value.entry? (((Value.object lower).overlaid u).without key) other :=
        (Value.entry?_without _ key other elsewhere).symm
    _ = Value.entry? (((Value.object lower).overlaid v).without key) other := by
        rw [Value.overlaid_without lower u key acceptedFirst different,
          Value.overlaid_without lower v key acceptedSecond different, agree]
    _ = Value.entry? ((Value.object lower).overlaid v) other :=
        Value.entry?_without _ key other elsewhere

end Config

end StyleLayers
