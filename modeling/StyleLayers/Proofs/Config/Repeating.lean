import StyleLayers.Proofs.Config.LayeredVariants
import StyleLayers.Proofs.Variant.Editing

/-!
Layers of configuration as one fold, and a layer laid over itself. A value takes nothing from a
second laying over of what it has taken once, and an edit of variants finds its own result below it.
-/

namespace StyleLayers

namespace Value

theorem overrideEntries_stable (lower upper : Entries)
    (stable : ∀ entry ∈ upper, ∃ w, lower.get? entry.1 = some w ∧ w.override entry.2 = w) :
    overrideEntries lower upper = lower := by
  induction upper with
  | nil => rfl
  | cons entry rest ih =>
    obtain ⟨first, later⟩ := List.forall_mem_cons.mp stable
    obtain ⟨w, found, same⟩ := first
    have unchanged : lower.insert entry.1 (overAny (lower.get? entry.1) entry.2) = lower := by
      rw [found, overAny, same]
      exact Entries.insert_same entry.1 w lower found
    rw [overrideEntries_cons, unchanged]
    exact ih later

theorem overAny_object (below : Option Value) (upper : Entries) :
    ∃ entries : Entries, overAny below (.object upper) = .object entries := by
  rcases below with _ | (_ | _ | _ | _ | _ | lower)
  case some.object => exact ⟨overrideEntries lower upper, rfl⟩
  all_goals exact ⟨upper, rfl⟩

mutual

/-- What a value was laid over once, it changes no further. -/
theorem override_absorbs : (above : Value) → above.UniqueKeys → (below : Option Value) →
    (overAny below above).override above = overAny below above
  | .null, _, below => (overAny_leaf below .null rfl).symm
  | .bool b, _, below => (overAny_leaf below (.bool b) rfl).symm
  | .number n, _, below => (overAny_leaf below (.number n) rfl).symm
  | .string s, _, below => (overAny_leaf below (.string s) rfl).symm
  | .array items, _, below => (overAny_leaf below (.array items) rfl).symm
  | .object upper, unique, below => by
    obtain ⟨entries, shape⟩ := overAny_object below upper
    rw [shape]
    refine congrArg object (overrideEntries_stable entries upper ?_)
    intro entry inside
    refine ⟨overAny (below.bind (Value.entry? · entry.1)) entry.2, ?_,
      overrideEach_absorbs upper unique.2 entry inside _⟩
    have merged := entry?_overAny below upper unique.1 entry.1
    rwa [shape, Entries.get?_of_mem upper unique.1 entry inside] at merged

theorem overrideEach_absorbs : (upper : List (String × Value)) → UniqueKeysEntries upper →
    ∀ entry ∈ upper, ∀ below : Option Value,
      (overAny below entry.2).override entry.2 = overAny below entry.2
  | [], _, entry, inside, _ => by cases inside
  | (_, v) :: rest, unique, entry, inside, below => by
    rcases List.mem_cons.mp inside with rfl | later
    · exact override_absorbs v unique.1 below
    · exact overrideEach_absorbs rest unique.2 entry later below

end

theorem inheritedVariants_overrideLayer (below : Value) (layer entries : Entries)
    (unique : (object layer).UniqueKeys) (mapping : layer.get? "variants" = some (.object entries))
    (key : String) (v : Value) (present : entries.get? key = some v) (edit : VariantEdit)
    (reads : VariantEdit.ofValue? v = some edit) :
    (below.overrideLayer layer).inheritedVariants key =
      edit.apply (below.inheritedVariants key) := by
  have distinct : (Entries.keys (entries.map (editedEntry below))).Nodup := by
    rw [Entries.keys_map _ (editedEntry_fst below)]
    exact (uniqueKeys_of_get? layer "variants" _ unique mapping).1
  have edited : (editedEntry below (key, v)).2 =
      (edit.apply (below.inheritedVariants key)).toValue := by
    rw [editedEntry, reads]
  have placed : (withEdits below layer).get? "variants" =
      some (.object (entries.map (editedEntry below))) := by
    rw [withEdits, mapping, Entries.get?_insert, if_pos rfl]
  have onTop : overAny ((below.entry? "variants").bind (Value.entry? · key))
      (edit.apply (below.inheritedVariants key)).toValue =
        (edit.apply (below.inheritedVariants key)).toValue := overAny_leaf _ _ rfl
  rw [VariantState.inheritedVariants_eq, VariantState.ofRoot,
    VariantState.entry?_overrideLayer below layer unique, placed]
  simp only [VariantState.ofSection_overAny, VariantState.list?]
  rw [entry?_overAny _ _ distinct, Entries.get?_map _ (editedEntry_fst below), present]
  simp only [Option.map_some, edited, onTop, Variants.ofValue_toValue, Option.getD_some]

/-- The edits of a layer come to the same on top of the layer itself. -/
theorem withEdits_overrideLayer (below : Value) (layer : Entries)
    (unique : (object layer).UniqueKeys) :
    withEdits (below.overrideLayer layer) layer = withEdits below layer := by
  rw [withEdits, withEdits]
  split
  · next entries mapping =>
    have distinct := (uniqueKeys_of_get? layer "variants" _ unique mapping).1
    have same : entries.map (editedEntry (below.overrideLayer layer)) =
        entries.map (editedEntry below) := by
      apply List.map_congr_left
      intro entry inside
      rw [editedEntry, editedEntry]
      cases reads : VariantEdit.ofValue? entry.2 with
      | none => rfl
      | some edit =>
        -- the edit starts from its own result, on which it has nothing left to do
        have present := Entries.get?_of_mem entries distinct entry inside
        have inherited := inheritedVariants_overrideLayer below layer entries unique mapping
          entry.1 entry.2 present edit reads
        simp only [inherited, VariantEdit.apply_apply]
    rw [same]
  · rfl

theorem overrideLayer_overrideLayer (below : Value) (layer : Entries)
    (unique : (object layer).UniqueKeys) :
    (below.overrideLayer layer).overrideLayer layer = below.overrideLayer layer := by
  have edited := withEdits_uniqueKeys below layer unique
  calc (below.overrideLayer layer).overrideLayer layer
      = (below.overrideLayer layer).override (.object (withEdits below layer)) := by
        rw [overrideLayer, withEdits_overrideLayer below layer unique]
    _ = below.overrideLayer layer :=
        override_absorbs (.object (withEdits below layer)) edited (some below)

/-- A value that can be a layer: a mapping, or null for none. -/
def IsSettings (v : Value) : Prop := v = .null ∨ ∃ entries, v = .object entries

def overlaid (below : Value) : Value → Value
  | .object entries => below.overrideLayer entries
  | _ => below

theorem overlaid_overlaid (below layer : Value) (unique : layer.UniqueKeys) :
    (below.overlaid layer).overlaid layer = below.overlaid layer := by
  cases layer with
  | object entries => exact overrideLayer_overrideLayer below entries unique
  | _ => rfl

end Value

namespace Config

theorem overlay_eq_ok_iff (below layer next : Value) (index : Nat) :
    overlay below index layer = .ok next ↔ layer.IsSettings ∧ below.overlaid layer = next := by
  constructor
  · intro laid
    cases layer with
    | null =>
      cases laid
      exact ⟨Or.inl rfl, rfl⟩
    | object entries =>
      cases laid
      exact ⟨Or.inr ⟨entries, rfl⟩, rfl⟩
    | _ => cases laid
  · rintro ⟨rfl | ⟨entries, rfl⟩, rfl⟩
    · rfl
    · rfl

theorem resolveFrom_eq_ok_iff (layers : List Value) (below root : Value) (index : Nat) :
    resolveFrom below index layers = .ok root ↔
      (∀ layer ∈ layers, layer.IsSettings) ∧ layers.foldl Value.overlaid below = root := by
  induction layers generalizing below index with
  | nil =>
    rw [resolveFrom, List.foldl_nil]
    exact ⟨fun same => ⟨List.forall_mem_nil _, Except.ok.inj same⟩, fun both => congrArg _ both.2⟩
  | cons layer rest ih =>
    rw [resolveFrom, List.forall_mem_cons, List.foldl_cons, and_assoc, ← ih _ (index + 1)]
    cases laid : overlay below index layer with
    | error e =>
      constructor
      · intro impossible
        cases impossible
      · rintro ⟨settings, _⟩
        rw [(overlay_eq_ok_iff below layer _ index).mpr ⟨settings, rfl⟩] at laid
        cases laid
    | ok next =>
      obtain ⟨settings, rfl⟩ := (overlay_eq_ok_iff below layer next index).mp laid
      exact ⟨fun resolved => ⟨settings, resolved⟩, And.right⟩

theorem resolve_eq_ok_iff (layers : List Value) (c : Config) :
    resolve layers = .ok c ↔
      (∀ layer ∈ layers, layer.IsSettings) ∧ layers.foldl Value.overlaid (.object []) = c.root := by
  rw [← resolveFrom_eq_ok_iff layers (.object []) c.root 0, resolve]
  cases resolveFrom (.object []) 0 layers with
  | error e =>
    constructor
    · intro impossible
      cases impossible
    · intro impossible
      cases impossible
  | ok root =>
    constructor
    · rintro ⟨⟩
      rfl
    · rintro ⟨⟩
      rfl

end Config

end StyleLayers
