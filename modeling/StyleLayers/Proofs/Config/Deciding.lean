import StyleLayers.Proofs.Config.Overriding

/-!
Values that decide what is found at a path. Laid over two trees that differ in one leaf, a value
that decides the path to the leaf leaves no difference.
-/

namespace StyleLayers

namespace Value

/-- The path leads to a value, or is cut off by one that is no mapping. -/
def Decides (v : Value) (path : List String) : Prop :=
  v.Blocks path ∨ (v.valueAt? path).isSome

def withLeaf (leaf v : Value) : List String → Value
  | [] => leaf
  | key :: path =>
    .object (Entries.insert key (withLeaf leaf ((v.entry? key).getD .null) path)
      (v.entries?.getD []))

theorem decides_object (entries : Entries) (key : String) (path : List String) :
    (object entries).Decides (key :: path) ↔ ∃ v, entries.get? key = some v ∧ v.Decides path := by
  rw [Decides, blocks_object]
  constructor
  · rintro (⟨v, present, blocked⟩ | found)
    · exact ⟨v, present, Or.inl blocked⟩
    · obtain ⟨w, found⟩ := Option.isSome_iff_exists.mp found
      obtain ⟨v, present, rest⟩ := Option.bind_eq_some_iff.mp found
      exact ⟨v, present, Or.inr (rest ▸ rfl)⟩
  · rintro ⟨v, present, blocked | found⟩
    · exact Or.inl ⟨v, present, blocked⟩
    · refine Or.inr ?_
      rw [valueAt?, entry?, entries?, Option.bind_some, present]
      exact found

theorem overrideEntries_placed_congr (key : String) (a b v : Value) (upper lower : Entries)
    (present : upper.get? key = some v) (same : a.override v = b.override v)
    (placed : key ∈ lower.keys) :
    overrideEntries (lower.insert key a) upper = overrideEntries (lower.insert key b) upper := by
  induction upper generalizing lower with
  | nil => cases present
  | cons entry rest ih =>
    obtain ⟨k, u⟩ := entry
    rw [overrideEntries_cons, overrideEntries_cons, Entries.get?_insert, Entries.get?_insert]
    rw [Entries.get?_cons] at present
    by_cases here : k = key
    · subst here
      rw [if_pos rfl] at present
      cases present
      rw [if_pos rfl, if_pos rfl, Entries.insert_insert_self, Entries.insert_insert_self, overAny,
        overAny, same]
    · rw [if_neg (Ne.symm here)] at present
      have kept := Entries.mem_keys_insert key k (overAny (lower.get? k) u) lower (Or.inr placed)
      rw [if_neg here, if_neg here, Entries.insert_comm key k a _ lower here placed,
        Entries.insert_comm key k b _ lower here placed]
      exact ih _ present kept

theorem overrideEntries_insert_congr (key : String) (a b v : Value) (upper lower : Entries)
    (present : upper.get? key = some v) (same : a.override v = b.override v) :
    overrideEntries (lower.insert key a) upper = overrideEntries (lower.insert key b) upper := by
  have placed := Entries.mem_keys_insert key key .null lower (Or.inl rfl)
  -- only new keys depend on the order in which they are set, so this one gets its place beforehand
  calc overrideEntries (lower.insert key a) upper
      = overrideEntries (Entries.insert key a (lower.insert key .null)) upper := by
        rw [Entries.insert_insert_self]
    _ = overrideEntries (Entries.insert key b (lower.insert key .null)) upper :=
        overrideEntries_placed_congr key a b v upper _ present same placed
    _ = overrideEntries (lower.insert key b) upper := by
        rw [Entries.insert_insert_self]

theorem override_withLeaf (above tree a b : Value) (path : List String)
    (decides : above.Decides path) (leafA : a.entries? = none) (leafB : b.entries? = none) :
    (withLeaf a tree path).override above = (withLeaf b tree path).override above := by
  induction path generalizing above tree with
  | nil =>
    calc a.override above = above := override_replaces a above (Or.inl leafA)
      _ = b.override above := (override_replaces b above (Or.inl leafB)).symm
  | cons key path ih =>
    cases shape : above.entries? with
    | none =>
      rw [override_replaces _ above (Or.inr shape), override_replaces _ above (Or.inr shape)]
    | some upper =>
      obtain rfl := eq_object above upper shape
      obtain ⟨v, present, deeper⟩ := (decides_object upper key path).mp decides
      have same := ih v ((tree.entry? key).getD .null) deeper
      exact congrArg object (overrideEntries_insert_congr key _ _ v upper _ present same)

theorem get?_withEdits (below : Value) (layer : Entries) (key : String)
    (other : key ≠ "variants") : (withEdits below layer).get? key = layer.get? key := by
  rw [withEdits]
  split
  · rw [Entries.get?_insert, if_neg other]
  · rfl

theorem withEdits_congr (below other : Value) (layer : Entries)
    (same : below.entry? "variants" = other.entry? "variants") :
    withEdits below layer = withEdits other layer := by
  have edited : editedEntry below = editedEntry other := by
    funext entry
    rw [editedEntry, editedEntry, inheritedVariants, inheritedVariants, same]
  rw [withEdits, withEdits, edited]

theorem overrideLayer_withLeaf (layer : Entries) (tree a b : Value) (key : String)
    (path : List String) (other : key ≠ "variants")
    (decides : (object layer).Decides (key :: path)) (leafA : a.entries? = none)
    (leafB : b.entries? = none) :
    (withLeaf a tree (key :: path)).overrideLayer layer =
      (withLeaf b tree (key :: path)).overrideLayer layer := by
  have variants : Value.entry? (withLeaf a tree (key :: path)) "variants" =
      Value.entry? (withLeaf b tree (key :: path)) "variants" := by
    simp only [withLeaf, entry?, entries?, Option.bind_some, Entries.get?_insert, if_neg other.symm]
  rw [overrideLayer, overrideLayer, withEdits_congr _ _ layer variants]
  apply override_withLeaf _ tree a b (key :: path) _ leafA leafB
  rw [decides_object, get?_withEdits _ layer key other]
  exact (decides_object layer key path).mp decides

end Value

end StyleLayers
