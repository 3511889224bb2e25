import StyleLayers.Config.Basic
import StyleLayers.Config.Text
import StyleLayers.Proofs.Config.Overriding
import StyleLayers.Proofs.Json.Reading
import StyleLayers.Proofs.Yaml.Reading

/-!
No configuration has a key twice: not the ones read from text, and not what layers resolve to. What
holds of values without a key twice therefore holds of all that is read and resolved.
-/

namespace StyleLayers

namespace Value

mutual

theorem override_uniqueKeys (below : Value) (uniqueBelow : below.UniqueKeys) :
    (above : Value) → above.UniqueKeys → (below.override above).UniqueKeys
  | .null, unique => unique
  | .bool _, unique => unique
  | .number _, unique => unique
  | .string _, unique => unique
  | .array _, unique => unique
  | .object upper, unique => by
    cases below with
    | object lower => exact overrideEntries_uniqueKeys lower uniqueBelow upper unique.2
    | _ => exact unique

theorem overrideEntries_uniqueKeys (lower : Entries) (uniqueLower : (object lower).UniqueKeys) :
    (upper : List (String × Value)) → UniqueKeysEntries upper →
      (object (overrideEntries lower upper)).UniqueKeys
  | [], _ => uniqueLower
  | (key, v) :: rest, unique => by
    have placed : (overAny (lower.get? key) v).UniqueKeys := by
      cases present : lower.get? key with
      | none => exact unique.1
      | some existing =>
        have uniqueExisting := uniqueKeys_of_get? lower key existing uniqueLower present
        exact override_uniqueKeys existing uniqueExisting v unique.1
    rw [overrideEntries_cons]
    exact overrideEntries_uniqueKeys _ (uniqueKeys_insert lower key _ uniqueLower placed) rest
      unique.2

end

theorem editedEntry_fst (below : Value) (entry : String × Value) :
    (editedEntry below entry).1 = entry.1 := by
  rw [editedEntry]
  cases VariantEdit.ofValue? entry.2 with
  | some edit => rfl
  | none => rfl

theorem editedEntry_uniqueKeys (below : Value) (entry : String × Value)
    (unique : entry.2.UniqueKeys) : (editedEntry below entry).2.UniqueKeys := by
  rw [editedEntry]
  cases VariantEdit.ofValue? entry.2 with
  | none => exact unique
  | some edit =>
    apply (uniqueKeysItems_iff _).mpr
    intro v member
    obtain ⟨name, _, rfl⟩ := List.mem_map.mp member
    trivial

theorem withEdits_uniqueKeys (below : Value) (layer : Entries)
    (unique : (object layer).UniqueKeys) : (object (withEdits below layer)).UniqueKeys := by
  rw [withEdits]
  split
  · next entries found =>
    have uniqueInside := uniqueKeys_of_get? layer "variants" _ unique found
    apply uniqueKeys_insert layer "variants" _ unique
    constructor
    · rw [Entries.keys_map _ (editedEntry_fst below)]
      exact uniqueInside.1
    · apply (uniqueKeysEntries_iff _).mpr
      intro edited member
      obtain ⟨entry, inside, rfl⟩ := List.mem_map.mp member
      exact editedEntry_uniqueKeys below entry
        ((uniqueKeysEntries_iff entries).mp uniqueInside.2 entry inside)
  · exact unique

theorem overrideLayer_uniqueKeys (below : Value) (layer : Entries) (uniqueBelow : below.UniqueKeys)
    (unique : (object layer).UniqueKeys) : (below.overrideLayer layer).UniqueKeys :=
  override_uniqueKeys below uniqueBelow _ (withEdits_uniqueKeys below layer unique)

end Value

namespace Config

theorem overlay_uniqueKeys (below layer next : Value) (index : Nat)
    (uniqueBelow : below.UniqueKeys) (unique : layer.UniqueKeys)
    (laid : overlay below index layer = .ok next) : next.UniqueKeys := by
  cases layer with
  | null =>
    cases laid
    exact uniqueBelow
  | object entries =>
    cases laid
    exact Value.overrideLayer_uniqueKeys below entries uniqueBelow unique
  | _ => cases laid

theorem resolveFrom_uniqueKeys (layers : List Value) (unique : ∀ layer ∈ layers, layer.UniqueKeys)
    (below root : Value) (index : Nat) (uniqueBelow : below.UniqueKeys)
    (resolved : resolveFrom below index layers = .ok root) : root.UniqueKeys := by
  induction layers generalizing below index with
  | nil =>
    cases resolved
    exact uniqueBelow
  | cons layer rest ih =>
    obtain ⟨first, later⟩ := List.forall_mem_cons.mp unique
    rw [resolveFrom] at resolved
    cases laid : overlay below index layer with
    | error e =>
      rw [laid] at resolved
      cases resolved
    | ok next =>
      rw [laid] at resolved
      have uniqueNext := overlay_uniqueKeys below layer next index uniqueBelow first laid
      exact ih later next (index + 1) uniqueNext resolved

theorem resolve_uniqueKeys (layers : List Value) (c : Config)
    (unique : ∀ layer ∈ layers, layer.UniqueKeys) (resolved : resolve layers = .ok c) :
    c.root.UniqueKeys := by
  rw [resolve] at resolved
  cases tree : resolveFrom (.object []) 0 layers with
  | error e =>
    rw [tree] at resolved
    cases resolved
  | ok root =>
    rw [tree] at resolved
    cases resolved
    have nothing : (Value.object []).UniqueKeys := ⟨List.nodup_nil, trivial⟩
    exact resolveFrom_uniqueKeys layers unique _ root 0 nothing tree

theorem readText_uniqueKeys (format : TextFormat) (text : String) (v : Value)
    (readable : readText format text = .ok v) : v.UniqueKeys := by
  have found : readValue? format text = some v := by
    rw [readText] at readable
    cases read : readValue? format text with
    | none =>
      rw [read] at readable
      cases readable
    | some w =>
      rw [read] at readable
      cases readable
      rfl
  cases format with
  | json => exact Json.read?_uniqueKeys Json.nestingLimit text v found
  | yaml => exact Yaml.read?_uniqueKeys text v found

end Config

end StyleLayers
