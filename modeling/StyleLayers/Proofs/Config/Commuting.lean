import StyleLayers.Proofs.Config.Descending
import StyleLayers.Proofs.Config.Repeating
import StyleLayers.Proofs.Json.Alike

/-!
Layers that do not conflict, laid over the same tree in either order. What comes out differs at most
in the order of keys, and no later layer and no look-up turns this into another difference.
-/

namespace StyleLayers

namespace Value

theorem overAny_uniqueKeys (below : Option Value) (above : Value)
    (uniqueBelow : ∀ v ∈ below, v.UniqueKeys) (unique : above.UniqueKeys) :
    (overAny below above).UniqueKeys := by
  cases below with
  | none => exact unique
  | some below => exact override_uniqueKeys below (uniqueBelow below rfl) above unique

theorem uniqueKeys_at (below : Option Value) (key : String)
    (unique : ∀ v ∈ below, v.UniqueKeys) :
    ∀ v ∈ below.bind (Value.entry? · key), v.UniqueKeys := by
  intro v found
  obtain ⟨tree, rfl, inside⟩ := Option.bind_eq_some_iff.mp found
  obtain ⟨entries, mapping, present⟩ := Option.bind_eq_some_iff.mp inside
  obtain rfl := eq_object tree entries mapping
  exact uniqueKeys_of_get? entries key v (unique _ rfl) present

namespace Alike

theorem of_entry? {v w : Value} (mapping : ∃ entries, v = .object entries)
    (mappingOther : ∃ entries, w = .object entries) (unique : v.UniqueKeys)
    (uniqueOther : w.UniqueKeys) (each : ∀ key, Option.Rel Alike (v.entry? key) (w.entry? key)) :
    Alike v w := by
  obtain ⟨entries, rfl⟩ := mapping
  obtain ⟨others, rfl⟩ := mappingOther
  exact of_get? unique.1 uniqueOther.1 each

theorem overAny {above other : Value} (same : Alike above other) (unique : above.UniqueKeys)
    (uniqueOther : other.UniqueKeys) (below lower : Option Value)
    (sameBelow : Option.Rel Alike below lower) (uniqueBelow : ∀ v ∈ below, v.UniqueKeys)
    (uniqueLower : ∀ v ∈ lower, v.UniqueKeys) :
    Alike (overAny below above) (overAny lower other) := by
  induction same generalizing below lower with
  | object entries others keys each ih =>
    refine of_entry? (overAny_object below entries) (overAny_object lower others)
      (overAny_uniqueKeys below _ uniqueBelow unique)
      (overAny_uniqueKeys lower _ uniqueLower uniqueOther) fun key => ?_
    have inside : Option.Rel Alike (below.bind (Value.entry? · key))
        (lower.bind (Value.entry? · key)) :=
      any_bind _ sameBelow fun x y alike => alike.entry? key
    have both := get? (.object entries others keys each) key
    rw [entry?_overAny below entries unique.1, entry?_overAny lower others uniqueOther.1]
    cases found : entries.get? key with
    | none =>
      rw [found] at both
      cases other : others.get? key with
      | none => exact inside
      | some w => simpa [other] using any_isSome both
    | some v =>
      cases other : others.get? key with
      | none => simpa [found, other] using any_isSome both
      | some w =>
        exact .some (ih key v w found other (uniqueKeys_of_get? entries key v unique found)
          (uniqueKeys_of_get? others key w uniqueOther other) _ _ inside
          (uniqueKeys_at below key uniqueBelow) (uniqueKeys_at lower key uniqueLower))
  | array items others length each =>
    rw [overAny_leaf below _ rfl, overAny_leaf lower _ rfl]
    exact .array items others length each
  | _ =>
    rw [overAny_leaf below _ rfl, overAny_leaf lower _ rfl]
    exact refl _

end Alike

/-- Mappings whose shared keys have compatible values, or values that are no mappings and are equal,
up to the order of keys inside them. -/
inductive Compatible : Value → Value → Prop
  | leaf (v w : Value) (nonmapping : v.entries? = none) (same : Alike v w) : Compatible v w
  | mappings (entries others : Entries) (shared : ∀ key v w, entries.get? key = some v →
    others.get? key = some w → Compatible v w) : Compatible (.object entries) (.object others)

namespace Compatible

theorem symm {v w : Value} (compatible : Compatible v w) : Compatible w v := by
  induction compatible with
  | leaf v w nonmapping same => exact .leaf w v (same.leaf nonmapping) same.symm
  | mappings entries others _ ih =>
    exact .mappings others entries fun key v w found other => ih key w v other found

theorem of_entries (entries others : Entries)
    (each : ∀ entry ∈ entries, ∀ w, others.get? entry.1 = some w → Compatible entry.2 w) :
    Compatible (.object entries) (.object others) :=
  .mappings entries others fun key v w found other =>
    each (key, v) (Entries.mem_of_get? entries key v found) w other

theorem overAny_comm {v w : Value} (compatible : Compatible v w) (below : Option Value)
    (uniqueBelow : ∀ u ∈ below, u.UniqueKeys) (unique : v.UniqueKeys)
    (uniqueOther : w.UniqueKeys) :
    Alike ((overAny below v).override w) ((overAny below w).override v) := by
  induction compatible generalizing below with
  | leaf v w nonmapping same =>
    rw [override_replaces _ w (Or.inr (same.leaf nonmapping)),
      override_replaces _ v (Or.inr nonmapping)]
    exact same.symm
  | mappings entries others _ ih =>
    have uniqueFirst := overAny_uniqueKeys below _ uniqueBelow unique
    have uniqueSecond := overAny_uniqueKeys below _ uniqueBelow uniqueOther
    refine Alike.of_entry? (overAny_object (some _) others) (overAny_object (some _) entries)
      (override_uniqueKeys _ uniqueFirst _ uniqueOther)
      (override_uniqueKeys _ uniqueSecond _ unique) fun key => ?_
    change Option.Rel Alike
      (Value.entry? (overAny (some (overAny below (.object entries))) (.object others)) key)
      (Value.entry? (overAny (some (overAny below (.object others))) (.object entries)) key)
    rw [entry?_overAny _ others uniqueOther.1, entry?_overAny _ entries unique.1, Option.bind_some,
      Option.bind_some, entry?_overAny below entries unique.1,
      entry?_overAny below others uniqueOther.1]
    cases found : entries.get? key with
    | none =>
      cases others.get? key with
      | none => exact Alike.any_refl _
      | some w => exact Alike.any_refl _
    | some v =>
      cases other : others.get? key with
      | none => exact Alike.any_refl _
      | some w =>
        exact .some (ih key v w found other _ (uniqueKeys_at below key uniqueBelow)
          (uniqueKeys_of_get? entries key v unique found)
          (uniqueKeys_of_get? others key w uniqueOther other))

end Compatible

theorem Alike.string? {v w : Value} (same : Alike v w) : v.string? = w.string? := by
  cases same with
  | _ => rfl

theorem Alike.variants {v w : Value} (same : Alike v w) :
    Variants.ofValue v = Variants.ofValue w := by
  cases same with
  | array items others length each =>
    have strings : items.map Value.string? = others.map Value.string? := by
      apply List.ext_getElem (by simpa using length)
      intro i inside insideOther
      rw [List.length_map] at inside insideOther
      simp only [List.getElem_map]
      exact (each i _ _ (List.getElem?_eq_getElem inside)
        (List.getElem?_eq_getElem insideOther)).string?
    have names : items.filterMap Value.string? = others.filterMap Value.string? := by
      simpa [List.filterMap_map] using congrArg (List.filterMap id) strings
    rw [Variants.ofValue, Variants.ofValue, names]
  | _ => rfl

theorem Alike.ofSection {v w : Option Value} (same : Option.Rel Alike v w) :
    VariantState.ofSection v = VariantState.ofSection w := by
  cases same with
  | none => rfl
  | some same =>
    cases same with
    | array items others length each =>
      exact congrArg VariantState.flat (Alike.array items others length each).variants
    | object entries others keys each =>
      apply congrArg VariantState.keyed
      funext key
      have both := Alike.get? (.object entries others keys each) key
      revert both
      generalize entries.get? key = found
      generalize others.get? key = other
      intro both
      cases both with
      | none => rfl
      | some inside => exact congrArg some inside.variants
    | _ => rfl

theorem Alike.withEdits {below lower : Value} (same : Alike below lower) (layer : Entries) :
    Value.withEdits below layer = Value.withEdits lower layer := by
  have inherited : below.inheritedVariants = lower.inheritedVariants := by
    funext key
    rw [VariantState.inheritedVariants_eq, VariantState.inheritedVariants_eq, VariantState.ofRoot,
      VariantState.ofRoot, Alike.ofSection (same.entry? "variants")]
  have edited : editedEntry below = editedEntry lower := by
    funext entry
    rw [editedEntry, editedEntry, inherited]
  rw [Value.withEdits, Value.withEdits, edited]

theorem overlaid_uniqueKeys (below layer : Value) (uniqueBelow : below.UniqueKeys)
    (unique : layer.UniqueKeys) : (below.overlaid layer).UniqueKeys := by
  cases layer with
  | object entries => exact overrideLayer_uniqueKeys below entries uniqueBelow unique
  | _ => exact uniqueBelow

theorem foldl_overlaid_uniqueKeys (layers : List Value) (below : Value)
    (uniqueBelow : below.UniqueKeys) (unique : ∀ layer ∈ layers, layer.UniqueKeys) :
    (layers.foldl overlaid below).UniqueKeys := by
  induction layers generalizing below with
  | nil => exact uniqueBelow
  | cons layer rest ih =>
    obtain ⟨first, later⟩ := List.forall_mem_cons.mp unique
    exact ih _ (overlaid_uniqueKeys below layer uniqueBelow first) later

theorem Alike.overlaid {below lower : Value} (same : Alike below lower) (layer : Value)
    (uniqueBelow : below.UniqueKeys) (uniqueLower : lower.UniqueKeys) (unique : layer.UniqueKeys) :
    Alike (below.overlaid layer) (lower.overlaid layer) := by
  cases layer with
  | object entries =>
    have edited := withEdits_uniqueKeys below entries unique
    have laid := (Alike.refl (.object (Value.withEdits below entries))).overAny edited edited
      (some below) (some lower) (.some same) (by simpa using uniqueBelow)
      (by simpa using uniqueLower)
    change Alike (below.override _) (lower.override _)
    rw [← same.withEdits]
    exact laid
  | _ => exact same

/-- No entry of the variants section is an edit. -/
def EditFree (layer : Value) : Prop :=
  ∀ entries, layer.entry? "variants" = some (.object entries) →
    ∀ entry ∈ entries, VariantEdit.ofValue? entry.2 = none

theorem withEdits_of_editFree (below : Value) (layer : Entries) (free : (object layer).EditFree) :
    withEdits below layer = layer := by
  rw [withEdits]
  split
  · next entries found =>
    have same : entries.map (editedEntry below) = entries := by
      refine (List.map_congr_left fun entry inside => ?_).trans (List.map_id entries)
      rw [editedEntry, free entries found entry inside]
      rfl
    rw [same]
    exact Entries.insert_same "variants" _ layer found
  · rfl

/-- A mapping that is laid over a tree as it stands. -/
structure IsPlainLayer (v : Value) : Prop where
  mapping : ∃ entries, v = .object entries
  unique : v.UniqueKeys
  free : v.EditFree

theorem IsPlainLayer.overlaid {layer : Value} (plain : layer.IsPlainLayer) (below : Value) :
    below.overlaid layer = below.override layer := by
  obtain ⟨entries, rfl⟩ := plain.mapping
  exact congrArg (below.override ∘ object) (withEdits_of_editFree below entries plain.free)

theorem Alike.foldl_overlaid {below lower : Value} (same : Alike below lower) (layers : List Value)
    (uniqueBelow : below.UniqueKeys) (uniqueLower : lower.UniqueKeys)
    (unique : ∀ layer ∈ layers, layer.UniqueKeys) :
    Alike (layers.foldl Value.overlaid below) (layers.foldl Value.overlaid lower) := by
  induction layers generalizing below lower with
  | nil => exact same
  | cons layer rest ih =>
    obtain ⟨first, later⟩ := List.forall_mem_cons.mp unique
    exact ih (same.overlaid layer uniqueBelow uniqueLower first)
      (overlaid_uniqueKeys below layer uniqueBelow first)
      (overlaid_uniqueKeys lower layer uniqueLower first) later

theorem overlaid_comm (first second below : Value) (plainFirst : first.IsPlainLayer)
    (plainSecond : second.IsPlainLayer) (compatible : Compatible first second)
    (uniqueBelow : below.UniqueKeys) :
    Alike ((below.overlaid first).overlaid second) ((below.overlaid second).overlaid first) := by
  rw [plainFirst.overlaid, plainSecond.overlaid, plainSecond.overlaid, plainFirst.overlaid]
  exact compatible.overAny_comm (some below) (by simpa using uniqueBelow) plainFirst.unique
    plainSecond.unique

theorem foldl_overlaid_perm {layers others : List Value} (order : layers.Perm others)
    (below : Value) (uniqueBelow : below.UniqueKeys) (plain : ∀ layer ∈ layers, layer.IsPlainLayer)
    (compatible : layers.Pairwise Compatible) :
    Alike (layers.foldl overlaid below) (others.foldl overlaid below) := by
  induction order generalizing below with
  | nil => exact .refl below
  | cons layer _ ih =>
    obtain ⟨first, later⟩ := List.forall_mem_cons.mp plain
    exact ih _ (overlaid_uniqueKeys below layer uniqueBelow first.unique) later
      (List.pairwise_cons.mp compatible).2
  | swap second first rest =>
    obtain ⟨plainFirst, others⟩ := List.forall_mem_cons.mp plain
    obtain ⟨plainSecond, plainRest⟩ := List.forall_mem_cons.mp others
    have both := (List.pairwise_cons.mp compatible).1 second List.mem_cons_self
    have swapped := overlaid_comm first second below plainFirst plainSecond both uniqueBelow
    refine swapped.foldl_overlaid rest ?_ ?_ fun layer member => (plainRest layer member).unique
    · exact overlaid_uniqueKeys _ second
        (overlaid_uniqueKeys below first uniqueBelow plainFirst.unique) plainSecond.unique
    · exact overlaid_uniqueKeys _ first
        (overlaid_uniqueKeys below second uniqueBelow plainSecond.unique) plainFirst.unique
  | @trans layers between others order _ ih ihOther =>
    have plainBetween : ∀ layer ∈ between, layer.IsPlainLayer :=
      fun layer member => plain layer (order.mem_iff.mpr member)
    have compatibleBetween := order.pairwise compatible fun both => both.symm
    exact (ih below uniqueBelow plain compatible).trans
      (ihOther below uniqueBelow plainBetween compatibleBetween)

theorem Alike.child? {v w : Value} (same : Alike v w) (key : String) :
    Option.Rel Alike (v.child? key) (w.child? key) := by
  cases same with
  | object entries others keys each => exact get? (.object entries others keys each) key
  | array items others length each =>
    change Option.Rel Alike ((Path.position? key).bind (items[·]?))
      ((Path.position? key).bind (others[·]?))
    cases Path.position? key with
    | none => exact .none
    | some i =>
      rw [Option.bind_some, Option.bind_some]
      by_cases inside : i < items.length
      · have found := List.getElem?_eq_getElem inside
        have other := List.getElem?_eq_getElem (length ▸ inside)
        rw [found, other]
        exact .some (each i _ _ found other)
      · rw [List.getElem?_eq_none (Nat.le_of_not_lt inside),
          List.getElem?_eq_none (length ▸ Nat.le_of_not_lt inside)]
        exact .none
  | _ => exact .none

theorem Alike.descend? {v w : Value} (same : Alike v w) (keys : List String) :
    Option.Rel Alike (v.descend? keys) (w.descend? keys) := by
  induction keys generalizing v w with
  | nil => exact .some same
  | cons key keys ih => exact any_bind _ (same.child? key) fun x y inside => ih inside

theorem Alike.valueAt? {v w : Value} (same : Alike v w) (path : List String) :
    Option.Rel Alike (v.valueAt? path) (w.valueAt? path) := by
  induction path generalizing v w with
  | nil => exact .some same
  | cons key path ih => exact any_bind _ (same.entry? key) fun x y inside => ih inside

end Value

end StyleLayers
