import StyleLayers.Config.Basic
import StyleLayers.Proofs.Config.Distinct
import StyleLayers.Proofs.Config.PathReading
import StyleLayers.Proofs.Variant.Editing

/-!
What layers of configuration make of the variants. Each layer either leaves them alone, replaces
them by one list for all keys, or sets the lists of some keys; the tree that the layers resolve to
is read as one of the states that this leads through.
-/

namespace StyleLayers

namespace Variants

theorem ofValue_toValue (l : Variants) : ofValue l.toValue = l := by
  have strings : (l.names.map Value.string).filterMap Value.string? = l.names := by
    rw [List.filterMap_map]
    exact List.filterMap_some
  apply ext
  rw [toValue, ofValue, strings]
  exact names_pushAll empty l.names l.nodup l.empty_notMem

end Variants

/-- What the layers up to some point say about variants. -/
inductive VariantState where
  | unset
  | flat (list : Variants)
  | keyed (lists : String → Option Variants)

namespace VariantState

def list? : VariantState → String → Option Variants
  | unset, _ => none
  | flat list, _ => some list
  | keyed lists, key => lists key

def kept? : VariantState → String → Option Variants
  | keyed lists, key => lists key
  | _, _ => none

def entryList (s : VariantState) (key : String) (entry : Value) : Variants :=
  match VariantEdit.ofValue? entry with
  | some edit => edit.apply ((s.list? key).getD .empty)
  | none => Variants.ofValue entry

def next (s : VariantState) : Option Value → VariantState
  | some (.array items) => flat (Variants.ofValue (.array items))
  | some (.object entries) => keyed fun key =>
    match Entries.get? entries key with
    | some entry => some (s.entryList key entry)
    | none => s.kept? key
  | _ => s

def afterLayers (layers : List Value) : VariantState :=
  layers.foldl (fun s layer => s.next (layer.entry? "variants")) unset

def ofSection : Option Value → VariantState
  | some (.array items) => flat (Variants.ofValue (.array items))
  | some (.object entries) => keyed fun key => (Entries.get? entries key).map Variants.ofValue
  | _ => unset

def ofRoot (root : Value) : VariantState := ofSection (root.entry? "variants")

end VariantState

def Value.overlayPlain (below : Value) : Value → Value
  | .null => below
  | layer => below.override layer

/-- An entry of a variants section: a list, or an edit of the list below. -/
inductive IsVariantsEntry : Value → Prop
  | list (items : List Value) : IsVariantsEntry (.array items)
  | edit (v : Value) (e : VariantEdit) (reads : VariantEdit.ofValue? v = some e) : IsVariantsEntry v

/-- A variants section, or none: one list, or a mapping of keys to lists and edits. -/
inductive IsVariantsSection : Option Value → Prop
  | absent : IsVariantsSection none
  | flat (items : List Value) : IsVariantsSection (some (.array items))
  | keyed (entries : Entries) (each : ∀ entry ∈ entries, IsVariantsEntry entry.2) :
    IsVariantsSection (some (.object entries))

/-- A layer that may be null and otherwise is a mapping with such a section. -/
inductive IsLayer : Value → Prop
  | null : IsLayer .null
  | mapping (entries : Entries) (unique : (Value.object entries).UniqueKeys)
    (variants : IsVariantsSection (entries.get? "variants")) : IsLayer (.object entries)

namespace VariantState

theorem inheritedVariants_eq (below : Value) (key : String) :
    below.inheritedVariants key = ((ofRoot below).list? key).getD .empty := by
  rw [Value.inheritedVariants, ofRoot]
  rcases below.entry? "variants" with _ | (_ | _ | _ | _ | items | entries)
  all_goals rfl

theorem kept?_ofSection (found : Option Value) (key : String) :
    (ofSection found).kept? key = (found.bind (Value.entry? · key)).map Variants.ofValue := by
  rcases found with _ | (_ | _ | _ | _ | items | entries)
  all_goals rfl

theorem ofSection_overAny (below : Option Value) (entries : Entries) :
    ofSection (some (Value.overAny below (.object entries))) =
      keyed fun key =>
        (Value.entry? (Value.overAny below (.object entries)) key).map Variants.ofValue := by
  rcases below with _ | (_ | _ | _ | _ | items | lower)
  all_goals rfl

theorem editedEntry_snd (below : Value) (key : String) (entry : Value)
    (valid : IsVariantsEntry entry) :
    ∃ items, (Value.editedEntry below (key, entry)).2 = .array items ∧
      Variants.ofValue (.array items) = (ofRoot below).entryList key entry := by
  cases valid with
  | list items => exact ⟨items, rfl, rfl⟩
  | edit _ edit reads =>
    have same : (Value.editedEntry below (key, entry)).2 =
        (edit.apply (below.inheritedVariants key)).toValue := by
      rw [Value.editedEntry, reads]
    refine ⟨_, same, ?_⟩
    rw [entryList, reads, ← inheritedVariants_eq]
    exact Variants.ofValue_toValue _

theorem ofSection_keyed (below : Value) (entries : Entries) (distinct : entries.keys.Nodup)
    (each : ∀ entry ∈ entries, IsVariantsEntry entry.2) :
    ofSection (some (Value.overAny (below.entry? "variants")
        (.object (entries.map (Value.editedEntry below))))) =
      (ofRoot below).next (some (.object entries)) := by
  have distinctEdited : (Entries.keys (entries.map (Value.editedEntry below))).Nodup := by
    rw [Entries.keys_map _ (Value.editedEntry_fst below)]
    exact distinct
  rw [ofSection_overAny]
  apply congrArg keyed
  funext key
  rw [Value.entry?_overAny _ _ distinctEdited, Entries.get?_map _ (Value.editedEntry_fst below)]
  cases found : Entries.get? entries key with
  | none => exact (kept?_ofSection _ key).symm
  | some entry =>
    have valid := each _ (Entries.mem_of_get? entries key entry found)
    obtain ⟨items, edited, lists⟩ := editedEntry_snd below key entry valid
    rw [Option.map_some, edited]
    have onTop : Value.overAny ((below.entry? "variants").bind (Value.entry? · key))
        (.array items) = .array items := Value.overAny_leaf _ _ rfl
    exact congrArg some ((congrArg Variants.ofValue onTop).trans lists)

theorem entry?_overrideLayer (below : Value) (layer : Entries)
    (unique : (Value.object layer).UniqueKeys) :
    Value.entry? (below.overrideLayer layer) "variants" =
      match (Value.withEdits below layer).get? "variants" with
      | some v => some (Value.overAny (below.entry? "variants") v)
      | none => below.entry? "variants" :=
  Value.entry?_overAny (some below) _ (Value.withEdits_uniqueKeys below layer unique).1 "variants"

theorem ofRoot_overrideLayer (below : Value) (layer : Entries)
    (unique : (Value.object layer).UniqueKeys)
    (valid : IsVariantsSection (layer.get? "variants")) :
    ofRoot (below.overrideLayer layer) = (ofRoot below).next (layer.get? "variants") := by
  rw [ofRoot, entry?_overrideLayer below layer unique, Value.withEdits]
  generalize shape : layer.get? "variants" = found at valid ⊢
  cases valid with
  | absent =>
    rw [shape]
    rfl
  | flat items =>
    rw [shape]
    exact congrArg (fun v => ofSection (some v)) (Value.overAny_leaf _ (.array items) rfl)
  | keyed entries each =>
    have distinct := (Value.uniqueKeys_of_get? layer "variants" _ unique shape).1
    rw [Entries.get?_insert, if_pos rfl]
    exact ofSection_keyed below entries distinct each

theorem variants?_eq (c : Config) (key : String) (plain : Path.keys key = [key]) :
    c.variants? key = (ofRoot c.root).list? key := by
  rw [Config.variants?, Config.globalVariants?, Config.keyedVariants?, ofRoot]
  rcases c.root.entry? "variants" with _ | (_ | _ | _ | _ | items | entries)
  case some.object =>
    have found : (Value.object entries).at? key = Entries.get? entries key := by
      rw [Value.at?, plain, Value.descend?, Value.child?]
      exact Option.bind_fun_some _
    exact congrArg (Option.map Variants.ofValue) found
  all_goals rfl

theorem overlayPlain_without (below layer : Value) :
    (below.overlayPlain layer).without "variants" =
      (below.without "variants").overlayPlain (layer.without "variants") := by
  cases layer with
  | null => rfl
  | _ => exact Value.override_without "variants" below _

theorem overrideLayer_without (below : Value) (layer : Entries) :
    (below.overrideLayer layer).without "variants" =
      (below.without "variants").overlayPlain ((Value.object layer).without "variants") := by
  have others : (Value.object (Value.withEdits below layer)).without "variants" =
      (Value.object layer).without "variants" := by
    rw [Value.withEdits]
    split
    · exact congrArg Value.object (Entries.without_insert_self "variants" _ layer)
    · rfl
  rw [Value.overrideLayer, Value.override_without, others]
  rfl

theorem overlay_follows (below layer : Value) (index : Nat) (valid : IsLayer layer) :
    ∃ root, Config.overlay below index layer = .ok root ∧
      ofRoot root = (ofRoot below).next (layer.entry? "variants") ∧
      root.without "variants" =
        (below.without "variants").overlayPlain (layer.without "variants") := by
  cases valid with
  | null => exact ⟨below, rfl, rfl, rfl⟩
  | mapping entries unique variants =>
    exact ⟨below.overrideLayer entries, rfl, ofRoot_overrideLayer below entries unique variants,
      overrideLayer_without below entries⟩

theorem resolveFrom_follows (layers : List Value) (valid : ∀ layer ∈ layers, IsLayer layer)
    (below : Value) (index : Nat) :
    ∃ root, Config.resolveFrom below index layers = .ok root ∧
      ofRoot root = layers.foldl (fun s layer => s.next (layer.entry? "variants")) (ofRoot below) ∧
      root.without "variants" =
        (layers.map (Value.without "variants")).foldl Value.overlayPlain
          (below.without "variants") := by
  induction layers generalizing below index with
  | nil => exact ⟨below, rfl, rfl, rfl⟩
  | cons layer rest ih =>
    obtain ⟨validFirst, validRest⟩ := List.forall_mem_cons.mp valid
    obtain ⟨next, laid, state, others⟩ := overlay_follows below layer index validFirst
    obtain ⟨root, resolved, stateRest, othersRest⟩ := ih validRest next (index + 1)
    refine ⟨root, ?_, ?_, ?_⟩
    · rw [Config.resolveFrom, laid]
      exact resolved
    · rw [stateRest, state, List.foldl_cons]
    · rw [othersRest, others, List.map_cons, List.foldl_cons]

theorem resolveFrom_without (layers : List Value) (valid : ∀ layer ∈ layers, IsLayer layer)
    (below : Value) (index : Nat) :
    Config.resolveFrom below index (layers.map (Value.without "variants")) =
      .ok ((layers.map (Value.without "variants")).foldl Value.overlayPlain below) := by
  induction layers generalizing below index with
  | nil => rfl
  | cons layer rest ih =>
    obtain ⟨validFirst, validRest⟩ := List.forall_mem_cons.mp valid
    have laid : Config.overlay below index (layer.without "variants") =
        .ok (below.overlayPlain (layer.without "variants")) := by
      cases validFirst with
      | null => rfl
      | mapping entries unique variants =>
        rw [Value.without, Config.overlay, Value.overrideLayer, Value.withEdits,
          Entries.get?_without_self]
        rfl
    rw [List.map_cons, Config.resolveFrom, laid, List.foldl_cons]
    exact ih validRest _ _

/-- Whatever the layers, they resolve; the variants are those of the last state, and all else is
what laying the layers over each other gives, with or without their variants sections. -/
theorem resolve_follows_layers (layers : List Value) (valid : ∀ layer ∈ layers, IsLayer layer) :
    ∃ c, Config.resolve layers = .ok c ∧
      (∀ key : String, key ≠ "" → '.' ∉ key.toList → '[' ∉ key.toList →
        c.variants? key = (afterLayers layers).list? key) ∧
      c.root.without "variants" =
        (layers.foldl Value.overlayPlain (.object [])).without "variants" ∧
      Config.resolve (layers.map (Value.without "variants")) =
        .ok ⟨c.root.without "variants"⟩ := by
  obtain ⟨root, resolved, state, others⟩ := resolveFrom_follows layers valid (.object []) 0
  have plain : (layers.foldl Value.overlayPlain (.object [])).without "variants" =
      (layers.map (Value.without "variants")).foldl Value.overlayPlain (.object []) := by
    calc (layers.foldl Value.overlayPlain (.object [])).without "variants"
        = layers.foldl (fun below layer => below.overlayPlain (layer.without "variants"))
            ((Value.object []).without "variants") :=
          (List.foldl_hom _ fun below layer => (overlayPlain_without below layer).symm).symm
      _ = (layers.map (Value.without "variants")).foldl Value.overlayPlain (.object []) :=
          List.foldl_map.symm
  refine ⟨⟨root⟩, ?_, ?_, ?_, ?_⟩
  · rw [Config.resolve, resolved]
    rfl
  · intro key nonempty noDot noBracket
    rw [variants?_eq _ key (Path.keys_plain key nonempty noDot noBracket), state]
    rfl
  · rw [others, plain]
    rfl
  · rw [Config.resolve, resolveFrom_without layers valid, others]
    rfl

theorem resolve_follows_flat_then_keyed :
    let layers : List Value :=
      [.object [("variants", .array [.string "hover", .string "focus"])], .null,
        .object [("prefix", .string "x"), ("variants", .object
          [("opacity", .object [("without", .array [.string "focus"])]),
            ("size", .array [.string "first"])])],
        .object [("variants", .object [("opacity", .object
          [("before", .array [.string "active"]), ("anchor", .string "hover")])])]]
    (∀ layer ∈ layers, IsLayer layer) ∧
      ∃ c, Config.resolve layers = .ok c ∧
        c.variants? "opacity" = some (Variants.ofList ["active", "hover"]) ∧
        c.variants? "size" = some (Variants.ofList ["first"]) ∧ c.variants? "float" = none ∧
        c.root.without "variants" = .object [("prefix", .string "x")] := by
  intro layers
  have valid : ∀ layer ∈ layers, IsLayer layer := by
    intro layer member
    simp only [layers, List.mem_cons, List.not_mem_nil, or_false] at member
    rcases member with rfl | rfl | rfl | rfl
    · exact .mapping _ (by decide) (.flat _)
    · exact .null
    · refine .mapping _ (by decide) (.keyed _ ?_)
      intro entry inside
      rcases List.mem_cons.mp inside with rfl | inside
      · exact .edit _ (.without ["focus"]) rfl
      · rcases List.mem_singleton.mp inside with rfl
        exact .list _
    · refine .mapping _ (by decide) (.keyed _ ?_)
      intro entry inside
      rcases List.mem_singleton.mp inside with rfl
      exact .edit _ (.before ["active"] (some "hover")) rfl
  obtain ⟨c, resolved, lists, others, _⟩ := resolve_follows_layers layers valid
  refine ⟨valid, c, resolved, ?_, ?_, ?_, others⟩
  · rw [lists "opacity" (by decide) (by decide) (by decide)]
    rfl
  · rw [lists "size" (by decide) (by decide) (by decide)]
    rfl
  · rw [lists "float" (by decide) (by decide) (by decide)]
    rfl

end VariantState

end StyleLayers
