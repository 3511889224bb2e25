import StyleLayers.Proofs.Json.Keys
import StyleLayers.Variant.Edit

/-!
Edits of variant lists as mappings. A value is read as an edit exactly when it is a mapping of the
shape that an edit is written in, and it is then that edit.
-/

namespace StyleLayers

namespace Entries

/-- What is found at a key, null counted as absent. -/
def given? (entries : Entries) (key : String) : Option Value :=
  (entries.get? key).filter fun v => v.kind ≠ .null

theorem get?_perm {entries others : Entries} (order : entries.Perm others)
    (distinct : others.keys.Nodup) (key : String) : entries.get? key = others.get? key := by
  have keys : entries.keys.Perm others.keys := order.map Prod.fst
  cases found : others.get? key with
  | none =>
    rw [get?_eq_none_iff] at found ⊢
    exact fun member => found (keys.mem_iff.mp member)
  | some v =>
    have inside := order.mem_iff.mpr (mem_of_get? others key v found)
    exact get?_of_mem entries (keys.nodup_iff.mpr distinct) (key, v) inside

end Entries

namespace VariantEdit

def operationNames : List String := ["without", "extend", "before", "after"]

theorem forall_operation {holds : String → Prop} : (∀ operation ∈ operationNames, holds operation) ↔
    holds "without" ∧ holds "extend" ∧ holds "before" ∧ holds "after" := by
  simp [operationNames]

def operation : VariantEdit → String
  | without _ => "without"
  | extend _ => "extend"
  | before _ _ => "before"
  | after _ _ => "after"

theorem operation_mem (e : VariantEdit) : e.operation ∈ operationNames := by
  cases e <;> simp [operationNames, operation]

def listOf (names : List String) : Value := .array (names.map .string)

def toEntries (e : VariantEdit) : Entries :=
  (e.operation, listOf e.names) :: (e.anchor?.map fun anchor => ("anchor", .string anchor)).toList

/-- The keys are known, and what is given under them is what the edit is written as. -/
structure Spells (entries : Entries) (e : VariantEdit) : Prop where
  known : ∀ key ∈ entries.keys, key ∈ ["without", "extend", "before", "after", "anchor"]
  operations : ∀ key ∈ operationNames,
    entries.given? key = if key = e.operation then some (listOf e.names) else none
  anchor : entries.given? "anchor" = e.anchor?.map .string

theorem string?_eq_some_iff (v : Value) (s : String) : v.string? = some s ↔ v = .string s := by
  cases v <;> simp [Value.string?]

theorem mapM_string?_eq_some_iff (items : List Value) (names : List String) :
    items.mapM Value.string? = some names ↔ items = names.map .string := by
  induction items generalizing names with
  | nil => cases names <;> simp
  | cons v items ih =>
    rw [List.mapM_cons]
    cases names with
    | nil => simp [Option.bind_eq_some_iff]
    | cons name names => simp [Option.bind_eq_some_iff, ih, string?_eq_some_iff]

theorem stringList?_eq_some_iff (v : Value) (names : List String) :
    stringList? v = some names ↔ v = listOf names := by
  cases v with
  | array items => simp [stringList?, listOf, mapM_string?_eq_some_iff]
  | _ => simp [stringList?, listOf]

theorem field_eq_some_iff {α : Type} {decode : Value → Option α} {encode : α → Value}
    (reads : ∀ v x, decode v = some x ↔ v = encode x) (entries : Entries) (key : String)
    (read : Option α) :
    field decode entries key = some read ↔ entries.given? key = read.map encode := by
  unfold field
  split
  · next absent =>
    have given : entries.given? key = none := by simp [Entries.given?, absent]
    cases read <;> simp [given]
  · next null =>
    have given : entries.given? key = none := by simp [Entries.given?, null, Value.kind]
    cases read <;> simp [given]
  · next v other present =>
    have kept : v.kind ≠ .null := by
      intro null
      cases v <;> cases null
      exact other rfl
    have given : entries.given? key = some v := by simp [Entries.given?, present, kept]
    cases read <;> simp [given, reads]

def assembled (w x b a : Option (List String)) (anchor : Option String) : Option VariantEdit :=
  match w, x, b, a, anchor with
  | some ns, none, none, none, none => some (without ns)
  | none, some ns, none, none, none => some (extend ns)
  | none, none, some ns, none, anchor => some (before ns anchor)
  | none, none, none, some ns, anchor => some (after ns anchor)
  | _, _, _, _, _ => none

theorem assembled_eq_some_iff (w x b a : Option (List String)) (anchor : Option String)
    (e : VariantEdit) :
    assembled w x b a anchor = some e ↔
      (w = if "without" = e.operation then some e.names else none) ∧
        (x = if "extend" = e.operation then some e.names else none) ∧
        (b = if "before" = e.operation then some e.names else none) ∧
        (a = if "after" = e.operation then some e.names else none) ∧ anchor = e.anchor? := by
  constructor
  · intro reads
    unfold assembled at reads
    split at reads <;> cases reads <;> exact ⟨rfl, rfl, rfl, rfl, rfl⟩
  · rintro ⟨rfl, rfl, rfl, rfl, rfl⟩
    cases e <;> rfl

theorem ofEntries_eq_some_iff_fields (entries : Entries) (e : VariantEdit) :
    ofEntries entries = some e ↔ (∀ key ∈ entries.keys, key ∈ fieldNames) ∧
      ∃ w, field stringList? entries "without" = some w ∧
      ∃ x, field stringList? entries "extend" = some x ∧
      ∃ b, field stringList? entries "before" = some b ∧
      ∃ a, field stringList? entries "after" = some a ∧
      ∃ anchor, field Value.string? entries "anchor" = some anchor ∧
        assembled w x b a anchor = some e := by
  have unknown : (entries.any fun entry => entry.1 ∉ fieldNames) = true ↔
      ¬∀ key ∈ entries.keys, key ∈ fieldNames := by simp [Entries.keys]
  rw [ofEntries]
  by_cases known : ∀ key ∈ entries.keys, key ∈ fieldNames
  · rw [if_neg fun refused => unknown.mp refused known]
    simp only [Option.bind_eq_bind, Option.bind_eq_some_iff]
    exact (and_iff_right known).symm
  · rw [if_pos (unknown.mpr known)]
    constructor
    · intro reads
      cases reads
    · exact fun fields => absurd fields.1 known

theorem ofEntries_eq_some_iff (entries : Entries) (e : VariantEdit) :
    ofEntries entries = some e ↔ Spells entries e := by
  have lists (key : String) (read : Option (List String)) :=
    field_eq_some_iff stringList?_eq_some_iff entries key read
  have anchors (read : Option String) := field_eq_some_iff string?_eq_some_iff entries "anchor" read
  simp only [ofEntries_eq_some_iff_fields, lists, anchors, assembled_eq_some_iff]
  constructor
  · rintro ⟨known, _, w, _, x, _, b, _, a, _, anchor, rfl, rfl, rfl, rfl, rfl⟩
    refine ⟨known, forall_operation.mpr ?_, anchor⟩
    simp only [apply_ite (Option.map listOf), Option.map_some, Option.map_none] at w x b a
    exact ⟨w, x, b, a⟩
  · rintro ⟨known, operations, anchor⟩
    obtain ⟨w, x, b, a⟩ := forall_operation.mp operations
    refine ⟨known, _, ?_, _, ?_, _, ?_, _, ?_, _, anchor, rfl, rfl, rfl, rfl, rfl⟩
    all_goals
      simp only [apply_ite (Option.map listOf), Option.map_some, Option.map_none]
      assumption

theorem ofValue?_eq_some_iff (v : Value) (e : VariantEdit) :
    ofValue? v = some e ↔ ∃ entries, v = .object entries ∧ Spells entries e := by
  simp only [ofValue?, Option.bind_eq_some_iff, ofEntries_eq_some_iff]
  cases v <;> simp [Value.entries?]

theorem anchor_ne_operation (e : VariantEdit) : "anchor" ≠ e.operation := by
  cases e <;> simp [operation]

theorem keys_toEntries (e : VariantEdit) :
    (toEntries e).keys = if e.anchor? = none then [e.operation] else [e.operation, "anchor"] := by
  unfold toEntries
  cases e.anchor? <;> rfl

theorem keys_toEntries_nodup (e : VariantEdit) : (toEntries e).keys.Nodup := by
  rw [keys_toEntries]
  split
  · simp
  · simpa using (anchor_ne_operation e).symm

theorem given?_toEntries (e : VariantEdit) (key : String) :
    (toEntries e).given? key = if key = e.operation then some (listOf e.names)
      else if key = "anchor" then e.anchor?.map .string else none := by
  rw [toEntries, Entries.given?, Entries.get?_cons]
  split
  · rfl
  · cases e.anchor? with
    | none => split <;> rfl
    | some anchor =>
      rw [Option.map_some, Option.toList_some, Entries.get?_cons]
      split <;> rfl

theorem spells_toEntries (e : VariantEdit) : Spells (toEntries e) e := by
  have known : e.operation ∈ ["without", "extend", "before", "after", "anchor"] :=
    List.mem_append_left ["anchor"] (operation_mem e)
  refine ⟨?_, ?_, ?_⟩
  · rw [keys_toEntries]
    split
    · exact List.forall_mem_singleton.mpr known
    · exact List.forall_mem_cons.mpr ⟨known, by simp⟩
  · intro key isOperation
    have other : key ≠ "anchor" := by
      rintro rfl
      exact absurd isOperation (by decide)
    rw [given?_toEntries, if_neg other]
  · rw [given?_toEntries, if_neg (anchor_ne_operation e), if_pos rfl]

theorem Spells.perm {entries others : Entries} {e : VariantEdit} (spells : Spells others e)
    (order : entries.Perm others) (distinct : others.keys.Nodup) : Spells entries e := by
  have given (key : String) : entries.given? key = others.given? key := by
    rw [Entries.given?, Entries.get?_perm order distinct, Entries.given?]
  refine ⟨?_, ?_, ?_⟩
  · intro key member
    exact spells.known key ((order.map Prod.fst).mem_iff.mp member)
  · intro key isOperation
    rw [given, spells.operations key isOperation]
  · rw [given, spells.anchor]

theorem exists_edit (key : String) (names : List String) (anchor : Option String)
    (isOperation : key ∈ operationNames)
    (anchored : anchor = none ∨ key ∈ ["before", "after"]) :
    ∃ e : VariantEdit, e.operation = key ∧ e.names = names ∧ e.anchor? = anchor := by
  have unanchored (free : key ∉ ["before", "after"]) : anchor = none :=
    anchored.resolve_right free
  simp only [operationNames, List.mem_cons, List.not_mem_nil, or_false] at isOperation
  rcases isOperation with rfl | rfl | rfl | rfl
  · exact ⟨without names, rfl, rfl, (unanchored (by decide)).symm⟩
  · exact ⟨extend names, rfl, rfl, (unanchored (by decide)).symm⟩
  · exact ⟨before names anchor, rfl, rfl, rfl⟩
  · exact ⟨after names anchor, rfl, rfl, rfl⟩

theorem anchored_edit (e : VariantEdit) :
    e.anchor? = none ∨ e.operation ∈ ["before", "after"] ∧ ∃ a, e.anchor? = some a := by
  cases e with
  | without names => exact Or.inl rfl
  | extend names => exact Or.inl rfl
  | before names anchor => cases anchor <;> simp [anchor?, operation]
  | after names anchor => cases anchor <;> simp [anchor?, operation]

/-- A value is read as an edit exactly when it is a mapping with known keys only, of which just one
operation is given, with strings only, and an anchor at most for the last two operations. It is
read as the edit that it spells; and an edit comes back from the mapping that it is written as, in
whatever order the entries are. -/
theorem read_exactly_when_spelled :
    (∀ v : Value, (∃ e, ofValue? v = some e) ↔
        ∃ (entries : Entries) (operation : String) (names : List String),
          v = .object entries ∧
          (∀ key ∈ Entries.keys entries,
            key ∈ ["without", "extend", "before", "after", "anchor"]) ∧
          operation ∈ operationNames ∧
          Entries.given? entries operation = some (.array (names.map .string)) ∧
          (∀ other ∈ operationNames, other ≠ operation → Entries.given? entries other = none) ∧
          (Entries.given? entries "anchor" = none ∨ operation ∈ ["before", "after"] ∧
            ∃ a, Entries.given? entries "anchor" = some (.string a))) ∧
      (∀ (v : Value) (e : VariantEdit),
        ofValue? v = some e ↔ ∃ entries, v = .object entries ∧ Spells entries e) ∧
      ∀ (e : VariantEdit) (entries : Entries), entries.Perm e.toEntries →
        ofValue? (.object entries) = some e := by
  refine ⟨fun v => ⟨?_, ?_⟩, ofValue?_eq_some_iff, ?_⟩
  · rintro ⟨e, reads⟩
    obtain ⟨entries, rfl, spells⟩ := (ofValue?_eq_some_iff v e).mp reads
    refine ⟨entries, e.operation, e.names, rfl, spells.known, operation_mem e, ?_, ?_, ?_⟩
    · rw [spells.operations _ (operation_mem e), if_pos rfl, listOf]
    · intro other isOperation differs
      rw [spells.operations other isOperation, if_neg differs]
    · rw [spells.anchor]
      rcases anchored_edit e with absent | ⟨last, a, present⟩
      · rw [absent]
        exact Or.inl rfl
      · rw [present]
        exact Or.inr ⟨last, a, rfl⟩
  · rintro ⟨entries, key, names, rfl, known, isOperation, given, alone, anchored⟩
    obtain ⟨anchor, found, allowed⟩ : ∃ anchor : Option String,
        Entries.given? entries "anchor" = anchor.map .string ∧
          (anchor = none ∨ key ∈ ["before", "after"]) := by
      rcases anchored with absent | ⟨last, a, present⟩
      · exact ⟨none, absent, Or.inl rfl⟩
      · exact ⟨some a, present, Or.inr last⟩
    obtain ⟨e, rfl, rfl, rfl⟩ := exists_edit key names anchor isOperation allowed
    refine ⟨e, (ofValue?_eq_some_iff _ e).mpr ⟨entries, rfl, known, ?_, found⟩⟩
    intro other otherOperation
    split
    · next same => rw [same, given, listOf]
    · next differs => exact alone other otherOperation differs
  · intro e entries order
    have spells := (spells_toEntries e).perm order (keys_toEntries_nodup e)
    exact (ofValue?_eq_some_iff _ e).mpr ⟨entries, rfl, spells⟩

theorem read_exactly_when_spelled_anchor_first :
    let e := before ["active", "", "active"] (some "focus")
    let entries : Entries := [("anchor", .string "focus"),
      ("before", .array [.string "active", .string "", .string "active"])]
    entries.Perm e.toEntries ∧ ofValue? (.object entries) = some e := by
  intro e entries
  have order : entries.Perm e.toEntries := List.Perm.swap _ _ _
  exact ⟨order, read_exactly_when_spelled.2.2 e entries order⟩

end VariantEdit

end StyleLayers
