import StyleLayers.Variant.Edit

/-!
One tree value laid over another. Mappings are combined key by key; anything else on top hides what
lies below. In a layer of configuration, edits of variant lists are first carried out on the lists
below.
-/

namespace StyleLayers.Value

mutual

def override (below : Value) : Value → Value
  | .object above => match below with
    | .object entries => .object (overrideEntries entries above)
    | _ => .object above
  | .null => .null
  | .bool b => .bool b
  | .number n => .number n
  | .string s => .string s
  | .array items => .array items

def overrideEntries (below : List (String × Value)) : List (String × Value) → List (String × Value)
  | [] => below
  | (key, v) :: rest =>
    let next := match Entries.get? below key with
      | some existing => override existing v
      | none => v
    overrideEntries (Entries.insert key next below) rest

end

/-- The list that an edit of `key` starts from. A flat list below holds for every key. -/
def inheritedVariants (below : Value) (key : String) : Variants :=
  match below.entry? "variants" with
  | some (.array items) => Variants.ofValue (.array items)
  | some (.object entries) => ((Entries.get? entries key).map Variants.ofValue).getD .empty
  | _ => .empty

def editedEntry (below : Value) (entry : String × Value) : String × Value :=
  match VariantEdit.ofValue? entry.2 with
  | some edit => (entry.1, (edit.apply (below.inheritedVariants entry.1)).toValue)
  | none => entry

/-- A layer with the edits in its variants section carried out on what lies below. -/
def withEdits (below : Value) (layer : Entries) : Entries :=
  match Entries.get? layer "variants" with
  | some (.object entries) =>
    Entries.insert "variants" (.object (entries.map (editedEntry below))) layer
  | _ => layer

def overrideLayer (below : Value) (layer : Entries) : Value :=
  below.override (.object (withEdits below layer))

end StyleLayers.Value
