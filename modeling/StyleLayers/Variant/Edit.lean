import StyleLayers.Variant.List

/-!
Edits of variant lists. In place of a list, a configuration can hold a mapping that says how the
list inherited from below is changed.
-/

namespace StyleLayers

inductive VariantEdit where
  | without (names : List String)
  | extend (names : List String)
  /-- Put in before the anchor, or at the start. -/
  | before (names : List String) (anchor : Option String)
  /-- Put in after the anchor, or at the end. -/
  | after (names : List String) (anchor : Option String)
  deriving DecidableEq, Repr

namespace VariantEdit

def names : VariantEdit → List String
  | without ns => ns
  | extend ns => ns
  | before ns _ => ns
  | after ns _ => ns

def anchor? : VariantEdit → Option String
  | before _ anchor => anchor
  | after _ anchor => anchor
  | _ => none

/-- An anchor that the list does not have is no anchor. -/
def apply (e : VariantEdit) (l : Variants) : Variants :=
  match e with
  | without ns => l.without ns
  | extend ns => l.pushAll ns
  | before ns anchor => l.insertAllAt ((anchor.bind l.position?).getD 0) ns
  | after ns anchor =>
    l.insertAllAt (((anchor.bind l.position?).map (· + 1)).getD l.names.length) ns

def fieldNames : List String := ["without", "extend", "before", "after", "anchor"]

/-- A field that is null counts as absent. The outer option is for a field of the wrong form. -/
def field {α : Type} (decode : Value → Option α) (entries : Entries) (key : String) :
    Option (Option α) :=
  match entries.get? key with
  | none => some none
  | some .null => some none
  | some v => (decode v).map some

def stringList? : Value → Option (List String)
  | .array items => items.mapM Value.string?
  | _ => none

/-- Exactly one of the four operations has to be there, no other key, and an anchor only with the
last two. -/
def ofEntries (entries : Entries) : Option VariantEdit := do
  if entries.any (fun entry => entry.1 ∉ fieldNames) then none
  let w ← field stringList? entries "without"
  let e ← field stringList? entries "extend"
  let b ← field stringList? entries "before"
  let a ← field stringList? entries "after"
  let anchor ← field Value.string? entries "anchor"
  match w, e, b, a, anchor with
  | some ns, none, none, none, none => some (without ns)
  | none, some ns, none, none, none => some (extend ns)
  | none, none, some ns, none, anchor => some (before ns anchor)
  | none, none, none, some ns, anchor => some (after ns anchor)
  | _, _, _, _, _ => none

def ofValue? (v : Value) : Option VariantEdit := v.entries?.bind ofEntries

end VariantEdit

end StyleLayers
