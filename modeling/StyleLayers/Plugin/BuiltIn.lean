import StyleLayers.Plugin.Basic

/-!
The plugins that come with the library. Each is enabled and given its variants under its name.
-/

namespace StyleLayers

inductive BuiltIn where
  | justifyItems
  | placeSelf
  | opacity
  deriving DecidableEq, Repr

namespace BuiltIn

def all : List BuiltIn := [justifyItems, placeSelf, opacity]

def name : BuiltIn → String
  | justifyItems => "justifyItems"
  | placeSelf => "placeSelf"
  | opacity => "opacity"

def placements : List String := ["auto", "start", "end", "center", "stretch"]

def keywordUtilities (property : String) (keywords : List String) : Entries :=
  Entries.ofList <| keywords.map fun keyword =>
    ("." ++ property ++ "-" ++ keyword, .object [(property, .string keyword)])

def addKeywords (name property : String) : Handler Unit := do
  let variants ← Handler.variants name
  Handler.addUtilities (.mapping (keywordUtilities property placements)) ⟨variants, true, true⟩

def opacityEntry (entry : String × Value) : Handler (String × Value) := do
  let className ← Handler.escaped ("opacity-" ++ entry.1)
  return ("." ++ className, .object [("opacity", .string entry.2.css)])

def addOpacity : Handler Unit := do
  match ← Handler.theme "opacity" with
  | some (.object scale) =>
    let utilities ← scale.mapM opacityEntry
    let variants ← Handler.variants "opacity"
    Handler.addUtilities (.mapping (Entries.ofList utilities)) ⟨variants, true, true⟩
  | _ => pure ()

def handler : BuiltIn → Handler Unit
  | justifyItems => addKeywords "justifyItems" "justify-items"
  | placeSelf => addKeywords "placeSelf" "place-self"
  | opacity => addOpacity

def plugin (b : BuiltIn) : Plugin := .function b.handler

def enabled (c : Config) : List BuiltIn := all.filter fun b => c.enables b.name

end BuiltIn

end StyleLayers
