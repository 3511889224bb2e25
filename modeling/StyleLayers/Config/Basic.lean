import StyleLayers.Config.Defaults
import StyleLayers.Config.Error
import StyleLayers.Config.Override
import StyleLayers.Config.Theme
import StyleLayers.Rule.Rewrite

/-!
Configurations: layers laid over each other, later ones on top, and what is read from the result.
-/

namespace StyleLayers

structure Config where
  root : Value
  deriving Repr

namespace Config

/-- Lays the layer at `index` over `below`. A null layer is skipped. -/
def overlay (below : Value) (index : Nat) : Value → Except ConfigError Value
  | .null => .ok below
  | .object entries => .ok (below.overrideLayer entries)
  | v => .error (.invalidLayer index v.kind)

def resolveFrom (below : Value) (index : Nat) : List Value → Except ConfigError Value
  | [] => .ok below
  | layer :: layers => do resolveFrom (← overlay below index layer) (index + 1) layers

def resolve (layers : List Value) : Except ConfigError Config :=
  (resolveFrom (.object []) 0 layers).map Config.mk

def defaultLayer : Value := .object Defaults.entries

def default : Config := ⟨defaultLayer⟩

def withDefaults (user : Value) : Except ConfigError Config := resolve [defaultLayer, user]

def get? (c : Config) (path : String) : Option Value := c.root.at? path

def getD (c : Config) (path : String) (fallback : Value) : Value := (c.get? path).getD fallback

def theme? (c : Config) (path : String) : Option Value :=
  let keys := Path.keys path
  ((c.root.entry? "theme").bind (Value.descend? · keys)).map (Theme.normalizeAt keys)

def themeD (c : Config) (path : String) (fallback : Value) : Value :=
  (c.theme? path).getD (Theme.normalizeAt (Path.keys path) fallback)

def stringD (c : Config) (key fallback : String) : String :=
  ((c.root.entry? key).bind Value.string?).getD fallback

def classPrefix (c : Config) : String := c.stringD "prefix" ""

def separator (c : Config) : String := c.stringD "separator" ":"

def importance (c : Config) : Importance :=
  match c.root.entry? "important" with
  | some (.bool true) => .flag
  | some (.string s) => if Text.trimmed s = "" then .off else .scope (Text.trimmed s)
  | _ => .off

/-- The variants of every group, when the variants section is a flat list. -/
def globalVariants? (c : Config) : Option Variants :=
  match c.root.entry? "variants" with
  | some (.array items) => some (Variants.ofValue (.array items))
  | _ => none

def keyedVariants? (c : Config) (key : String) : Option Variants :=
  match c.root.entry? "variants" with
  | some (.object entries) => ((Value.object entries).at? key).map Variants.ofValue
  | _ => none

/-- The variants for a key; a flat list holds for every key. -/
def variants? (c : Config) (key : String) : Option Variants :=
  c.globalVariants?.or (c.keyedVariants? key)

/-- A list enables the plugins that it names; a mapping enables all that it does not switch off. -/
def enables (c : Config) (name : String) : Bool :=
  match c.root.entry? "corePlugins" with
  | some (.array allowed) => allowed.any fun v => v.string? = some name
  | some (.object entries) => ((Entries.get? entries name).map Value.isOn).getD true
  | _ => true

end Config

end StyleLayers
