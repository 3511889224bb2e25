import StyleLayers.Json.Value

/-!
Why a configuration or a list of plugins is refused.
-/

namespace StyleLayers

inductive TextFormat where
  | json
  | yaml
  deriving DecidableEq, Repr

def TextFormat.name : TextFormat → String
  | json => "json"
  | yaml => "yaml"

inductive ConfigError where
  /-- The plugin at `index` brings a configuration that is not a mapping. -/
  | invalidPlugin (index : Nat) (found : Value.Kind)
  /-- The layer at `index` is neither a mapping nor null. -/
  | invalidLayer (index : Nat) (found : Value.Kind)
  | unreadableText (format : TextFormat)
  deriving DecidableEq, Repr

def ConfigError.message : ConfigError → String
  | invalidPlugin index found =>
    s!"plugin registration #{index} is invalid: config must be a mapping, found {found.name}"
  | invalidLayer index found =>
    s!"invalid configuration: layer #{index} must be a mapping, found {found.name}"
  | unreadableText format => s!"failed to parse {format.name} configuration"

end StyleLayers
