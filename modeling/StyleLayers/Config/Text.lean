import StyleLayers.Config.Error
import StyleLayers.Json.Reader
import StyleLayers.Yaml.Reader

/-!
Configuration read from text.
-/

namespace StyleLayers.Config

def readValue? : TextFormat → String → Option Value
  | .json, text => Json.read? Json.nestingLimit text
  | .yaml, text => Yaml.read? text

def readText (format : TextFormat) (text : String) : Except ConfigError Value :=
  match readValue? format text with
  | some v => .ok v
  | none => .error (.unreadableText format)

end StyleLayers.Config
