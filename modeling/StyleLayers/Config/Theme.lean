import StyleLayers.Config.Path
import StyleLayers.Json.Printer

/-!
Theme values made ready for declarations. Some sections pair a value with extras, of which only the
first counts; some hold lists that are written with commas.
-/

namespace StyleLayers.Theme

def pairSections : List String := ["fontSize", "outline"]

def listSections : List String :=
  ["fontFamily", "boxShadow", "transitionProperty", "transitionDuration", "transitionDelay",
    "transitionTimingFunction", "backgroundImage", "backgroundSize", "backgroundColor", "cursor",
    "animation"]

def normalize (sectionName : String) : Value → Value
  | .array items =>
    if sectionName ∈ pairSections then items.head?.getD (.array [])
    else if sectionName ∈ listSections then .string (", ".intercalate (items.map Value.css))
    else .array items
  | v => v

/-- Normalized by the section that a path starts with; an empty path leaves the value alone. -/
def normalizeAt (keys : List String) (v : Value) : Value :=
  match keys with
  | [] => v
  | sectionName :: _ => normalize sectionName v

end StyleLayers.Theme
