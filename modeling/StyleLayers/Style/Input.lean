import StyleLayers.Json.Value
import StyleLayers.Rule.Tree

/-!
What a plugin can hand in as styles.
-/

namespace StyleLayers

inductive Styles where
  | mapping (entries : Entries)
  /-- A rule that is taken as it is. -/
  | rule (rule : Rule)
  | list (items : List Styles)
  /-- A truth value, number or string: no styles, but worth a warning. -/
  | ignored (kind : Value.Kind)
  deriving Repr

namespace Styles

mutual

def ofValue : Value → Styles
  | .object entries => mapping entries
  | .array items => list (ofValues items)
  | .null => list []
  | .bool _ => ignored .boolean
  | .number _ => ignored .number
  | .string _ => ignored .string

def ofValues : List Value → List Styles
  | [] => []
  | v :: vs => ofValue v :: ofValues vs

end

mutual

def ignoredKinds : Styles → List Value.Kind
  | mapping _ => []
  | rule _ => []
  | list items => ignoredKindsAll items
  | ignored kind => [kind]

def ignoredKindsAll : List Styles → List Value.Kind
  | [] => []
  | s :: ss => ignoredKinds s ++ ignoredKindsAll ss

end

end Styles

end StyleLayers
