import StyleLayers.Sheet.Layer
import StyleLayers.Style.Compile

/-!
What happens during a run, event by event, and the line that reports each.
-/

namespace StyleLayers

inductive Event where
  | ignoredStyles (kind : Value.Kind)
  | droppedDeclarations (count : Nat)
  | addedGroup (layer : Layer) (rules : Nat) (variants : Variants)
  | enabledBuiltIns (count : Nat)
  | runningPlugins (count : Nat)
  | invokingPlugin (index : Nat)
  | withoutHandler (index : Nat)
  | producedGroups (base components utilities : Nat)
  deriving DecidableEq, Repr

namespace Event

def ofAddition (a : Addition) : Event :=
  addedGroup a.layer a.group.rules.length a.group.variants

/-- The warnings of compiling styles outside any selector. All ignored values come first. -/
def ofStyles (parent : String) (styles : Styles) : List Event :=
  styles.ignoredKinds.map ignoredStyles ++ (styles.dropped parent).map droppedDeclarations

def line : Event → String
  | ignoredStyles kind =>
    s!"warn: ignoring {kind.name} style input; expected a mapping or an array"
  | droppedDeclarations count =>
    s!"warn: dropping {count} declaration(s) with no enclosing selector"
  | addedGroup layer rules variants =>
    s!"trace: {layer.name} <- {rules} node(s), variants [{variants.params}]"
  | enabledBuiltIns count => s!"debug: {count} core plugin(s) enabled"
  | runningPlugins count => s!"debug: running {count} plugin(s)"
  | invokingPlugin index => s!"debug: invoking plugin #{index}"
  | withoutHandler index => s!"debug: plugin #{index} has no handler, config only"
  | producedGroups base components utilities =>
    s!"debug: plugins produced {base} base, {components} component and " ++
      s!"{utilities} utility group(s)"

end Event

end StyleLayers
