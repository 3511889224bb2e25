import StyleLayers.Plugin.Basic

/-!
Handlers written as data: a script is a list of steps, each of which adds styles or reads the
configuration and reports what it read.
-/

namespace StyleLayers

namespace Handler

/-- One utility per entry of a theme section, named after a class and the entry's key; none when
the section is missing or no mapping. -/
def themeUtilities (path className property : String) : Handler Unit := do
  let entries ← match ← theme path with
    | some (.object scale) => scale.mapM fun entry => do
      let name ← escaped (className ++ "-" ++ entry.1)
      return ("." ++ name, Value.object [(property, entry.2)])
    | _ => pure []
  let vs ← variants path
  addUtilities (.mapping (Entries.ofList entries)) ⟨vs, true, true⟩

/-- One rule for a selector that is given the class prefix here. Each declaration's value is read
from the theme. -/
def themeRule (selector : String) (pairs : List (String × String × Value)) : Handler Unit := do
  let body ← pairs.mapM fun pair => do
    let v ← themeD pair.2.1 pair.2.2
    return (pair.1, v)
  let key ← prefixed selector
  addUtilities (.mapping [(key, .object (Entries.ofList body))]) ⟨none, false, true⟩

end Handler

inductive TreatmentSource where
  | given (treatment : Treatment)
  /-- The variants configured for a key. -/
  | variantsOf (key : String)
  deriving DecidableEq, Repr

def TreatmentSource.treatment : TreatmentSource → Handler Treatment
  | given t => pure t
  | variantsOf key => do return ⟨← Handler.variants key, true, true⟩

inductive Reading where
  | nothing
  | value (found : Option Value)
  | variants (found : Option Variants)
  | flag (found : Bool)
  | text (found : String)
  deriving Repr

inductive Step where
  | addBase (styles : Styles)
  | addComponents (styles : Styles) (source : TreatmentSource)
  | addUtilities (styles : Styles) (source : TreatmentSource)
  | themeUtilities (path className property : String)
  | themeRule (selector : String) (pairs : List (String × String × Value))
  | theme (path : String)
  | themeD (path : String) (fallback : Value)
  | config (path : String)
  | configD (path : String) (fallback : Value)
  | variants (key : String)
  | variantsD (key : String) (fallback : Variants)
  | enables (name : String)
  | prefixed (selector : String)
  | escaped (text : String)
  deriving Repr

namespace Step

def handler : Step → Handler Reading
  | addBase styles => do
    Handler.addBase styles
    return .nothing
  | addComponents styles source => do
    Handler.addComponents styles (← source.treatment)
    return .nothing
  | addUtilities styles source => do
    Handler.addUtilities styles (← source.treatment)
    return .nothing
  | themeUtilities path className property => do
    Handler.themeUtilities path className property
    return .nothing
  | themeRule selector pairs => do
    Handler.themeRule selector pairs
    return .nothing
  | theme path => return .value (← Handler.theme path)
  | themeD path fallback => return .value (some (← Handler.themeD path fallback))
  | config path => return .value (← Handler.config path)
  | configD path fallback => return .value (some (← Handler.configD path fallback))
  | variants key => return .variants (← Handler.variants key)
  | variantsD key fallback => return .variants (some ((← Handler.variants key).getD fallback))
  | enables name => return .flag (← Handler.enables name)
  | prefixed selector => return .text (← Handler.prefixed selector)
  | escaped text => return .text (← Handler.escaped text)

end Step

def Script.handler (steps : List Step) : Handler (List Reading) := steps.mapM Step.handler

def Script.plugin (steps : List Step) : Handler Unit := do
  let _ ← Script.handler steps

/-- The options of the sample scale: the class of its utilities and the size of one entry. -/
structure ScaleOptions where
  className : String := "banana"
  size : String := "2rem"
  deriving DecidableEq, Repr

instance : Inhabited ScaleOptions := ⟨{}⟩

namespace ScaleOptions

def handler (o : ScaleOptions) : Handler Unit :=
  Handler.themeUtilities "testPlugin" o.className "testProperty"

def config (o : ScaleOptions) : Value :=
  .object [
    ("theme", .object [("testPlugin", .object [("sm", .string "1rem"), ("md", .string o.size)])]),
    ("variants", .object [("testPlugin", .array [.string "responsive", .string "hover"])])]

def factory : PluginFactory ScaleOptions := ⟨handler, some config⟩

def factoryWithoutConfig : PluginFactory ScaleOptions := ⟨handler, none⟩

end ScaleOptions

end StyleLayers
