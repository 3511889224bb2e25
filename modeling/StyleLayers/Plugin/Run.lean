import StyleLayers.Plugin.BuiltIn

/-!
Running plugins. All registrations are checked and the configuration is settled before the first
handler runs, so that a failing run adds nothing.
-/

namespace StyleLayers

structure Report where
  stylesheet : Stylesheet
  log : List Event
  deriving Repr

namespace Run

/-- The layers of a configuration: defaults, the fragments of the plugins, then the user's. -/
def layers (rs : List Registration) (user : Value) : List Value :=
  Config.defaultLayer :: (rs.filterMap Registration.fragment ++ [user])

def configOf (rs : List Registration) (user : Value) : Except ConfigError Config :=
  Config.resolve (layers rs user)

def config (ps : List Plugin) (user : Value) : Except ConfigError Config := do
  configOf (← Registration.ofPlugins ps) user

def stylesheet (c : Config) (rs : List Registration) : Stylesheet :=
  Stylesheet.empty.addAll (rs.flatMap (Registration.additions c))

def produced (s : Stylesheet) : Event :=
  .producedGroups s.base.length s.components.length s.utilities.length

def log (c : Config) (rs : List Registration) : List Event :=
  .runningPlugins rs.length :: (rs.flatMap (Registration.events c) ++ [produced (stylesheet c rs)])

def invoke (c : Config) (rs : List Registration) : Report := ⟨stylesheet c rs, log c rs⟩

/-- Runs plugins under a configuration that is already settled; their own fragments are checked and
otherwise left aside. -/
def withConfig (ps : List Plugin) (c : Config) : Except ConfigError Report := do
  let rs ← Registration.ofPlugins ps
  .ok (invoke c rs)

def run (ps : List Plugin) (user : Value) : Except ConfigError Report := do
  let rs ← Registration.ofPlugins ps
  let c ← configOf rs user
  .ok (invoke c rs)

def build (user : Value) (ps : List Plugin) : Except ConfigError Report := do
  let c ← config ps user
  let builtIns := BuiltIn.enabled c
  let report ← withConfig (builtIns.map BuiltIn.plugin ++ ps) c
  .ok { report with log := .enabledBuiltIns builtIns.length :: report.log }

end Run

end StyleLayers
