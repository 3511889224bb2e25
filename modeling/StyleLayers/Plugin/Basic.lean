import StyleLayers.Plugin.Handler

/-!
Plugins as their users register them, and the check that every registration passes before any
handler runs.
-/

namespace StyleLayers

inductive Plugin where
  | function (handler : Handler Unit)
  /-- Without a handler a plugin only contributes configuration. -/
  | configured (handler : Option (Handler Unit)) (config : Option Value)

namespace Plugin

def create (handler : Handler Unit) (config : Value) : Plugin :=
  configured (some handler) (some config)

def configOnly (config : Value) : Plugin := configured none (some config)

def handler? : Plugin → Option (Handler Unit)
  | function h => some h
  | configured h _ => h

def config? : Plugin → Option Value
  | function _ => none
  | configured _ config => config

end Plugin

structure Registration where
  index : Nat
  handler : Option (Handler Unit)
  /-- The mapping that the plugin adds to the configuration. -/
  fragment : Option Value

namespace Registration

def ofPlugin (index : Nat) (p : Plugin) : Except ConfigError Registration :=
  match p.config? with
  | none => .ok ⟨index, p.handler?, none⟩
  | some .null => .ok ⟨index, p.handler?, none⟩
  | some (.object entries) => .ok ⟨index, p.handler?, some (.object entries)⟩
  | some v => .error (.invalidPlugin index v.kind)

def ofPluginsFrom (index : Nat) : List Plugin → Except ConfigError (List Registration)
  | [] => .ok []
  | p :: ps => do
    let first ← ofPlugin index p
    let rest ← ofPluginsFrom (index + 1) ps
    .ok (first :: rest)

def ofPlugins (ps : List Plugin) : Except ConfigError (List Registration) := ofPluginsFrom 0 ps

def additions (c : Config) (r : Registration) : List Addition :=
  match r.handler with
  | some h => h.additions c
  | none => []

def events (c : Config) (r : Registration) : List Event :=
  match r.handler with
  | some h => .invokingPlugin r.index :: h.events c
  | none => [.withoutHandler r.index]

end Registration

/-- A plugin that its users can parameterize. Handler and configuration are both made from the
options, anew for every registration. -/
structure PluginFactory (ω : Type) where
  handler : ω → Handler Unit
  config : Option (ω → Value)

def PluginFactory.call {ω : Type} (f : PluginFactory ω) (options : ω) : Plugin :=
  .configured (some (f.handler options)) (f.config.map fun make => make options)

def PluginFactory.plain {ω : Type} [Inhabited ω] (f : PluginFactory ω) : Plugin := f.call default

end StyleLayers
