import StyleLayers.Json.Value

/-!
The configuration that holds where nothing else is said.
-/

namespace StyleLayers.Defaults

def strings (pairs : List (String × String)) : Value :=
  .object (pairs.map fun pair => (pair.1, .string pair.2))

def names (ns : List String) : Value := .array (ns.map .string)

def screens : Value :=
  strings [("sm", "640px"), ("md", "768px"), ("lg", "1024px"), ("xl", "1280px"), ("2xl", "1536px")]

def opacity : Value :=
  strings [("0", "0"), ("5", "0.05"), ("10", "0.1"), ("20", "0.2"), ("25", "0.25"), ("30", "0.3"),
    ("40", "0.4"), ("50", "0.5"), ("60", "0.6"), ("70", "0.7"), ("75", "0.75"), ("80", "0.8"),
    ("90", "0.9"), ("95", "0.95"), ("100", "1")]

def variants : Value :=
  .object [("justifyItems", names ["responsive"]), ("placeSelf", names ["responsive"]),
    ("opacity", names ["responsive", "group-hover", "focus-within", "hover", "focus"])]

def entries : Entries :=
  [("prefix", .string ""), ("important", .bool false), ("separator", .string ":"),
    ("theme", .object [("screens", screens), ("opacity", opacity)]), ("variants", variants),
    ("corePlugins", .object [])]

end StyleLayers.Defaults
