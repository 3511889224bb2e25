import StyleLayers.Variant.Group

/-!
The three layers of a stylesheet. Each keeps its groups in the order in which they were added.
-/

namespace StyleLayers

inductive Layer where
  | base
  | components
  | utilities
  deriving DecidableEq, Repr

namespace Layer

def name : Layer → String
  | base => "base"
  | components => "components"
  | utilities => "utilities"

def all : List Layer := [base, components, utilities]

def css (layer : Layer) (groups : List Group) : String :=
  if groups.isEmpty then ""
  else blockCss 0 ("@layer " ++ layer.name) (String.join (groups.map (Group.cssAt 1)))

end Layer

structure Addition where
  layer : Layer
  group : Group
  deriving Repr

structure Stylesheet where
  base : List Group
  components : List Group
  utilities : List Group
  deriving Repr

namespace Stylesheet

def empty : Stylesheet := ⟨[], [], []⟩

def groups (s : Stylesheet) : Layer → List Group
  | .base => s.base
  | .components => s.components
  | .utilities => s.utilities

def add (s : Stylesheet) (a : Addition) : Stylesheet :=
  match a.layer with
  | .base => { s with base := s.base ++ [a.group] }
  | .components => { s with components := s.components ++ [a.group] }
  | .utilities => { s with utilities := s.utilities ++ [a.group] }

def addAll (s : Stylesheet) (additions : List Addition) : Stylesheet := additions.foldl add s

def css (s : Stylesheet) : String :=
  String.join (Layer.all.map fun layer => layer.css (s.groups layer))

end Stylesheet

end StyleLayers
