import StyleLayers.Text.Blank

/-!
Rules: a selector or the prelude of an at-rule, with declarations and nested rules.
-/

namespace StyleLayers

structure Declaration where
  property : String
  value : String
  deriving DecidableEq, Repr

namespace Declaration

def isImportant (d : Declaration) : Bool :=
  "!important".toList.isSuffixOf (Text.trimEnd d.value.toList)

def withImportance (d : Declaration) : Declaration :=
  if d.isImportant then d else { d with value := d.value ++ " !important" }

end Declaration

structure Rule where
  selector : String
  declarations : List Declaration
  children : List Rule
  deriving Repr, Inhabited

namespace Rule

def ofSelector (selector : String) : Rule := ⟨selector, [], []⟩

def isEmpty (r : Rule) : Bool := r.declarations.isEmpty && r.children.isEmpty

def addDeclaration (r : Rule) (d : Declaration) : Rule :=
  { r with declarations := r.declarations ++ [d] }

def addChild (r : Rule) (child : Rule) : Rule := { r with children := r.children ++ [child] }

end Rule

end StyleLayers
