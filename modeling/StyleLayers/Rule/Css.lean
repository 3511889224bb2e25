import StyleLayers.Rule.AtRule

/-!
Rules as indented CSS text. An at-rule with nothing in it is a statement.
-/

namespace StyleLayers

def indent (depth : Nat) : String := String.ofList (List.replicate (2 * depth) ' ')

def Declaration.css (depth : Nat) (d : Declaration) : String :=
  indent depth ++ d.property ++ ": " ++ d.value ++ ";\n"

def blockCss (depth : Nat) (head body : String) : String :=
  indent depth ++ head ++ " \x7b\n" ++ body ++ indent depth ++ "\x7d\n"

def statementCss (depth : Nat) (head : String) : String := indent depth ++ head ++ ";\n"

def declarationsCss (depth : Nat) (ds : List Declaration) : String :=
  String.join (ds.map (Declaration.css depth))

namespace Rule

mutual

def cssAt (depth : Nat) : Rule → String
  | ⟨selector, declarations, children⟩ =>
    if AtRule.isPrelude selector && declarations.isEmpty && children.isEmpty then
      statementCss depth selector
    else
      blockCss depth selector
        (declarationsCss (depth + 1) declarations ++ cssAllAt (depth + 1) children)

def cssAllAt (depth : Nat) : List Rule → String
  | [] => ""
  | r :: rs => cssAt depth r ++ cssAllAt depth rs

end

def css (r : Rule) : String := cssAt 0 r

def cssAll (rs : List Rule) : String := cssAllAt 0 rs

end Rule

end StyleLayers
