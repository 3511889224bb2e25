import StyleLayers.Variant.List
import StyleLayers.Rule.Css

/-!
Groups of rules with the variants they are generated for. Rules can declare their variants
themselves with a `@variants` block; the list that comes from outside is then left aside.
-/

namespace StyleLayers

def variantsName : String := "variants"

def AtRule.declared? (selector : String) : Option Variants :=
  (AtRule.body? selector).bind fun body =>
    if AtRule.nameOf body = variantsName then some (Variants.parse (AtRule.paramsOf body)) else none

/-- A prelude with the list of a `@variants` block in its one normal form. -/
def AtRule.canonical (prelude : String) : String :=
  match AtRule.declared? prelude with
  | some l => l.marker
  | none => prelude

def Rule.declared? (r : Rule) : Option Variants := AtRule.declared? r.selector

structure Group where
  rules : List Rule
  variants : Variants
  deriving Repr

namespace Group

/-- A lone declaring block gives its list and its children; one among other rules stays where it is
and keeps any list off the group. -/
def wrap (rs : List Rule) (variants : Variants) : Group :=
  if rs.any fun r => r.declared?.isSome then
    match rs with
    | [r] => match r.declared? with
      | some declared => if r.declarations = [] then ⟨r.children, declared⟩ else ⟨rs, .empty⟩
      | none => ⟨rs, .empty⟩
    | _ => ⟨rs, .empty⟩
  else ⟨rs, variants⟩

def cssAt (depth : Nat) (g : Group) : String :=
  if g.variants.names = [] then Rule.cssAllAt depth g.rules
  else blockCss depth g.variants.marker (Rule.cssAllAt (depth + 1) g.rules)

def css (g : Group) : String := g.cssAt 0

end Group

end StyleLayers
