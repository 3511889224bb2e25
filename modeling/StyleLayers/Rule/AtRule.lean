import StyleLayers.Rule.Tree

/-!
Preludes of at-rules: a selector that starts with `@` is one, its first word is the name and the
rest the parameters.
-/

namespace StyleLayers.AtRule

def body? (selector : String) : Option (List Char) :=
  match selector.toList with
  | '@' :: rest => some rest
  | _ => none

def isPrelude (selector : String) : Bool := (body? selector).isSome

def nameOf (body : List Char) : String := String.ofList (Text.firstWord body)

def paramsOf (body : List Char) : String :=
  String.ofList (Text.trim ((Text.trimStart body).drop (Text.firstWord body).length))

def name? (selector : String) : Option String := (body? selector).map nameOf

def params? (selector : String) : Option String := (body? selector).map paramsOf

/-- The name `keyframes`, with or without a vendor in front. -/
def isKeyframesName (name : String) : Bool := "keyframes".toList.isSuffixOf name.toList

end StyleLayers.AtRule

namespace StyleLayers.Rule

def isAtRule (r : Rule) : Bool := AtRule.isPrelude r.selector

end StyleLayers.Rule
