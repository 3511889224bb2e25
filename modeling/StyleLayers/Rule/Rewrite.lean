import StyleLayers.Rule.AtRule
import StyleLayers.Selector.Nest

/-!
Rewriting the style rules of a tree. A rewriting sees a style rule's selector and declarations and
the name of the at-rule directly around it; at-rules themselves are left alone.
-/

namespace StyleLayers

structure Head where
  selector : String
  declarations : List Declaration
  deriving DecidableEq, Repr

namespace Head

def prefixed (name : String) (h : Head) : Head :=
  { h with selector := Selector.prefixed name h.selector }

def flagged (h : Head) : Head :=
  { h with declarations := h.declarations.map Declaration.withImportance }

def within (scope : String) (h : Head) : Head :=
  { h with selector := Selector.within scope h.selector }

end Head

inductive Importance where
  | off
  /-- Every declaration is marked as important. -/
  | flag
  /-- Every selector is put under this one. -/
  | scope (selector : String)
  deriving DecidableEq, Repr

namespace Rule

def head (r : Rule) : Head := ⟨r.selector, r.declarations⟩

mutual

/-- The children of an at-rule are told its name, those of a style rule none. -/
def rewrite (f : Option String → Head → Head) (enclosing : Option String) : Rule → Rule
  | ⟨selector, declarations, children⟩ =>
    match AtRule.name? selector with
    | some name => ⟨selector, declarations, rewriteAll f (some name) children⟩
    | none =>
      let changed := f enclosing ⟨selector, declarations⟩
      ⟨changed.selector, changed.declarations, rewriteAll f none children⟩

def rewriteAll (f : Option String → Head → Head) (enclosing : Option String) :
    List Rule → List Rule
  | [] => []
  | r :: rs => rewrite f enclosing r :: rewriteAll f enclosing rs

end

mutual

def visits (enclosing : Option String) : Rule → List (Option String × Head)
  | ⟨selector, declarations, children⟩ =>
    match AtRule.name? selector with
    | some name => visitsAll (some name) children
    | none => (enclosing, ⟨selector, declarations⟩) :: visitsAll none children

def visitsAll (enclosing : Option String) : List Rule → List (Option String × Head)
  | [] => []
  | r :: rs => visits enclosing r ++ visitsAll enclosing rs

end

def isKeyframe (enclosing : Option String) : Bool := enclosing.any AtRule.isKeyframesName

/-- Frames of an animation are no selectors and keep what they are. -/
def outsideKeyframes (f : Head → Head) (enclosing : Option String) (h : Head) : Head :=
  if isKeyframe enclosing then h else f h

def prefixAll (name : String) (rs : List Rule) : List Rule :=
  rewriteAll (outsideKeyframes (Head.prefixed name)) none rs

def emphasizeAll (importance : Importance) (rs : List Rule) : List Rule :=
  match importance with
  | .off => rs
  | .flag => rewriteAll (outsideKeyframes Head.flagged) none rs
  | .scope selector => rewriteAll (outsideKeyframes (Head.within selector)) none rs

end Rule

end StyleLayers
