import StyleLayers.Json.Printer
import StyleLayers.Style.Input
import StyleLayers.Style.Property
import StyleLayers.Selector.Nest
import StyleLayers.Variant.Group

/-!
Styles compiled into rules. Below a selector, a key with a scalar is a declaration and a key with a
mapping a nested rule; nested rules come out flat, after the rule around them. A key that starts
with `@` makes an at-rule, whose body belongs to the same selector.
-/

namespace StyleLayers

/-- What a body gives: declarations for the selector around it, and rules that follow. -/
structure Block where
  declarations : List Declaration
  rules : List Rule
  deriving Repr

namespace Block

def empty : Block := ⟨[], []⟩

def append (a b : Block) : Block := ⟨a.declarations ++ b.declarations, a.rules ++ b.rules⟩

instance : Append Block := ⟨append⟩

@[simp] theorem append_declarations (a b : Block) :
    (a ++ b).declarations = a.declarations ++ b.declarations := rfl

@[simp] theorem append_rules (a b : Block) : (a ++ b).rules = a.rules ++ b.rules := rfl

def rulesUnder (selector : String) (b : Block) : List Rule :=
  if b.declarations = [] then b.rules else ⟨selector, b.declarations, []⟩ :: b.rules

/-- The body of an at-rule. Declarations go straight into it when there is no selector. -/
def inAtRule (prelude chain : String) (b : Block) : Rule :=
  if chain = "" then ⟨prelude, b.declarations, b.rules⟩ else ⟨prelude, [], b.rulesUnder chain⟩

end Block

namespace Styles

def isAtKey (key : String) : Bool := AtRule.isPrelude key

def preludeOf (key : String) : String := AtRule.canonical (Text.trimmed key)

/-- Frames of an animation start a chain of their own. -/
def chainBelow (prelude parent : String) : String :=
  if (AtRule.name? prelude).any AtRule.isKeyframesName then "" else parent

def compileScalar (key : String) (v : Value) : Block :=
  if isAtKey key then ⟨[], [⟨preludeOf key ++ " " ++ v.css, [], []⟩]⟩
  else ⟨[⟨Property.hyphenated key, v.css⟩], []⟩

mutual

def compileEntry (parent key : String) : Value → Block
  | .null => .empty
  | .array items => compileItems parent key items
  | .object entries =>
    if isAtKey key then
      let prelude := preludeOf key
      let chain := chainBelow prelude parent
      ⟨[], [(compileEntries chain entries).inAtRule prelude chain]⟩
    else
      let selector := Selector.nested parent key
      ⟨[], (compileEntries selector entries).rulesUnder selector⟩
  | .bool b => compileScalar key (.bool b)
  | .number n => compileScalar key (.number n)
  | .string s => compileScalar key (.string s)

/-- The items of an array are compiled one after another under its key. -/
def compileItems (parent key : String) : List Value → Block
  | [] => .empty
  | v :: vs => compileEntry parent key v ++ compileItems parent key vs

def compileEntries (parent : String) : List (String × Value) → Block
  | [] => .empty
  | (key, v) :: rest => compileEntry parent key v ++ compileEntries parent rest

end

/-- A mapping that stands alone. Without a selector its own declarations are dropped. -/
def compileMapping (parent : String) (entries : Entries) : List Rule :=
  let block := compileEntries parent entries
  if parent = "" then block.rules else block.rulesUnder parent

mutual

def compile (parent : String) : Styles → List Rule
  | mapping entries => compileMapping parent entries
  | rule r => [r]
  | list items => compileAll parent items
  | ignored _ => []

def compileAll (parent : String) : List Styles → List Rule
  | [] => []
  | s :: ss => compile parent s ++ compileAll parent ss

end

def droppedFrom (parent : String) (entries : Entries) : Nat :=
  if parent = "" then (compileEntries parent entries).declarations.length else 0

mutual

/-- How many declarations are dropped, mapping by mapping; only counts above zero are listed. -/
def dropped (parent : String) : Styles → List Nat
  | mapping entries => [droppedFrom parent entries].filter (0 < ·)
  | rule _ => []
  | list items => droppedAll parent items
  | ignored _ => []

def droppedAll (parent : String) : List Styles → List Nat
  | [] => []
  | s :: ss => dropped parent s ++ droppedAll parent ss

end

end Styles

end StyleLayers
