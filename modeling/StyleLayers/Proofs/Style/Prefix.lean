import StyleLayers.Proofs.Rule.Rewriting
import StyleLayers.Proofs.Selector.Prefixing
import StyleLayers.Style.Compile

/-!
A prefix can be put in front of the classes of compiled rules, or in front of the classes of the
keys before compiling: on plain selectors the rules are the same.
-/

namespace StyleLayers

namespace Styles

theorem preludeOf_isPrelude (key : String) (atKey : isAtKey key = true) :
    AtRule.isPrelude (preludeOf key) = true := by
  have trimmed : AtRule.isPrelude (Text.trimmed key) = true := by
    rw [isAtKey, AtRule.isPrelude_iff] at atKey
    obtain ⟨body, shape⟩ := atKey
    rw [AtRule.isPrelude_iff, Text.trimmed, String.toList_ofList, shape,
      Css.trim_visible_cons '@' body (by decide)]
    exact ⟨_, rfl⟩
  unfold preludeOf AtRule.canonical
  split
  · exact AtRule.marker_isPrelude _
  · exact trimmed

/-- The key of an at-rule around frames of an animation. -/
def isKeyframesKey (key : String) : Bool :=
  (AtRule.name? (preludeOf key)).any AtRule.isKeyframesName

def prefixedKey (name key : String) : String :=
  if isAtKey key then key else Selector.prefixed name key

mutual

def prefixedValue (name : String) : Value → Value
  | .null => .null
  | .array items => .array (prefixedItems name items)
  | .object entries => .object (prefixedEntries name entries)
  | .bool b => .bool b
  | .number n => .number n
  | .string s => .string s

def prefixedItems (name : String) : List Value → List Value
  | [] => []
  | v :: vs => prefixedValue name v :: prefixedItems name vs

def prefixedEntries (name : String) : List (String × Value) → List (String × Value)
  | [] => []
  | (key, v) :: rest => (prefixedKey name key, prefixedValue name v) :: prefixedEntries name rest

end

/-- A key that can have a mapping: plain selectors, or an at-rule that is not of an animation. -/
def OpensPlain (key : String) : Prop :=
  if isAtKey key then isKeyframesKey key = false
  else ∃ l : Selector.PlainSeries, key.toList = l.text

/-- A key that can have a scalar: a property without a point, or an at-rule. -/
def DeclaresPlain (key : String) : Prop := isAtKey key = true ∨ '.' ∉ key.toList

mutual

/-- Every key fits what stands under it, directly or in an array. -/
def PlainValue (key : String) : Value → Prop
  | .null => True
  | .array items => PlainItems key items
  | .object entries => OpensPlain key ∧ PlainEntries entries
  | .bool _ => DeclaresPlain key
  | .number _ => DeclaresPlain key
  | .string _ => DeclaresPlain key

def PlainItems (key : String) : List Value → Prop
  | [] => True
  | v :: vs => PlainValue key v ∧ PlainItems key vs

def PlainEntries : List (String × Value) → Prop
  | [] => True
  | (key, v) :: rest => PlainValue key v ∧ PlainEntries rest

end

theorem plain_notAtKey (s : String) (plain : Selector.Plain false s.toList) :
    isAtKey s = false := by
  by_contra atKey
  rw [Bool.not_eq_false, isAtKey, AtRule.isPrelude_iff] at atKey
  obtain ⟨body, shape⟩ := atKey
  have noAt := Selector.plain_head_ne s.toList plain '@' (by decide) (by decide) (by decide)
  rw [shape] at noAt
  exact noAt rfl

def putPrefix (name : String) : Option String → Head → Head :=
  Rule.outsideKeyframes (Head.prefixed name)

def prefixedBlock (name : String) (enclosing : Option String) (b : Block) : Block :=
  ⟨b.declarations, Rule.rewriteAll (putPrefix name) enclosing b.rules⟩

theorem prefixedBlock_append (name : String) (enclosing : Option String) (a b : Block) :
    prefixedBlock name enclosing (a ++ b) =
      prefixedBlock name enclosing a ++ prefixedBlock name enclosing b := by
  change Block.mk _ _ = Block.mk _ _
  rw [Block.append_declarations, Block.append_rules, Rule.rewriteAll_append]
  rfl

theorem prefixedBlock_rulesUnder (name : String) (enclosing : Option String) (chain : String)
    (b : Block) (plain : Selector.Plain false chain.toList)
    (outside : Rule.isKeyframe enclosing = false) :
    (prefixedBlock name enclosing b).rulesUnder (Selector.prefixed name chain) =
      Rule.rewriteAll (putPrefix name) enclosing (b.rulesUnder chain) := by
  have unnamed := AtRule.selector_unnamed chain (plain_notAtKey chain plain)
  by_cases none : b.declarations = []
  · simp [Block.rulesUnder, prefixedBlock, none]
  · simp only [Block.rulesUnder, prefixedBlock, none, if_false, Rule.rewriteAll]
    rw [Rule.rewrite_style _ _ _ _ _ unnamed]
    simp [putPrefix, Rule.outsideKeyframes, outside, Head.prefixed, Rule.rewriteAll]

theorem prefixedBlock_inAtRule (name : Selector.Word) (enclosing : Option String)
    (prelude atName chain : String) (b : Block) (plain : Selector.Plain false chain.toList)
    (named : AtRule.name? prelude = some atName)
    (outside : Rule.isKeyframe (some atName) = false) :
    (prefixedBlock name.string (some atName) b).inAtRule prelude
        (Selector.prefixed name.string chain) =
      Rule.rewrite (putPrefix name.string) enclosing (b.inAtRule prelude chain) := by
  have empty := Selector.prefixed_eq_empty name chain plain
  unfold Block.inAtRule
  by_cases root : chain = ""
  · rw [if_pos root, if_pos (empty.mpr root), Rule.rewrite_atRule _ _ _ _ _ _ named]
    rfl
  · rw [if_neg root, if_neg (mt empty.mp root), Rule.rewrite_atRule _ _ _ _ _ _ named,
      prefixedBlock_rulesUnder _ _ chain b plain outside]

theorem compileScalar_prefixed (name : String) (enclosing : Option String) (key : String)
    (v : Value) (declares : DeclaresPlain key) :
    compileScalar (prefixedKey name key) v =
      prefixedBlock name enclosing (compileScalar key v) := by
  by_cases atKey : isAtKey key
  · have present := AtRule.isPrelude_append _ (" " ++ v.css) (preludeOf_isPrelude key atKey)
    obtain ⟨atName, named⟩ := AtRule.prelude_named _ present
    rw [← String.append_assoc] at named
    simp only [prefixedKey, atKey, if_true, compileScalar, prefixedBlock, Rule.rewriteAll]
    rw [Rule.rewrite_atRule _ _ _ _ _ _ named]
    rfl
  · have noPoint : '.' ∉ key.toList := declares.resolve_left atKey
    rw [prefixedKey, if_neg atKey, Selector.prefixed_same name key noPoint, compileScalar,
      if_neg atKey]
    rfl

theorem compile_atRule_prefixed (name : Selector.Word) (chain : String) (enclosing : Option String)
    (key : String) (entries : Entries) (plain : Selector.Plain false chain.toList)
    (atKey : isAtKey key = true) (noFrames : isKeyframesKey key = false)
    (below : ∀ inner, Rule.isKeyframe inner = false →
      compileEntries (Selector.prefixed name.string chain) (prefixedEntries name.string entries) =
        prefixedBlock name.string inner (compileEntries chain entries)) :
    compileEntry (Selector.prefixed name.string chain) (prefixedKey name.string key)
        (.object (prefixedEntries name.string entries)) =
      prefixedBlock name.string enclosing (compileEntry chain key (.object entries)) := by
  obtain ⟨atName, named⟩ := AtRule.prelude_named _ (preludeOf_isPrelude key atKey)
  have outside : Rule.isKeyframe (some atName) = false := by
    rw [isKeyframesKey, named] at noFrames
    exact noFrames
  have same (parent : String) : chainBelow (preludeOf key) parent = parent := by
    rw [chainBelow, ← isKeyframesKey, noFrames]
    rfl
  simp only [prefixedKey, atKey, if_true, compileEntry, same]
  rw [below (some atName) outside,
    prefixedBlock_inAtRule name enclosing _ atName chain _ plain named outside]
  rfl

theorem compile_selector_prefixed (name : Selector.Word) (chain : String)
    (enclosing : Option String) (key : String) (entries : Entries)
    (plain : Selector.Plain false chain.toList) (outside : Rule.isKeyframe enclosing = false)
    (selector : isAtKey key = false) (plainKey : Selector.Plain false key.toList)
    (below : compileEntries (Selector.prefixed name.string (Selector.nested chain key))
          (prefixedEntries name.string entries) =
        prefixedBlock name.string enclosing
          (compileEntries (Selector.nested chain key) entries)) :
    compileEntry (Selector.prefixed name.string chain) (prefixedKey name.string key)
        (.object (prefixedEntries name.string entries)) =
      prefixedBlock name.string enclosing (compileEntry chain key (.object entries)) := by
  have changed := plain_notAtKey _ (Selector.prefixed_plain name key plainKey)
  have whole := Selector.nested_plain chain key plain plainKey
  simp only [prefixedKey, selector, changed, Bool.false_eq_true, if_false, compileEntry]
  rw [Selector.nested_prefixed name chain key plain plainKey, below,
    prefixedBlock_rulesUnder _ enclosing _ _ whole outside]
  rfl

mutual

theorem compileEntry_prefixed (name : Selector.Word) (chain : String) (enclosing : Option String)
    (key : String) (plain : Selector.Plain false chain.toList)
    (outside : Rule.isKeyframe enclosing = false) : ∀ v : Value, PlainValue key v →
      compileEntry (Selector.prefixed name.string chain) (prefixedKey name.string key)
          (prefixedValue name.string v) =
        prefixedBlock name.string enclosing (compileEntry chain key v)
  | .null, _ => rfl
  | .array items, fits => by
    rw [prefixedValue, compileEntry, compileEntry]
    exact compileItems_prefixed name chain enclosing key plain outside items fits
  | .object entries, ⟨opens, inner⟩ => by
    rw [prefixedValue]
    by_cases atKey : isAtKey key
    · rw [OpensPlain, if_pos atKey] at opens
      -- The rules inside are told the name of this at-rule, not that of the one around it.
      exact compile_atRule_prefixed name chain enclosing key entries plain atKey opens
        fun inside noFrames =>
          compileEntries_prefixed name chain inside plain noFrames entries inner
    · rw [OpensPlain, if_neg atKey] at opens
      obtain ⟨l, shape⟩ := opens
      have plainKey : Selector.Plain false key.toList := shape ▸ Selector.Plain.series l
      exact compile_selector_prefixed name chain enclosing key entries plain outside
        (plain_notAtKey key plainKey) plainKey
        (compileEntries_prefixed name _ enclosing (Selector.nested_plain chain key plain plainKey)
          outside entries inner)
  | .bool _, declares => compileScalar_prefixed _ enclosing key _ declares
  | .number _, declares => compileScalar_prefixed _ enclosing key _ declares
  | .string _, declares => compileScalar_prefixed _ enclosing key _ declares

theorem compileItems_prefixed (name : Selector.Word) (chain : String) (enclosing : Option String)
    (key : String) (plain : Selector.Plain false chain.toList)
    (outside : Rule.isKeyframe enclosing = false) : ∀ items : List Value, PlainItems key items →
      compileItems (Selector.prefixed name.string chain) (prefixedKey name.string key)
          (prefixedItems name.string items) =
        prefixedBlock name.string enclosing (compileItems chain key items)
  | [], _ => rfl
  | v :: vs, ⟨first, others⟩ => by
    rw [prefixedItems, compileItems, compileItems, prefixedBlock_append,
      compileEntry_prefixed name chain enclosing key plain outside v first,
      compileItems_prefixed name chain enclosing key plain outside vs others]

theorem compileEntries_prefixed (name : Selector.Word) (chain : String)
    (enclosing : Option String) (plain : Selector.Plain false chain.toList)
    (outside : Rule.isKeyframe enclosing = false) :
    ∀ entries : List (String × Value), PlainEntries entries →
      compileEntries (Selector.prefixed name.string chain) (prefixedEntries name.string entries) =
        prefixedBlock name.string enclosing (compileEntries chain entries)
  | [], _ => rfl
  | (key, v) :: rest, ⟨first, others⟩ => by
    rw [prefixedEntries, compileEntries, compileEntries, prefixedBlock_append,
      compileEntry_prefixed name chain enclosing key plain outside v first,
      compileEntries_prefixed name chain enclosing plain outside rest others]

end

/-- The prefix put on the compiled rules is the prefix put on the keys: no class is missed and none
gets it twice. -/
theorem prefixAll_compile (name : Selector.Word) (entries : Entries)
    (plain : PlainEntries entries) :
    Rule.prefixAll name.string (compile "" (.mapping entries)) =
      compile "" (.mapping (prefixedEntries name.string entries)) := by
  have root : Selector.prefixed name.string "" = "" := Selector.prefixed_same _ "" (by decide)
  have whole := compileEntries_prefixed name "" none .nil rfl entries plain
  rw [root] at whole
  have rules := congrArg Block.rules whole
  simp only [compile, compileMapping, if_true]
  exact rules.symm

theorem prefixAll_compile_print :
    PlainEntries [(".a, #b", .object [("color", .string "red"),
        ("@media print", .array [.object [("&:hover .c", .object [("margin", .bool true)])]])])] ∧
      Rule.prefixAll "tw-" (compile "" (.mapping [(".a, #b", .object [("color", .string "red"),
          ("@media print",
            .array [.object [("&:hover .c", .object [("margin", .bool true)])]])])])) =
        compile "" (.mapping [(".tw-a, #b", .object [("color", .string "red"),
          ("@media print",
            .array [.object [("&:hover .tw-c", .object [("margin", .bool true)])]])])]) := by
  have outer : OpensPlain ".a, #b" :=
    ⟨⟨[⟨.descendant, ⟨none, [.ofClass ⟨'a', [], by decide, by decide⟩], by simp⟩, []⟩,
      ⟨.descendant, ⟨none, [.ofId ⟨'b', [], by decide, by decide⟩], by simp⟩, []⟩], by simp⟩, rfl⟩
  have inner : OpensPlain "&:hover .c" :=
    ⟨⟨[⟨.descendant, ⟨some .placeholder,
        [.pseudoClass ⟨'h', ['o', 'v', 'e', 'r'], by decide, by decide⟩], by simp⟩,
      [(.descendant, ⟨none, [.ofClass ⟨'c', [], by decide, by decide⟩], by simp⟩)]⟩], by simp⟩,
      rfl⟩
  have media : OpensPlain "@media print" := by
    rw [OpensPlain, if_pos (by decide)]
    decide
  have plain : PlainEntries [(".a, #b", .object [("color", .string "red"), ("@media print",
      .array [.object [("&:hover .c", .object [("margin", .bool true)])]])])] :=
    ⟨⟨outer, Or.inr (by decide),
      ⟨⟨media, ⟨inner, Or.inr (by decide), trivial⟩, trivial⟩, trivial⟩, trivial⟩, trivial⟩
  have keys : prefixedKey "tw-" ".a, #b" = ".tw-a, #b" ∧ prefixedKey "tw-" "color" = "color" ∧
      prefixedKey "tw-" "@media print" = "@media print" ∧
      prefixedKey "tw-" "&:hover .c" = "&:hover .tw-c" ∧
      prefixedKey "tw-" "margin" = "margin" := by decide +kernel
  have compiled := prefixAll_compile ⟨'t', ['w', '-'], by decide, by decide⟩ _ plain
  change Rule.prefixAll "tw-" _ = compile "" (.mapping (prefixedEntries "tw-" _)) at compiled
  simp only [prefixedEntries, prefixedValue, prefixedItems, keys] at compiled
  exact ⟨plain, compiled⟩

end Styles

end StyleLayers
