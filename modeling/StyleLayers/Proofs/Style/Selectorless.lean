import StyleLayers.Proofs.Style.Placement
import StyleLayers.Proofs.Style.Prefix

/-!
Rules without a selector. Declarations that no selector encloses are dropped where a mapping stands
alone and kept where an at-rule holds them. Below a key that adds nothing to an empty chain they
come out in a rule whose selector is empty, and nowhere else is there such a rule.
-/

namespace StyleLayers

namespace Selector

/-- Nothing but placeholders: under an empty outer selector such a key stands for nothing. -/
def addsNothing (key : String) : Bool := (partsOf key.toList).all fun w => w.all (· = '&')

theorem filled_eq_nil (outer inner : List Char) :
    filled outer inner = [] ↔ ∀ c ∈ inner, c = '&' ∧ outer = [] := by
  rw [filled, List.flatMap_eq_nil_iff]
  refine forall₂_congr fun c _ => ?_
  by_cases placeholder : c = '&'
  · simp [placeholder]
  · simp [placeholder]

theorem nestedPart_eq_nil (outer inner : List Char) (nonempty : inner ≠ []) :
    nestedPart outer inner = [] ↔ outer = [] ∧ ∀ c ∈ inner, c = '&' := by
  obtain ⟨first, others, rfl⟩ := List.exists_cons_of_ne_nil nonempty
  unfold nestedPart
  split
  · rw [filled_eq_nil]
    constructor
    · intro each
      exact ⟨(each first List.mem_cons_self).2, fun c member => (each c member).1⟩
    · rintro ⟨rfl, each⟩ c member
      exact ⟨each c member, rfl⟩
  · next noPlaceholder =>
    have other : ¬∀ c ∈ first :: others, c = '&' := by
      intro each
      exact noPlaceholder (each first List.mem_cons_self ▸ List.mem_cons_self)
    split
    · exact iff_of_false nonempty fun both => other both.2
    · exact iff_of_false (by simp) fun both => other both.2

theorem listText_eq_nil (ws : List (List Char)) : listText ws = [] ↔ ws = [] ∨ ws = [[]] := by
  match ws with
  | [] => simp [listText]
  | [w] => simp [listText]
  | w :: v :: rest => simp [listText_cons]

theorem partsOf_nonempty (cs : List Char) : ∀ w ∈ partsOf cs, w ≠ [] := by
  intro w member
  simpa using (List.mem_filter.mp member).2

theorem outerParts_eq_empty (outer : List Char) :
    outerParts outer = [[]] ↔ partsOf outer = [] := by
  have nonempty := partsOf_nonempty outer
  unfold outerParts
  split
  · next none => simp [none]
  · next some =>
    refine iff_of_false ?_ some
    intro single
    exact nonempty [] (single ▸ List.mem_cons_self) rfl

theorem outerParts_nonempty (outer : List Char) : outerParts outer ≠ [] := by
  unfold outerParts
  split
  · exact List.cons_ne_nil _ _
  · next some => exact some

theorem nestedParts_eq_empty (os inners : List (List Char)) (someOuter : os ≠ [])
    (someInner : inners ≠ []) (nonempty : ∀ w ∈ inners, w ≠ []) :
    os.flatMap (fun o => inners.map (nestedPart o)) = [[]] ↔
      os = [[]] ∧ ∃ w, inners = [w] ∧ ∀ c ∈ w, c = '&' := by
  match os, inners with
  | [], _ => exact absurd rfl someOuter
  | _, [] => exact absurd rfl someInner
  | [o], [w] =>
    have one := nestedPart_eq_nil o w (nonempty w List.mem_cons_self)
    simpa using one
  | _ :: _, _ :: _ :: _ => simp
  | _ :: _ :: _, [w] => simp

/-- The combined selector is empty only when one of the two lists has no selectors, and either the
other is empty itself or consists of placeholders for it. -/
theorem nestedOf_eq_nil (outer inner : List Char) :
    nestedOf outer inner = [] ↔
      (partsOf inner = [] ∧ outer = []) ∨
        (partsOf outer = [] ∧ ∃ w, partsOf inner = [w] ∧ ∀ c ∈ w, c = '&') := by
  unfold nestedOf
  split
  · next none => simp [none]
  · next some =>
    have someInner : partsOf inner ≠ [] := some
    have someOuter := outerParts_nonempty outer
    have filledIn := nestedParts_eq_empty _ _ someOuter someInner (partsOf_nonempty inner)
    rw [outerParts_eq_empty] at filledIn
    have someParts :
        (outerParts outer).flatMap (fun o => (partsOf inner).map (nestedPart o)) ≠ [] := by
      obtain ⟨o, os, shape⟩ := List.exists_cons_of_ne_nil someOuter
      simp [shape, someInner]
    rw [listText_eq_nil, filledIn]
    simp [someParts, someInner]

theorem nested_eq_empty (outer inner : String) :
    nested outer inner = "" ↔
      (partsOf inner.toList = [] ∧ outer = "") ∨
        (partsOf outer.toList = [] ∧ ∃ w, partsOf inner.toList = [w] ∧ ∀ c ∈ w, c = '&') := by
  rw [nested, String.ofList_eq_empty_iff, nestedOf_eq_nil, String.toList_eq_nil_iff]

theorem nested_nonempty (outer inner : String) (adds : addsNothing inner = false) :
    nested outer inner ≠ "" := by
  intro empty
  have nothing : addsNothing inner = true := by
    rcases (nested_eq_empty outer inner).mp empty with ⟨none, _⟩ | ⟨_, w, one, placeholders⟩
    · simp [addsNothing, none]
    · simpa [addsNothing, one] using placeholders
  rw [adds] at nothing
  cases nothing

end Selector

namespace Rule

mutual

def selectors : Rule → List String
  | ⟨selector, _, children⟩ => selector :: selectorsAll children

def selectorsAll : List Rule → List String
  | [] => []
  | r :: rs => selectors r ++ selectorsAll rs

end

theorem selectorsAll_append (rs ss : List Rule) :
    selectorsAll (rs ++ ss) = selectorsAll rs ++ selectorsAll ss := by
  induction rs with
  | nil => rfl
  | cons r rs ih => simp only [List.cons_append, selectorsAll, ih, List.append_assoc]

/-- How many rules, at any depth, have no selector. -/
def selectorless (rs : List Rule) : Nat := (selectorsAll rs).count ""

theorem selectorless_append (rs ss : List Rule) :
    selectorless (rs ++ ss) = selectorless rs + selectorless ss := by
  rw [selectorless, selectorsAll_append, List.count_append]
  rfl

theorem selectorless_cons (selector : String) (ds : List Declaration) (children rs : List Rule) :
    selectorless (⟨selector, ds, children⟩ :: rs) =
      selectorless children + selectorless rs + if selector = "" then 1 else 0 := by
  simp only [selectorless, selectorsAll, selectors, List.cons_append, List.count_cons,
    List.count_append, beq_iff_eq]

theorem selectorless_nil : selectorless [] = 0 := rfl

theorem selectorless_atRule (prelude : String) (ds : List Declaration) (children : List Rule)
    (present : AtRule.isPrelude prelude = true) :
    selectorless [⟨prelude, ds, children⟩] = selectorless children := by
  have named : prelude ≠ "" := by
    rintro rfl
    cases present
  rw [selectorless_cons, if_neg named, selectorless_nil, Nat.add_zero]

end Rule

namespace Block

theorem rulesUnder_selectorless (selector : String) (b : Block) :
    Rule.selectorless (b.rulesUnder selector) =
      Rule.selectorless b.rules + if b.declarations ≠ [] ∧ selector = "" then 1 else 0 := by
  unfold rulesUnder
  split
  · next none => simp [none]
  · next some => simp [Rule.selectorless_cons, Rule.selectorless_nil, some]

theorem inAtRule_selectorless (prelude chain : String) (b : Block)
    (present : AtRule.isPrelude prelude = true) :
    Rule.selectorless [b.inAtRule prelude chain] = Rule.selectorless b.rules := by
  unfold inAtRule
  split
  · exact Rule.selectorless_atRule prelude _ _ present
  · next some =>
    rw [Rule.selectorless_atRule prelude _ _ present, rulesUnder_selectorless,
      if_neg fun both => some both.2, Nat.add_zero]

end Block

namespace Styles

/-- A body that declares something below a key that leaves the chain empty. -/
def Body.isBare (b : Body) : Bool :=
  !b.scalars.isEmpty && b.keys.getLast?.any (fun key => !isAtKey key) && chainOf "" b.keys = ""

theorem compileScalar_selectorless (key : String) (v : Value) :
    Rule.selectorless (compileScalar key v).rules = 0 := by
  unfold compileScalar
  split
  · next atKey =>
    rw [String.append_assoc]
    exact Rule.selectorless_atRule _ _ _
      (AtRule.isPrelude_append _ _ (preludeOf_isPrelude key atKey))
  · rfl

mutual

theorem compileEntry_selectorless (keys : List String) (key : String) : ∀ v : Value,
    Rule.selectorless (compileEntry (chainOf "" keys) key v).rules =
      (bodiesAt keys key v).countP Body.isBare
  | .null => rfl
  | .array items => by
    rw [compileEntry, bodiesAt]
    exact compileItems_selectorless keys key items
  | .object entries => by
    have below := compileEntries_selectorless (keys ++ [key]) entries
    rw [chainOf_concat] at below
    rw [bodiesAt, List.countP_cons, ← below]
    by_cases atKey : isAtKey key
    · have unmarked : Body.isBare ⟨keys ++ [key], scalars entries⟩ = false := by
        simp [Body.isBare, atKey]
      simp only [compileEntry, atKey, if_true, unmarked]
      exact Block.inAtRule_selectorless _ _ _ (preludeOf_isPrelude key atKey)
    · have selector : isAtKey key = false := by simpa using atKey
      simp only [compileEntry, selector, Bool.false_eq_true, if_false]
      rw [Block.rulesUnder_selectorless, compileEntries_declarations]
      simp [Body.isBare, selector, chainOf_concat]
  | .bool _ => compileScalar_selectorless key _
  | .number _ => compileScalar_selectorless key _
  | .string _ => compileScalar_selectorless key _

theorem compileItems_selectorless (keys : List String) (key : String) : ∀ items : List Value,
    Rule.selectorless (compileItems (chainOf "" keys) key items).rules =
      (bodiesAtItems keys key items).countP Body.isBare
  | [] => rfl
  | v :: vs => by
    rw [compileItems, bodiesAtItems, Block.append_rules, Rule.selectorless_append,
      List.countP_append, compileEntry_selectorless keys key v,
      compileItems_selectorless keys key vs]

theorem compileEntries_selectorless (keys : List String) : ∀ entries : List (String × Value),
    Rule.selectorless (compileEntries (chainOf "" keys) entries).rules =
      (bodiesIn keys entries).countP Body.isBare
  | [] => rfl
  | (key, v) :: rest => by
    rw [compileEntries, bodiesIn, Block.append_rules, Rule.selectorless_append,
      List.countP_append, compileEntry_selectorless keys key v,
      compileEntries_selectorless keys rest]

end

mutual

/-- The mappings that stand alone in a value, in order. -/
def mappings : Value → List Entries
  | .object entries => [entries]
  | .array items => mappingsAll items
  | .null => []
  | .bool _ => []
  | .number _ => []
  | .string _ => []

def mappingsAll : List Value → List Entries
  | [] => []
  | v :: vs => mappings v ++ mappingsAll vs

end

mutual

theorem compile_mappings (parent : String) :
    ∀ v : Value, compile parent (ofValue v) = (mappings v).flatMap (compileMapping parent)
  | .null => rfl
  | .array items => by
    rw [ofValue, compile, mappings]
    exact compileAll_mappings parent items
  | .object entries => by simp [ofValue, compile, mappings]
  | .bool _ => rfl
  | .number _ => rfl
  | .string _ => rfl

theorem compileAll_mappings (parent : String) : ∀ vs : List Value,
    compileAll parent (ofValues vs) = (mappingsAll vs).flatMap (compileMapping parent)
  | [] => rfl
  | v :: vs => by
    rw [ofValues, compileAll, mappingsAll, List.flatMap_append, compile_mappings parent v,
      compileAll_mappings parent vs]

end

mutual

theorem dropped_mappings (parent : String) :
    ∀ v : Value,
      dropped parent (ofValue v) = ((mappings v).map (droppedFrom parent)).filter (0 < ·)
  | .null => rfl
  | .array items => by
    rw [ofValue, dropped, mappings]
    exact droppedAll_mappings parent items
  | .object entries => rfl
  | .bool _ => rfl
  | .number _ => rfl
  | .string _ => rfl

theorem droppedAll_mappings (parent : String) : ∀ vs : List Value,
    droppedAll parent (ofValues vs) = ((mappingsAll vs).map (droppedFrom parent)).filter (0 < ·)
  | [] => rfl
  | v :: vs => by
    rw [ofValues, droppedAll, mappingsAll, List.map_append, List.filter_append,
      dropped_mappings parent v, droppedAll_mappings parent vs]

end

def innerBodies (v : Value) : List Body := (mappings v).flatMap (bodiesIn [])

theorem compileMapping_root (entries : Entries) :
    compileMapping "" entries = (compileEntries "" entries).rules := rfl

theorem selectorless_flatMap (ms : List Entries) :
    Rule.selectorless (ms.flatMap (compileMapping "")) =
      (ms.flatMap (bodiesIn [])).countP Body.isBare := by
  induction ms with
  | nil => rfl
  | cons m ms ih =>
      rw [List.flatMap_cons, List.flatMap_cons, Rule.selectorless_append, List.countP_append, ih,
        compileMapping_root]
      exact congrArg (· + _) (compileEntries_selectorless [] m)

theorem places_flatMap (ms : List Entries) :
    Rule.placesInAll [] (ms.flatMap (compileMapping "")) =
      (ms.flatMap (bodiesIn [])).flatMap (Body.places "") := by
  induction ms with
  | nil => rfl
  | cons m ms ih =>
      rw [List.flatMap_cons, List.flatMap_cons, Rule.placesInAll_append, List.flatMap_append, ih,
        compileMapping_places, kept_bodies, if_pos rfl]

theorem droppedFrom_root (entries : Entries) : droppedFrom "" entries = (scalars entries).length := by
  rw [droppedFrom, if_pos rfl, compileEntries_declarations, List.length_map]

theorem innerBodies_keys (v : Value) : ∀ b ∈ innerBodies v, b.keys ≠ [] := by
  intro b member
  obtain ⟨m, _, inside⟩ := List.mem_flatMap.mp member
  exact bodiesIn_keys [] m b inside

theorem pathOf_unchained (b : Body) (keys : b.keys ≠ []) (declares : b.scalars ≠ [])
    (unchained : chainOf "" b.keys = "") :
    pathOf "" b.keys = preludesOf b.keys ++ if b.isBare then [""] else [] := by
  obtain ⟨key, last⟩ := Option.isSome_iff_exists.mp (List.getLast?_isSome.mpr keys)
  by_cases atKey : isAtKey key
  · simp [pathOf, Body.isBare, last, atKey, unchained]
  · simp [pathOf, Body.isBare, last, atKey, unchained, declares]

theorem bare_addsNothing (b : Body) (bare : b.isBare = true) :
    ∃ key ∈ b.keys.getLast?, isAtKey key = false ∧ Selector.addsNothing key = true := by
  simp only [Body.isBare, Bool.and_eq_true, decide_eq_true_eq] at bare
  obtain ⟨⟨_, last⟩, unchained⟩ := bare
  rcases List.eq_nil_or_concat b.keys with none | ⟨keys, key, shape⟩
  · rw [none] at last
    cases last
  · rw [List.concat_eq_append] at shape
    have selector : isAtKey key = false := by simpa [shape] using last
    refine ⟨key, by simp [shape], selector, ?_⟩
    rw [shape, chainOf_concat, if_neg (by simp [selector])] at unchained
    by_contra adds
    exact Selector.nested_nonempty _ key (by simpa using adds) unchained

/-- Declarations that no selector encloses are dropped, and counted, where they stand directly in a
mapping of their own, and kept in their at-rule where they stand directly in one. All others come
out in a rule without a selector, and there are no other such rules; there are none at all where
every key over a mapping is one of an at-rule or adds something to the selector around it. -/
theorem compile_selectorless (v : Value) :
    Rule.selectorless (compile "" (ofValue v)) = (innerBodies v).countP Body.isBare ∧
      dropped "" (ofValue v) = ((mappings v).map fun m => (scalars m).length).filter (0 < ·) ∧
      (∀ b ∈ innerBodies v, b.scalars ≠ [] → chainOf "" b.keys = "" →
        ⟨preludesOf b.keys ++ if b.isBare then [""] else [], b.scalars.map declarationOf⟩ ∈
          Rule.placesInAll [] (compile "" (ofValue v))) ∧
      ((∀ b ∈ innerBodies v, ∀ key ∈ b.keys.getLast?,
          isAtKey key = true ∨ Selector.addsNothing key = false) →
        "" ∉ Rule.selectorsAll (compile "" (ofValue v))) := by
  have count : Rule.selectorless (compile "" (ofValue v)) = (innerBodies v).countP Body.isBare := by
    rw [compile_mappings, selectorless_flatMap]
    rfl
  refine ⟨count, ?_, ?_, ?_⟩
  · rw [dropped_mappings]
    exact congrArg (List.filter _) (List.map_congr_left fun m _ => droppedFrom_root m)
  · intro b member declares unchained
    rw [compile_mappings, places_flatMap, ← pathOf_unchained b (innerBodies_keys v b member)
      declares unchained]
    refine List.mem_flatMap.mpr ⟨b, member, ?_⟩
    simp [Body.places, places, declares]
  · intro adding
    have none : (innerBodies v).countP Body.isBare = 0 := by
      refine List.countP_eq_zero.mpr fun b member bare => ?_
      obtain ⟨key, last, selector, nothing⟩ := bare_addsNothing b bare
      rcases adding b member key last with atKey | adds
      · rw [selector] at atKey
        cases atKey
      · rw [nothing] at adds
        cases adds
    rw [none] at count
    exact List.count_eq_zero.mp count

theorem compile_selectorless_sample :
    "" ∉ Rule.selectorsAll (compile "" (ofValue (.array [.object
      [("top", .string "0"), ("@media print", .object [("color", .string "red"),
        (".a", .object [("&:hover", .object [("top", .string "0")])])])]]))) :=
  (compile_selectorless _).2.2.2 (by decide +kernel)

/-- A key that is empty, a lone placeholder, blank or a comma makes a rule without a selector, in a
mapping that stands alone and in the at-rules where no chain goes on. -/
theorem some_rules_selectorless :
    Rule.selectorsAll (compile "" (ofValue
        (.object [("", .object [("color", .string "red")])]))) = [""] ∧
      Rule.selectorsAll (compile "" (ofValue
        (.object [("&", .object [("color", .string "red")])]))) = [""] ∧
      Rule.selectorsAll (compile "" (ofValue
        (.object [("@media print", .object [(" ", .object [("color", .string "red")])])]))) =
          ["@media print", ""] ∧
      Rule.selectorsAll (compile "" (ofValue (.object [(".a", .object
        [("@keyframes b", .object [(",", .object [("color", .string "red")])])])]))) =
          ["@keyframes b", ""] := by
  decide +kernel

end Styles

end StyleLayers
