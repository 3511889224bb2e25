import StyleLayers.Style.Compile

/-!
Where the scalars of a style mapping end up. A mapping is read as a list of bodies, one for each
mapping inside it, and the compiled rules as a list of places that hold declarations. The two lists
are the same, in the same order, so no scalar is lost, doubled or moved.
-/

namespace StyleLayers

/-- Declarations with the selectors from the root of their tree down to the rule that holds them. -/
structure Place where
  path : List String
  declarations : List Declaration
  deriving DecidableEq, Repr

structure Placed where
  path : List String
  declaration : Declaration
  deriving DecidableEq, Repr

def Place.each (p : Place) : List Placed := p.declarations.map (Placed.mk p.path)

/-- A place where nothing is declared is none. -/
def places (path : List String) (ds : List Declaration) : List Place :=
  if ds = [] then [] else [⟨path, ds⟩]

theorem places_nil (path : List String) : places path [] = [] := rfl

theorem places_each (path : List String) (ds : List Declaration) :
    (places path ds).flatMap Place.each = ds.map (Placed.mk path) := by
  by_cases none : ds = []
  · simp [places, none]
  · simp [places, none, Place.each]

namespace Rule

mutual

def placesIn (above : List String) : Rule → List Place
  | ⟨selector, declarations, children⟩ =>
    places (above ++ [selector]) declarations ++ placesInAll (above ++ [selector]) children

def placesInAll (above : List String) : List Rule → List Place
  | [] => []
  | r :: rs => placesIn above r ++ placesInAll above rs

end

theorem placesInAll_append (above : List String) (rs ss : List Rule) :
    placesInAll above (rs ++ ss) = placesInAll above rs ++ placesInAll above ss := by
  induction rs with
  | nil => rfl
  | cons r rs ih => simp only [List.cons_append, placesInAll, ih, List.append_assoc]

mutual

def placedIn (above : List String) : Rule → List Placed
  | ⟨selector, declarations, children⟩ =>
    declarations.map (Placed.mk (above ++ [selector])) ++
      placedInAll (above ++ [selector]) children

def placedInAll (above : List String) : List Rule → List Placed
  | [] => []
  | r :: rs => placedIn above r ++ placedInAll above rs

end

mutual

theorem placesIn_each (above : List String) :
    ∀ r : Rule, (placesIn above r).flatMap Place.each = placedIn above r
  | ⟨selector, declarations, children⟩ => by
    rw [placesIn, placedIn, List.flatMap_append, places_each, placesInAll_each]

theorem placesInAll_each (above : List String) :
    ∀ rs : List Rule, (placesInAll above rs).flatMap Place.each = placedInAll above rs
  | [] => rfl
  | r :: rs => by
    rw [placesInAll, placedInAll, List.flatMap_append, placesIn_each, placesInAll_each]

end

end Rule

namespace Block

theorem rulesUnder_places (above : List String) (selector : String) (b : Block) :
    Rule.placesInAll above (b.rulesUnder selector) =
      places (above ++ [selector]) b.declarations ++ Rule.placesInAll above b.rules := by
  by_cases none : b.declarations = []
  · simp [rulesUnder, places, none]
  · simp [rulesUnder, Rule.placesInAll, Rule.placesIn, none]

theorem inAtRule_places (above : List String) (prelude chain : String) (b : Block) :
    Rule.placesIn above (b.inAtRule prelude chain) =
      places (above ++ [prelude] ++ if chain = "" then [] else [chain]) b.declarations ++
        Rule.placesInAll (above ++ [prelude]) b.rules := by
  by_cases empty : chain = ""
  · simp [inAtRule, Rule.placesIn, empty]
  · simp [inAtRule, Rule.placesIn, empty, places_nil, rulesUnder_places]

end Block

namespace Styles

/-- A scalar that makes a declaration, with the keys of the mappings around it, outermost first. -/
structure Leaf where
  keys : List String
  key : String
  value : Value

/-- A mapping with the keys around it and the scalars that are directly in it, in order. -/
structure Body where
  keys : List String
  scalars : List (String × Value)

def Body.leaves (b : Body) : List Leaf := b.scalars.map fun s => ⟨b.keys, s.1, s.2⟩

/-- Under an at-key a scalar completes the prelude and declares nothing. -/
def scalarAt (key : String) (v : Value) : List (String × Value) :=
  if isAtKey key then [] else [(key, v)]

mutual

def leavesAt (keys : List String) (key : String) : Value → List Leaf
  | .null => []
  | .array items => leavesAtItems keys key items
  | .object entries => leaves (keys ++ [key]) entries
  | .bool b => (scalarAt key (.bool b)).map fun s => ⟨keys, s.1, s.2⟩
  | .number n => (scalarAt key (.number n)).map fun s => ⟨keys, s.1, s.2⟩
  | .string s => (scalarAt key (.string s)).map fun s => ⟨keys, s.1, s.2⟩

def leavesAtItems (keys : List String) (key : String) : List Value → List Leaf
  | [] => []
  | v :: vs => leavesAt keys key v ++ leavesAtItems keys key vs

def leaves (keys : List String) : List (String × Value) → List Leaf
  | [] => []
  | (key, v) :: rest => leavesAt keys key v ++ leaves keys rest

end

mutual

def scalarsAt (key : String) : Value → List (String × Value)
  | .null => []
  | .array items => scalarsAtItems key items
  | .object _ => []
  | .bool b => scalarAt key (.bool b)
  | .number n => scalarAt key (.number n)
  | .string s => scalarAt key (.string s)

def scalarsAtItems (key : String) : List Value → List (String × Value)
  | [] => []
  | v :: vs => scalarsAt key v ++ scalarsAtItems key vs

end

def scalars (entries : Entries) : List (String × Value) :=
  entries.flatMap fun entry => scalarsAt entry.1 entry.2

mutual

/-- The mappings under `key`, each before the ones inside it. -/
def bodiesAt (keys : List String) (key : String) : Value → List Body
  | .null => []
  | .array items => bodiesAtItems keys key items
  | .object entries => ⟨keys ++ [key], scalars entries⟩ :: bodiesIn (keys ++ [key]) entries
  | .bool _ => []
  | .number _ => []
  | .string _ => []

def bodiesAtItems (keys : List String) (key : String) : List Value → List Body
  | [] => []
  | v :: vs => bodiesAt keys key v ++ bodiesAtItems keys key vs

def bodiesIn (keys : List String) : List (String × Value) → List Body
  | [] => []
  | (key, v) :: rest => bodiesAt keys key v ++ bodiesIn keys rest

end

def bodies (entries : Entries) : List Body := ⟨[], scalars entries⟩ :: bodiesIn [] entries

def preludesOf (keys : List String) : List String := (keys.filter isAtKey).map preludeOf

/-- The selector of a body: each selector key is nested under the one around it, and frames of an
animation start from nothing. -/
def chainOf (parent : String) (keys : List String) : String :=
  keys.foldl (fun chain key =>
    if isAtKey key then
      if (AtRule.name? (preludeOf key)).any AtRule.isKeyframesName then "" else chain
    else Selector.nested chain key) parent

/-- Directly in an at-rule whose chain is empty there is no selector to put declarations under. -/
def pathOf (parent : String) (keys : List String) : List String :=
  preludesOf keys ++
    if keys.getLast?.any isAtKey ∧ chainOf parent keys = "" then [] else [chainOf parent keys]

def declarationOf (s : String × Value) : Declaration := ⟨Property.hyphenated s.1, s.2.css⟩

def Leaf.placed (parent : String) (l : Leaf) : Placed :=
  ⟨pathOf parent l.keys, declarationOf (l.key, l.value)⟩

/-- Only what stands directly in the outermost mapping can be without a selector. -/
def isKept (parent : String) (keys : List String) : Bool := parent ≠ "" || keys ≠ []

def Body.places (parent : String) (b : Body) : List Place :=
  StyleLayers.places (pathOf parent b.keys) (b.scalars.map declarationOf)

theorem chainOf_concat (parent : String) (keys : List String) (key : String) :
    chainOf parent (keys ++ [key]) =
      if isAtKey key then chainBelow (preludeOf key) (chainOf parent keys)
      else Selector.nested (chainOf parent keys) key := by
  simp only [chainOf, chainBelow, List.foldl_append, List.foldl_cons, List.foldl_nil]

theorem preludesOf_selector (keys : List String) (key : String) (selector : isAtKey key = false) :
    preludesOf (keys ++ [key]) = preludesOf keys := by
  simp [preludesOf, selector]

theorem preludesOf_atKey (keys : List String) (key : String) (atKey : isAtKey key = true) :
    preludesOf (keys ++ [key]) = preludesOf keys ++ [preludeOf key] := by
  simp [preludesOf, atKey]

theorem pathOf_selector (parent : String) (keys : List String) (key : String)
    (selector : isAtKey key = false) :
    pathOf parent (keys ++ [key]) =
      preludesOf keys ++ [Selector.nested (chainOf parent keys) key] := by
  simp [pathOf, preludesOf_selector, chainOf_concat, selector]

theorem pathOf_atKey (parent : String) (keys : List String) (key : String)
    (atKey : isAtKey key = true) :
    pathOf parent (keys ++ [key]) =
      preludesOf keys ++ [preludeOf key] ++
        if chainBelow (preludeOf key) (chainOf parent keys) = "" then []
        else [chainBelow (preludeOf key) (chainOf parent keys)] := by
  simp [pathOf, preludesOf_atKey, chainOf_concat, atKey]

theorem compileScalar_declarations (key : String) (v : Value) :
    (compileScalar key v).declarations = (scalarAt key v).map declarationOf := by
  by_cases atKey : isAtKey key
  · simp [compileScalar, scalarAt, atKey]
  · simp [compileScalar, scalarAt, atKey, declarationOf]

mutual

theorem compileEntry_declarations (chain key : String) :
    ∀ v : Value, (compileEntry chain key v).declarations = (scalarsAt key v).map declarationOf
  | .null => rfl
  | .array items => by
    rw [compileEntry, scalarsAt]
    exact compileItems_declarations chain key items
  | .object entries => by
    by_cases atKey : isAtKey key
    · simp [compileEntry, scalarsAt, atKey]
    · simp [compileEntry, scalarsAt, atKey]
  | .bool _ => compileScalar_declarations key _
  | .number _ => compileScalar_declarations key _
  | .string _ => compileScalar_declarations key _

theorem compileItems_declarations (chain key : String) : ∀ items : List Value,
    (compileItems chain key items).declarations = (scalarsAtItems key items).map declarationOf
  | [] => rfl
  | v :: vs => by
    rw [compileItems, scalarsAtItems, Block.append_declarations, List.map_append,
      compileEntry_declarations chain key v, compileItems_declarations chain key vs]

end

theorem compileEntries_declarations (chain : String) (entries : Entries) :
    (compileEntries chain entries).declarations = (scalars entries).map declarationOf := by
  induction entries with
  | nil => rfl
  | cons entry rest ih =>
    rw [compileEntries, Block.append_declarations, compileEntry_declarations, ih]
    simp only [scalars, List.flatMap_cons, List.map_append]

theorem compileScalar_places (above : List String) (key : String) (v : Value) :
    Rule.placesInAll above (compileScalar key v).rules = [] := by
  by_cases atKey : isAtKey key
  · simp [compileScalar, atKey, Rule.placesInAll, Rule.placesIn, places_nil]
  · simp [compileScalar, atKey, Rule.placesInAll]

mutual

theorem compileEntry_places (parent : String) (keys : List String) (key : String) : ∀ v : Value,
    Rule.placesInAll (preludesOf keys) (compileEntry (chainOf parent keys) key v).rules =
      (bodiesAt keys key v).flatMap (Body.places parent)
  | .null => rfl
  | .array items => by
    rw [compileEntry, bodiesAt]
    exact compileItems_places parent keys key items
  | .object entries => by
    have below := compileEntries_places parent (keys ++ [key]) entries
    rw [chainOf_concat] at below
    by_cases atKey : isAtKey key
    · rw [preludesOf_atKey keys key atKey, if_pos atKey] at below
      simp only [compileEntry, atKey, if_true, Rule.placesInAll, List.append_nil]
      rw [Block.inAtRule_places, compileEntries_declarations, below, bodiesAt, List.flatMap_cons,
        Body.places, pathOf_atKey parent keys key atKey]
    · have selector : isAtKey key = false := by simpa using atKey
      rw [preludesOf_selector keys key selector, if_neg atKey] at below
      simp only [compileEntry, selector, Bool.false_eq_true, if_false]
      rw [Block.rulesUnder_places, compileEntries_declarations, below, bodiesAt, List.flatMap_cons,
        Body.places, pathOf_selector parent keys key selector]
  | .bool _ => compileScalar_places _ key _
  | .number _ => compileScalar_places _ key _
  | .string _ => compileScalar_places _ key _

theorem compileItems_places (parent : String) (keys : List String) (key : String) :
    ∀ items : List Value,
      Rule.placesInAll (preludesOf keys) (compileItems (chainOf parent keys) key items).rules =
        (bodiesAtItems keys key items).flatMap (Body.places parent)
  | [] => rfl
  | v :: vs => by
    rw [compileItems, bodiesAtItems, Block.append_rules, Rule.placesInAll_append,
      List.flatMap_append, compileEntry_places parent keys key v,
      compileItems_places parent keys key vs]

theorem compileEntries_places (parent : String) (keys : List String) :
    ∀ entries : List (String × Value),
      Rule.placesInAll (preludesOf keys) (compileEntries (chainOf parent keys) entries).rules =
        (bodiesIn keys entries).flatMap (Body.places parent)
  | [] => rfl
  | (key, v) :: rest => by
    rw [compileEntries, bodiesIn, Block.append_rules, Rule.placesInAll_append,
      List.flatMap_append, compileEntry_places parent keys key v,
      compileEntries_places parent keys rest]

end

mutual

theorem bodiesAt_keys (keys : List String) (key : String) :
    ∀ v : Value, ∀ b ∈ bodiesAt keys key v, b.keys ≠ []
  | .null, b, member => by simp [bodiesAt] at member
  | .array items, b, member => by
    rw [bodiesAt] at member
    exact bodiesAtItems_keys keys key items b member
  | .object entries, b, member => by
    simp only [bodiesAt, List.mem_cons] at member
    rcases member with rfl | member
    · simp
    · exact bodiesIn_keys (keys ++ [key]) entries b member
  | .bool _, b, member => by simp [bodiesAt] at member
  | .number _, b, member => by simp [bodiesAt] at member
  | .string _, b, member => by simp [bodiesAt] at member

theorem bodiesAtItems_keys (keys : List String) (key : String) :
    ∀ items : List Value, ∀ b ∈ bodiesAtItems keys key items, b.keys ≠ []
  | [], b, member => by simp [bodiesAtItems] at member
  | v :: vs, b, member => by
    rcases List.mem_append.mp member with member | member
    · exact bodiesAt_keys keys key v b member
    · exact bodiesAtItems_keys keys key vs b member

theorem bodiesIn_keys (keys : List String) :
    ∀ entries : List (String × Value), ∀ b ∈ bodiesIn keys entries, b.keys ≠ []
  | [], b, member => by simp [bodiesIn] at member
  | (key, v) :: rest, b, member => by
    rcases List.mem_append.mp member with member | member
    · exact bodiesAt_keys keys key v b member
    · exact bodiesIn_keys keys rest b member

end

theorem perm_interleave {α : Type} {a b : List α} {a₁ a₂ b₁ b₂ : List α}
    (first : a.Perm (a₁ ++ a₂)) (second : b.Perm (b₁ ++ b₂)) :
    (a ++ b).Perm (a₁ ++ b₁ ++ (a₂ ++ b₂)) := by
  refine (first.append second).trans ?_
  simp only [List.append_assoc]
  refine List.Perm.append_left a₁ ?_
  simp only [← List.append_assoc]
  exact List.perm_append_comm.append_right b₂

mutual

/-- The text has the scalars of a body and its inner mappings in any order; the bodies have the
scalars first. -/
theorem leavesAt_perm (keys : List String) (key : String) : ∀ v : Value,
    (leavesAt keys key v).Perm
      ((scalarsAt key v).map (fun s => ⟨keys, s.1, s.2⟩) ++
        (bodiesAt keys key v).flatMap Body.leaves)
  | .null => List.Perm.refl _
  | .array items => leavesAtItems_perm keys key items
  | .object entries => leaves_perm (keys ++ [key]) entries
  | .bool _ => by simp [leavesAt, scalarsAt, bodiesAt]
  | .number _ => by simp [leavesAt, scalarsAt, bodiesAt]
  | .string _ => by simp [leavesAt, scalarsAt, bodiesAt]

theorem leavesAtItems_perm (keys : List String) (key : String) : ∀ items : List Value,
    (leavesAtItems keys key items).Perm
      ((scalarsAtItems key items).map (fun s => ⟨keys, s.1, s.2⟩) ++
        (bodiesAtItems keys key items).flatMap Body.leaves)
  | [] => List.Perm.refl _
  | v :: vs => by
    rw [leavesAtItems, scalarsAtItems, bodiesAtItems, List.map_append, List.flatMap_append]
    exact perm_interleave (leavesAt_perm keys key v) (leavesAtItems_perm keys key vs)

theorem leaves_perm (keys : List String) : ∀ entries : List (String × Value),
    (leaves keys entries).Perm
      ((scalars entries).map (fun s => ⟨keys, s.1, s.2⟩) ++
        (bodiesIn keys entries).flatMap Body.leaves)
  | [] => List.Perm.refl _
  | (key, v) :: rest => by
    rw [leaves, scalars, List.flatMap_cons, bodiesIn, List.map_append, List.flatMap_append]
    exact perm_interleave (leavesAt_perm keys key v) (leaves_perm keys rest)

end

theorem leaves_perm_bodies (entries : Entries) :
    (leaves [] entries).Perm ((bodies entries).flatMap Body.leaves) :=
  leaves_perm [] entries

theorem body_leaves_keys (b : Body) : ∀ l ∈ b.leaves, l.keys = b.keys := by
  intro l member
  obtain ⟨s, _, rfl⟩ := List.mem_map.mp member
  rfl

theorem filter_leaves (p : List String → Bool) (bs : List Body) :
    (bs.flatMap Body.leaves).filter (fun l => p l.keys) =
      (bs.filter fun b => p b.keys).flatMap Body.leaves := by
  induction bs with
  | nil => rfl
  | cons b bs ih =>
    rw [List.flatMap_cons, List.filter_append, ih]
    by_cases kept : p b.keys
    · have all : b.leaves.filter (fun l => p l.keys) = b.leaves := by
        apply List.filter_eq_self.mpr
        intro l member
        rw [body_leaves_keys b l member, kept]
      rw [all, List.filter_cons_of_pos (by simpa using kept), List.flatMap_cons]
    · have none : b.leaves.filter (fun l => p l.keys) = [] := by
        apply List.filter_eq_nil_iff.mpr
        intro l member
        rwa [body_leaves_keys b l member]
      rw [none, List.filter_cons_of_neg (by simpa using kept), List.nil_append]

theorem places_each_leaves (parent : String) (b : Body) :
    (b.places parent).flatMap Place.each = b.leaves.map (Leaf.placed parent) := by
  rw [Body.places, places_each]
  simp [Body.leaves, Leaf.placed, Function.comp_def]

theorem kept_bodies (parent : String) (entries : Entries) :
    (bodies entries).filter (fun b => isKept parent b.keys) =
      if parent = "" then bodiesIn [] entries else bodies entries := by
  have inner : (bodiesIn [] entries).filter (fun b => isKept parent b.keys) =
      bodiesIn [] entries := by
    apply List.filter_eq_self.mpr
    intro b member
    simp [isKept, bodiesIn_keys [] entries b member]
  by_cases root : parent = ""
  · rw [bodies, List.filter_cons_of_neg (by simp [isKept, root]), inner, if_pos root]
  · rw [bodies, List.filter_cons_of_pos (by simp [isKept, root]), inner, if_neg root]

theorem compileMapping_places (parent : String) (entries : Entries) :
    Rule.placesInAll [] (compileMapping parent entries) =
      ((bodies entries).filter fun b => isKept parent b.keys).flatMap (Body.places parent) := by
  have inner : Rule.placesInAll [] (compileEntries parent entries).rules =
      (bodiesIn [] entries).flatMap (Body.places parent) :=
    compileEntries_places parent [] entries
  rw [kept_bodies]
  by_cases root : parent = ""
  · rw [if_pos root, ← inner]
    simp only [compileMapping, if_pos root]
  · rw [if_neg root, bodies, List.flatMap_cons, ← inner]
    simp only [compileMapping, if_neg root]
    rw [Block.rulesUnder_places, compileEntries_declarations]
    rfl

/-- Compilation loses, doubles and misplaces nothing. The declarations of the compiled rules are the
scalars of the mapping, each at its own path and as often as it occurs; and each body's scalars stay
together and in order, in one rule, bodies coming out in the order of the text. -/
theorem compile_places_every_scalar (parent : String) (entries : Entries) :
    (Rule.placedInAll [] (compile parent (.mapping entries))).Perm
        (((leaves [] entries).filter fun l => isKept parent l.keys).map (Leaf.placed parent)) ∧
      Rule.placesInAll [] (compile parent (.mapping entries)) =
        ((bodies entries).filter fun b => isKept parent b.keys).flatMap (Body.places parent) := by
  have ordered : Rule.placesInAll [] (compile parent (.mapping entries)) =
      ((bodies entries).filter fun b => isKept parent b.keys).flatMap (Body.places parent) := by
    rw [compile]
    exact compileMapping_places parent entries
  refine ⟨?_, ordered⟩
  have same := (((leaves_perm_bodies entries).filter fun l => isKept parent l.keys).map
    (Leaf.placed parent)).symm
  rw [filter_leaves] at same
  refine List.Perm.trans (List.Perm.of_eq ?_) same
  rw [← Rule.placesInAll_each, ordered, List.flatMap_assoc, List.map_flatMap]
  simp only [places_each_leaves]

end Styles

end StyleLayers
