import StyleLayers.Proofs.Config.Distinct
import StyleLayers.Proofs.Json.Alike

/-!
Three values laid over each other in two groupings. The groupings differ only where two mappings
have something else than a mapping between them: laid on one after the other, the upper mapping
finds the lower one hidden, while a value that was replaced beforehand hides nothing.
-/

namespace StyleLayers.Value

theorem keys_regrouped (lower middle upper : Entries) (distinctMiddle : middle.keys.Nodup)
    (distinctUpper : upper.keys.Nodup)
    (distinct : (Entries.keys (overrideEntries middle upper)).Nodup) :
    Entries.keys (overrideEntries (overrideEntries lower middle) upper) =
      Entries.keys (overrideEntries lower (overrideEntries middle upper)) := by
  rw [keys_overrideEntries _ upper distinctUpper, keys_overrideEntries lower _ distinct,
    keys_overrideEntries lower middle distinctMiddle,
    keys_overrideEntries middle upper distinctUpper, List.filter_append, List.filter_filter,
    List.append_assoc]
  congr 2
  apply List.filter_congr
  intro key _
  by_cases low : key ∈ lower.keys
  · simp [low]
  · simp [low]

theorem overrideEntries_regrouped_iff (lower middle upper : Entries)
    (uniqueLower : (object lower).UniqueKeys) (uniqueMiddle : (object middle).UniqueKeys)
    (uniqueUpper : (object upper).UniqueKeys) :
    overrideEntries (overrideEntries lower middle) upper =
        overrideEntries lower (overrideEntries middle upper) ↔
      ∀ key x y z, lower.get? key = some x → middle.get? key = some y → upper.get? key = some z →
        (x.override y).override z = x.override (y.override z) := by
  have uniqueLeft : (object (overrideEntries lower middle)).UniqueKeys :=
    override_uniqueKeys (.object lower) uniqueLower (.object middle) uniqueMiddle
  have uniqueRight : (object (overrideEntries middle upper)).UniqueKeys :=
    override_uniqueKeys (.object middle) uniqueMiddle (.object upper) uniqueUpper
  have uniqueWhole := override_uniqueKeys (.object _) uniqueLeft (.object upper) uniqueUpper
  have left := get?_overrideEntries (overrideEntries lower middle) upper uniqueUpper.1
  have right := get?_overrideEntries lower (overrideEntries middle upper) uniqueRight.1
  constructor
  · intro same key x y z low mid up
    have found := congrArg (Entries.get? · key) same
    simp only [left, right, get?_overrideEntries lower middle uniqueMiddle.1,
      get?_overrideEntries middle upper uniqueUpper.1, low, mid, up, overAny] at found
    exact Option.some.inj found
  · intro each
    refine Entries.ext_get? _ _ uniqueWhole.1
      (keys_regrouped lower middle upper uniqueMiddle.1 uniqueUpper.1 uniqueRight.1) fun key => ?_
    rw [left, right, get?_overrideEntries lower middle uniqueMiddle.1,
      get?_overrideEntries middle upper uniqueUpper.1]
    cases low : lower.get? key with
    | none => cases middle.get? key <;> cases upper.get? key <;> rfl
    | some x =>
      cases mid : middle.get? key with
      | none => cases upper.get? key <;> rfl
      | some y =>
        cases up : upper.get? key with
        | none => rfl
        | some z => exact congrArg some (each key x y z low mid up)

/-- Wherever the outer two are mappings with something else between them, the upper one has already
all that laying it over the lower one gives. -/
def CoversGaps (lowest middle top : Value) : Prop :=
  ∀ path lower between upper, lowest.valueAt? path = some (.object lower) →
    middle.valueAt? path = some between → between.entries? = none →
      top.valueAt? path = some (.object upper) → overrideEntries lower upper = upper

theorem valueAt?_cons_eq_some_iff (v w : Value) (key : String) (path : List String) :
    v.valueAt? (key :: path) = some w ↔
      ∃ (entries : Entries) (u : Value),
        v = .object entries ∧ entries.get? key = some u ∧ u.valueAt? path = some w := by
  constructor
  · intro found
    obtain ⟨u, first, rest⟩ := Option.bind_eq_some_iff.mp found
    obtain ⟨entries, mapping, present⟩ := Option.bind_eq_some_iff.mp first
    exact ⟨entries, u, eq_object v entries mapping, present, rest⟩
  · rintro ⟨entries, u, rfl, present, rest⟩
    exact Option.bind_eq_some_iff.mpr ⟨u, present, rest⟩

theorem valueAt?_entry (k key : String) (v : Value) (rest : Entries) (path : List String) :
    (object ((k, v) :: rest)).valueAt? (key :: path) =
      if key = k then v.valueAt? path else (object rest).valueAt? (key :: path) := by
  rw [valueAt?, valueAt?, entry?, entry?, entries?, Option.bind_some, entries?, Option.bind_some,
    Entries.get?_cons]
  split
  · rfl
  · rfl

theorem valueAt?_empty (key : String) (path : List String) :
    (object []).valueAt? (key :: path) = none := rfl

theorem valueAt?_of_leaf (v w : Value) (path : List String) (leaf : v.entries? = none)
    (found : v.valueAt? path = some w) : path = [] ∧ v = w := by
  cases path with
  | nil => exact ⟨rfl, Option.some.inj found⟩
  | cons key path =>
    rw [valueAt?_leaf v key path leaf] at found
    cases found

theorem coversGaps_of_leaf (lowest middle top : Value)
    (leaf : lowest.entries? = none ∨ top.entries? = none) : CoversGaps lowest middle top := by
  intro path lower between upper low _ _ up
  rcases leaf with leaf | leaf
  · obtain ⟨_, rfl⟩ := valueAt?_of_leaf lowest _ path leaf low
    cases leaf
  · obtain ⟨_, rfl⟩ := valueAt?_of_leaf top _ path leaf up
    cases leaf

theorem coversGaps_leaf_between (lower upper : Entries) (middle : Value)
    (leaf : middle.entries? = none) :
    CoversGaps (.object lower) middle (.object upper) ↔ overrideEntries lower upper = upper := by
  constructor
  · intro covers
    exact covers [] lower middle upper rfl rfl leaf rfl
  · intro same path inner between outer low mid _ up
    obtain ⟨rfl, rfl⟩ := valueAt?_of_leaf middle _ path leaf mid
    cases low
    cases up
    exact same

theorem coversGaps_objects (lower middle upper : Entries) :
    CoversGaps (.object lower) (.object middle) (.object upper) ↔
      ∀ key x y z, lower.get? key = some x → middle.get? key = some y → upper.get? key = some z →
        CoversGaps x y z := by
  constructor
  · intro covers key x y z low mid up path inner between outer lowInside midInside leaf upInside
    exact covers (key :: path) inner between outer
      ((valueAt?_cons_eq_some_iff _ _ key path).mpr ⟨lower, x, rfl, low, lowInside⟩)
      ((valueAt?_cons_eq_some_iff _ _ key path).mpr ⟨middle, y, rfl, mid, midInside⟩) leaf
      ((valueAt?_cons_eq_some_iff _ _ key path).mpr ⟨upper, z, rfl, up, upInside⟩)
  · intro each path inner between outer low mid leaf up
    cases path with
    | nil =>
      cases mid
      cases leaf
    | cons key path =>
      obtain ⟨_, x, ⟨⟩, lowHere, lowInside⟩ := (valueAt?_cons_eq_some_iff _ _ key path).mp low
      obtain ⟨_, y, ⟨⟩, midHere, midInside⟩ := (valueAt?_cons_eq_some_iff _ _ key path).mp mid
      obtain ⟨_, z, ⟨⟩, upHere, upInside⟩ := (valueAt?_cons_eq_some_iff _ _ key path).mp up
      exact each key x y z lowHere midHere upHere path inner between outer lowInside midInside leaf
        upInside

/-- The groupings agree exactly where the gaps between two mappings are covered. -/
theorem override_regrouped_iff (lowest middle top : Value) (uniqueLowest : lowest.UniqueKeys)
    (uniqueMiddle : middle.UniqueKeys) (uniqueTop : top.UniqueKeys) :
    (lowest.override middle).override top = lowest.override (middle.override top) ↔
      CoversGaps lowest middle top := by
  induction top using mapping_induction generalizing lowest middle with
  | leaf top leaf =>
    have hidden (below : Value) : below.override top = top :=
      override_replaces below top (Or.inr leaf)
    rw [hidden, hidden, hidden]
    exact iff_of_true rfl (coversGaps_of_leaf lowest middle top (Or.inr leaf))
  | mapping upper ih =>
    cases low : lowest.entries? with
    | none =>
      have hidden (above : Value) : lowest.override above = above :=
        override_replaces lowest above (Or.inl low)
      rw [hidden, hidden]
      exact iff_of_true rfl (coversGaps_of_leaf lowest middle _ (Or.inl low))
    | some lower =>
      obtain rfl := eq_object lowest lower low
      cases mid : middle.entries? with
      | none =>
        rw [coversGaps_leaf_between lower upper middle mid,
          override_replaces (.object lower) middle (Or.inr mid),
          override_replaces middle (.object upper) (Or.inl mid), eq_comm]
        exact ⟨object.inj, congrArg object⟩
      | some between =>
        obtain rfl := eq_object middle between mid
        have mappings :
            ((object lower).override (.object between)).override (.object upper) =
                (object lower).override ((object between).override (.object upper)) ↔
              overrideEntries (overrideEntries lower between) upper =
                overrideEntries lower (overrideEntries between upper) :=
          ⟨object.inj, congrArg object⟩
        have inside : ∀ key x y z, lower.get? key = some x → between.get? key = some y →
            upper.get? key = some z →
              ((x.override y).override z = x.override (y.override z) ↔ CoversGaps x y z) :=
          fun key x y z lowHere midHere upHere => ih key z upHere x y
            (uniqueKeys_of_get? lower key x uniqueLowest lowHere)
            (uniqueKeys_of_get? between key y uniqueMiddle midHere)
            (uniqueKeys_of_get? upper key z uniqueTop upHere)
        rw [mappings, coversGaps_objects, overrideEntries_regrouped_iff lower between upper
          uniqueLowest uniqueMiddle uniqueTop]
        constructor
        · intro each key x y z lowHere midHere upHere
          exact (inside key x y z lowHere midHere upHere).mp (each key x y z lowHere midHere upHere)
        · intro each key x y z lowHere midHere upHere
          exact (inside key x y z lowHere midHere upHere).mpr
            (each key x y z lowHere midHere upHere)

/-- Where no two mappings have something else than a mapping between them, it does not matter which
two of three values are laid over each other first. -/
theorem override_assoc (lowest middle top : Value) (uniqueLowest : lowest.UniqueKeys)
    (uniqueMiddle : middle.UniqueKeys) (uniqueTop : top.UniqueKeys)
    (unbroken : ¬∃ path lower between upper, lowest.valueAt? path = some (.object lower) ∧
      middle.valueAt? path = some between ∧ between.entries? = none ∧
        top.valueAt? path = some (.object upper)) :
    (lowest.override middle).override top = lowest.override (middle.override top) := by
  apply (override_regrouped_iff lowest middle top uniqueLowest uniqueMiddle uniqueTop).mpr
  intro path lower between upper low mid leaf up
  exact absurd ⟨path, lower, between, upper, low, mid, leaf, up⟩ unbroken

theorem override_assoc_theme :
    let lowest : Value := .object [("theme", .object [("sm", .bool true), ("lg", .object [])]),
      ("variants", .object [("float", .array [])])]
    let middle : Value := .object [("variants", .array [.string "hover"]),
      ("theme", .object [("xl", .null), ("lg", .object [("a", .string "1")])])]
    let top : Value := .object [("theme", .object [("sm", .object []), ("lg", .object
      [("b", .string "2")])]), ("prefix", .string "x")]
    lowest.UniqueKeys ∧ middle.UniqueKeys ∧ top.UniqueKeys ∧
      (¬∃ path lower between upper, lowest.valueAt? path = some (.object lower) ∧
        middle.valueAt? path = some between ∧ between.entries? = none ∧
          top.valueAt? path = some (.object upper)) ∧
      (lowest.override middle).override top = lowest.override (middle.override top) ∧
      lowest.override (middle.override top) = .object [("theme", .object [("sm", .object []),
        ("lg", .object [("a", .string "1"), ("b", .string "2")]), ("xl", .null)]),
          ("variants", .array [.string "hover"]), ("prefix", .string "x")] := by
  intro lowest middle top
  have uniqueLowest : lowest.UniqueKeys := by decide
  have uniqueMiddle : middle.UniqueKeys := by decide
  have uniqueTop : top.UniqueKeys := by decide
  have unbroken : ¬∃ path lower between upper, lowest.valueAt? path = some (.object lower) ∧
      middle.valueAt? path = some between ∧ between.entries? = none ∧
        top.valueAt? path = some (.object upper) := by
    rintro ⟨path, lower, between, upper, low, mid, leaf, up⟩
    match path with
    | [] => grind [valueAt?, entries?]
    | [key] => grind [valueAt?_entry, valueAt?_empty, valueAt?_leaf, valueAt?, entries?]
    | [key, inner] => grind [valueAt?_entry, valueAt?_empty, valueAt?_leaf, valueAt?, entries?]
    | key :: inner :: last :: rest =>
      grind [valueAt?_entry, valueAt?_empty, valueAt?_leaf, entries?]
  exact ⟨uniqueLowest, uniqueMiddle, uniqueTop, unbroken,
    override_assoc lowest middle top uniqueLowest uniqueMiddle uniqueTop unbroken, rfl⟩

end StyleLayers.Value
