import StyleLayers.Config.Override
import StyleLayers.Proofs.Json.Keys

/-!
What is found at a path of keys in a value laid over another. Down to the first value on top that is
no mapping the two are read side by side, and below it only the one on top counts.
-/

namespace StyleLayers.Value

def overAny : Option Value → Value → Value
  | some below, above => below.override above
  | none, above => above

def valueAt? (v : Value) : List String → Option Value
  | [] => some v
  | key :: path => (v.entry? key).bind (valueAt? · path)

/-- Somewhere before its end the path meets a value that is no mapping. -/
def Blocks (v : Value) (path : List String) : Prop :=
  ∃ front rest w, path = front ++ rest ∧ rest ≠ [] ∧ v.valueAt? front = some w ∧ w.entries? = none

theorem eq_object (v : Value) (entries : Entries) (mapping : v.entries? = some entries) :
    v = .object entries := by
  cases v with
  | object inner =>
    cases mapping
    rfl
  | _ => cases mapping

theorem override_replaces (below above : Value)
    (leaf : below.entries? = none ∨ above.entries? = none) : below.override above = above := by
  cases above with
  | object upper =>
    have leafBelow : below.entries? = none := leaf.resolve_right (by simp [entries?])
    cases below with
    | object lower => cases leafBelow
    | _ => rfl
  | _ => rfl

theorem overAny_leaf (below : Option Value) (above : Value) (leaf : above.entries? = none) :
    overAny below above = above := by
  cases below with
  | none => rfl
  | some below => exact override_replaces below above (Or.inr leaf)

theorem overrideEntries_cons (lower rest : Entries) (key : String) (v : Value) :
    overrideEntries lower ((key, v) :: rest) =
      overrideEntries (lower.insert key (overAny (lower.get? key) v)) rest := by
  rw [overrideEntries]
  cases lower.get? key with
  | some existing => rfl
  | none => rfl

theorem get?_overrideEntries (lower upper : Entries) (distinct : upper.keys.Nodup)
    (key : String) :
    Entries.get? (overrideEntries lower upper) key =
      match upper.get? key with
      | some v => some (overAny (lower.get? key) v)
      | none => lower.get? key := by
  induction upper generalizing lower with
  | nil => rfl
  | cons entry rest ih =>
    obtain ⟨k, v⟩ := entry
    obtain ⟨fresh, distinctRest⟩ := List.nodup_cons.mp distinct
    rw [overrideEntries_cons, ih _ distinctRest, Entries.get?_insert, Entries.get?_cons]
    by_cases here : key = k
    · subst here
      have absent := (Entries.get?_eq_none_iff rest key).mpr fresh
      rw [absent, if_pos rfl, if_pos rfl]
    · rw [if_neg here, if_neg here]

theorem keys_overrideEntries (lower upper : Entries) (distinct : upper.keys.Nodup) :
    Entries.keys (overrideEntries lower upper) =
      lower.keys ++ upper.keys.filter (· ∉ lower.keys) := by
  induction upper generalizing lower with
  | nil => simp [overrideEntries]
  | cons entry rest ih =>
    obtain ⟨k, v⟩ := entry
    obtain ⟨fresh, distinctRest⟩ := List.nodup_cons.mp distinct
    rw [overrideEntries_cons, ih _ distinctRest, Entries.keys_insert, Entries.keys_cons]
    by_cases present : k ∈ lower.keys
    · rw [if_pos present, List.filter_cons_of_neg (by simpa using present)]
    · have later : (Entries.keys rest).filter (· ∉ lower.keys ++ [k]) =
          (Entries.keys rest).filter (· ∉ lower.keys) := by
        apply List.filter_congr
        intro other member
        have different : other ≠ k := fun same => fresh (same ▸ member)
        simp [different]
      rw [if_neg present, later, List.filter_cons_of_pos (by simpa using present),
        List.append_assoc, List.singleton_append]

theorem entry?_overAny (below : Option Value) (upper : Entries) (distinct : upper.keys.Nodup)
    (key : String) :
    Value.entry? (overAny below (.object upper)) key =
      match upper.get? key with
      | some v => some (overAny (below.bind (Value.entry? · key)) v)
      | none => below.bind (Value.entry? · key) := by
  have alone : Value.entry? (object upper) key =
      match upper.get? key with
      | some v => some (overAny none v)
      | none => none := by
    cases found : upper.get? key with
    | some v => exact found
    | none => exact found
  cases below with
  | none => exact alone
  | some below =>
    cases below with
    | object lower => exact get?_overrideEntries lower upper distinct key
    | _ => exact alone

theorem overrideEntries_without (key : String) (lower upper : Entries) :
    Entries.without key (overrideEntries lower upper) =
      overrideEntries (lower.without key) (upper.without key) := by
  induction upper generalizing lower with
  | nil => rfl
  | cons entry rest ih =>
    obtain ⟨k, v⟩ := entry
    rw [overrideEntries_cons, ih]
    by_cases here : k = key
    · subst here
      rw [Entries.without_insert_self, Entries.without_cons_self]
    · rw [Entries.without_insert_of_ne key k _ lower here,
        Entries.without_cons_of_ne key k v rest here, overrideEntries_cons,
        Entries.get?_without_of_ne key k lower here]

theorem override_without (key : String) (below above : Value) :
    (below.override above).without key = (below.without key).override (above.without key) := by
  cases above with
  | object upper =>
    cases below with
    | object lower => exact congrArg object (overrideEntries_without key lower upper)
    | _ => rfl
  | _ => rfl

theorem blocks_nil (v : Value) : ¬v.Blocks [] := by
  rintro ⟨front, rest, w, shape, more, _⟩
  exact more (List.append_eq_nil_iff.mp shape.symm).2

theorem bind_valueAt?_cons (v : Option Value) (key : String) (path : List String) :
    v.bind (valueAt? · (key :: path)) = (v.bind (Value.entry? · key)).bind (valueAt? · path) := by
  rw [Option.bind_assoc]
  rfl

theorem valueAt?_leaf (v : Value) (key : String) (path : List String) (leaf : v.entries? = none) :
    v.valueAt? (key :: path) = none := by
  rw [valueAt?, entry?, leaf]
  rfl

theorem blocks_leaf (v : Value) (key : String) (path : List String) (leaf : v.entries? = none) :
    v.Blocks (key :: path) :=
  ⟨[], key :: path, v, rfl, List.cons_ne_nil _ _, rfl, leaf⟩

theorem blocks_object (entries : Entries) (key : String) (path : List String) :
    (object entries).Blocks (key :: path) ↔
      ∃ v, entries.get? key = some v ∧ v.Blocks path := by
  constructor
  · rintro ⟨front, rest, w, shape, more, found, leaf⟩
    cases front with
    | nil =>
      cases found
      cases leaf
    | cons k front =>
      obtain ⟨rfl, rfl⟩ := List.cons.inj shape
      obtain ⟨v, present, inside⟩ := Option.bind_eq_some_iff.mp found
      exact ⟨v, present, front, rest, w, rfl, more, inside, leaf⟩
  · rintro ⟨v, present, front, rest, w, shape, more, found, leaf⟩
    refine ⟨key :: front, rest, w, by rw [shape]; rfl, more, ?_, leaf⟩
    exact Option.bind_eq_some_iff.mpr ⟨v, present, found⟩

theorem valueAt?_blocked (below : Option Value) (above : Value) (path : List String)
    (unique : above.UniqueKeys) (blocked : above.Blocks path) :
    (overAny below above).valueAt? path = none := by
  induction path generalizing below above with
  | nil => exact absurd blocked (blocks_nil above)
  | cons key path ih =>
    cases shape : above.entries? with
    | none => rw [overAny_leaf below above shape, valueAt?_leaf above key path shape]
    | some upper =>
      obtain rfl := eq_object above upper shape
      obtain ⟨v, present, deeper⟩ := (blocks_object upper key path).mp blocked
      rw [valueAt?, entry?_overAny below upper unique.1 key, present]
      exact ih _ v (uniqueKeys_of_get? upper key v unique present) deeper

theorem valueAt?_absent (below : Option Value) (above : Value) (path : List String)
    (unique : above.UniqueKeys) (free : ¬above.Blocks path) (absent : above.valueAt? path = none) :
    (overAny below above).valueAt? path = below.bind (valueAt? · path) := by
  induction path generalizing below above with
  | nil => cases absent
  | cons key path ih =>
    cases shape : above.entries? with
    | none => exact absurd (blocks_leaf above key path shape) free
    | some upper =>
      obtain rfl := eq_object above upper shape
      rw [valueAt?, entry?_overAny below upper unique.1 key, bind_valueAt?_cons]
      cases present : upper.get? key with
      | none => rfl
      | some v =>
        have freeInside : ¬v.Blocks path := by
          intro blocked
          exact free ((blocks_object upper key path).mpr ⟨v, present, blocked⟩)
        have absentInside : v.valueAt? path = none := by
          rw [valueAt?, entry?, entries?, Option.bind_some, present] at absent
          exact absent
        exact ih _ v (uniqueKeys_of_get? upper key v unique present) freeInside absentInside

theorem valueAt?_present (below : Option Value) (above v : Value) (path : List String)
    (unique : above.UniqueKeys) (found : above.valueAt? path = some v) :
    (overAny below above).valueAt? path =
      some (overAny (below.bind (valueAt? · path)) v) := by
  induction path generalizing below above with
  | nil =>
    cases found
    cases below with
    | none => rfl
    | some below => rfl
  | cons key path ih =>
    obtain ⟨inner, first, rest⟩ := Option.bind_eq_some_iff.mp found
    obtain ⟨upper, shape, present⟩ := Option.bind_eq_some_iff.mp first
    obtain rfl := eq_object above upper shape
    rw [valueAt?, entry?_overAny below upper unique.1 key, present, bind_valueAt?_cons]
    exact ih _ inner (uniqueKeys_of_get? upper key inner unique present) rest

/-- What a value laid over another holds at a path. -/
structure OverrideAt (below above merged : Value) (path : List String) : Prop where
  blocked : above.Blocks path → merged.valueAt? path = none
  kept : ¬above.Blocks path → above.valueAt? path = none →
    merged.valueAt? path = below.valueAt? path
  added : ∀ v, above.valueAt? path = some v → below.valueAt? path = none →
    merged.valueAt? path = some v
  combined : ∀ v, above.valueAt? path = some v → ∀ b, below.valueAt? path = some b →
    merged.valueAt? path = some (b.override v)
  replaced : ∀ v, above.valueAt? path = some v → ∀ b, below.valueAt? path = some b →
    b.entries? = none ∨ v.entries? = none → merged.valueAt? path = some v
  ordered : ∀ upper : Entries, above.valueAt? path = some (.object upper) →
    ∀ lower : Entries, below.valueAt? path = some (.object lower) →
      ∃ entries : Entries, merged.valueAt? path = some (.object entries) ∧
        entries.keys = lower.keys ++ upper.keys.filter (· ∉ lower.keys)

theorem uniqueKeys_of_valueAt? (v w : Value) (path : List String) (unique : v.UniqueKeys)
    (found : v.valueAt? path = some w) : w.UniqueKeys := by
  induction path generalizing v with
  | nil =>
    cases found
    exact unique
  | cons key path ih =>
    obtain ⟨inner, first, rest⟩ := Option.bind_eq_some_iff.mp found
    obtain ⟨entries, shape, present⟩ := Option.bind_eq_some_iff.mp first
    obtain rfl := eq_object v entries shape
    exact ih inner (uniqueKeys_of_get? entries key inner unique present) rest

/-- Laying one value over another is a deep override, path by path and with the keys in order. -/
theorem override_at_every_path (below above : Value) (unique : above.UniqueKeys)
    (path : List String) : OverrideAt below above (below.override above) path := by
  have combined : ∀ v, above.valueAt? path = some v → ∀ b, below.valueAt? path = some b →
      (below.override above).valueAt? path = some (b.override v) := by
    intro v found b foundBelow
    have present := valueAt?_present (some below) above v path unique found
    rw [Option.bind_some, foundBelow] at present
    exact present
  constructor
  case blocked => exact valueAt?_blocked (some below) above path unique
  case kept => exact valueAt?_absent (some below) above path unique
  case added =>
    intro v found absent
    have present := valueAt?_present (some below) above v path unique found
    rw [Option.bind_some, absent] at present
    exact present
  case combined => exact combined
  case replaced =>
    intro v found b foundBelow leaf
    rw [combined v found b foundBelow, override_replaces b v leaf]
  case ordered =>
    intro upper found lower foundBelow
    have distinct := (uniqueKeys_of_valueAt? above _ path unique found).1
    exact ⟨overrideEntries lower upper, combined _ found _ foundBelow,
      keys_overrideEntries lower upper distinct⟩

theorem override_at_nested_mapping :
    let below : Value := .object [("theme", .object [("sm", .bool true), ("md", .object [])])]
    let above : Value := .object [("theme", .object [("xl", .null), ("md", .string "2")])]
    above.UniqueKeys ∧ above.Blocks ["theme", "md", "a"] ∧
      (below.override above).valueAt? ["theme", "md", "a"] = none ∧
      (below.override above).valueAt? ["theme", "md"] = some (.string "2") ∧
      (below.override above).valueAt? ["theme", "sm"] = some (.bool true) ∧
      ∃ entries : Entries, (below.override above).valueAt? ["theme"] = some (.object entries) ∧
        entries.keys = ["sm", "md", "xl"] := by
  intro below above
  have unique : above.UniqueKeys := by decide
  have blocks : above.Blocks ["theme", "md", "a"] :=
    ⟨["theme", "md"], ["a"], .string "2", rfl, by decide, rfl, rfl⟩
  have free : ¬above.Blocks ["theme", "sm"] := by
    intro blocked
    obtain ⟨theme, found, blocked⟩ := (blocks_object _ _ _).mp blocked
    cases found
    obtain ⟨size, found, _⟩ := (blocks_object _ _ _).mp blocked
    cases found
  have at_path := override_at_every_path below above unique
  exact ⟨unique, blocks, (at_path _).blocked blocks, (at_path _).replaced _ rfl _ rfl (Or.inr rfl),
    (at_path _).kept free rfl, (at_path ["theme"]).ordered _ rfl _ rfl⟩

end StyleLayers.Value
