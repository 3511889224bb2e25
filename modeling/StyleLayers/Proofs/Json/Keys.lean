import StyleLayers.Json.Value

/-!
Mappings by their keys: what setting a key does to the other keys, and values in which no mapping
has a key twice.
-/

namespace StyleLayers

namespace Entries

/-- The keys in order, a key that is there twice listed twice. -/
def keys (entries : Entries) : List String := entries.map Prod.fst

@[simp] theorem keys_nil : keys [] = [] := rfl

@[simp] theorem keys_cons (entry : String × Value) (rest : Entries) :
    keys (entry :: rest) = entry.1 :: keys rest := rfl

@[simp] theorem get?_nil (key : String) : get? [] key = none := rfl

theorem get?_cons (key other : String) (v : Value) (rest : Entries) :
    get? ((key, v) :: rest) other = if other = key then some v else get? rest other := by
  rw [get?, List.lookup_cons]
  by_cases same : other = key
  · rw [if_pos same, beq_iff_eq.mpr same]
  · rw [if_neg same, beq_false_of_ne same]
    rfl

theorem get?_eq_none_iff (entries : Entries) (key : String) :
    get? entries key = none ↔ key ∉ keys entries := by
  rw [get?, List.lookup_eq_none_iff]
  constructor
  · intro absent member
    obtain ⟨entry, inside, same⟩ := List.mem_map.mp member
    have different := absent entry inside
    rw [same, bne_self_eq_false] at different
    cases different
  · intro absent entry inside
    apply bne_iff_ne.mpr
    rintro rfl
    exact absent (List.mem_map_of_mem inside)

theorem mem_of_get? (entries : Entries) (key : String) (v : Value)
    (found : get? entries key = some v) : (key, v) ∈ entries := by
  obtain ⟨front, back, shape, _⟩ := List.lookup_eq_some_iff.mp found
  rw [shape]
  exact List.mem_append_right front List.mem_cons_self

theorem get?_insert (key other : String) (v : Value) (entries : Entries) :
    get? (insert key v entries) other = if other = key then some v else get? entries other := by
  induction entries with
  | nil => rw [insert, get?_cons]
  | cons entry rest ih =>
    obtain ⟨k, w⟩ := entry
    by_cases here : k = key
    · subst here
      simp only [insert, if_true, get?_cons]
      by_cases same : other = k
      · rw [if_pos same, if_pos same]
      · rw [if_neg same, if_neg same, if_neg same]
    · simp only [insert, if_neg here, get?_cons, ih]
      by_cases first : other = k
      · have different : other ≠ key := fun same => here (first.symm.trans same)
        rw [if_pos first, if_neg different, if_pos first]
      · rw [if_neg first, if_neg first]

theorem keys_insert (key : String) (v : Value) (entries : Entries) :
    keys (insert key v entries) =
      if key ∈ keys entries then keys entries else keys entries ++ [key] := by
  induction entries with
  | nil => rfl
  | cons entry rest ih =>
    obtain ⟨k, w⟩ := entry
    by_cases here : k = key
    · simp [insert, here]
    · have other : key ≠ k := fun same => here same.symm
      by_cases later : key ∈ keys rest
      · simp [insert, here, ih, later]
      · simp [insert, here, ih, later, other]

theorem mem_keys_insert (key other : String) (v : Value) (entries : Entries)
    (there : key = other ∨ key ∈ keys entries) : key ∈ keys (insert other v entries) := by
  rw [keys_insert]
  split
  · rcases there with rfl | present
    · assumption
    · exact present
  · rcases there with rfl | present
    · exact List.mem_append_right _ List.mem_cons_self
    · exact List.mem_append_left _ present

theorem insert_nodup (key : String) (v : Value) (entries : Entries)
    (distinct : (keys entries).Nodup) : (keys (insert key v entries)).Nodup := by
  rw [keys_insert]
  by_cases present : key ∈ keys entries
  · rwa [if_pos present]
  · rw [if_neg present]
    apply List.nodup_append.mpr
    refine ⟨distinct, by simp, ?_⟩
    intro earlier member last mem
    rw [List.mem_singleton.mp mem]
    rintro rfl
    exact present member

theorem mem_insert (key : String) (v : Value) (entries : Entries) (entry : String × Value)
    (inside : entry ∈ insert key v entries) : entry = (key, v) ∨ entry ∈ entries := by
  induction entries with
  | nil => exact Or.inl (List.mem_singleton.mp inside)
  | cons first rest ih =>
    obtain ⟨k, w⟩ := first
    rw [insert] at inside
    split at inside
    · next same =>
      rcases List.mem_cons.mp inside with rfl | later
      · exact Or.inl (congrArg (·, v) same)
      · exact Or.inr (List.mem_cons_of_mem _ later)
    · rcases List.mem_cons.mp inside with rfl | later
      · exact Or.inr List.mem_cons_self
      · exact (ih later).imp id (List.mem_cons_of_mem _)

theorem insert_same (key : String) (v : Value) (entries : Entries)
    (found : get? entries key = some v) : insert key v entries = entries := by
  induction entries with
  | nil => cases found
  | cons entry rest ih =>
    obtain ⟨k, w⟩ := entry
    rw [get?_cons] at found
    by_cases here : k = key
    · subst here
      rw [if_pos rfl] at found
      cases found
      rw [insert, if_pos rfl]
    · have later := ih (by rwa [if_neg (Ne.symm here)] at found)
      rw [insert, if_neg here, later]

theorem get?_of_mem (entries : Entries) (distinct : (keys entries).Nodup)
    (entry : String × Value) (inside : entry ∈ entries) :
    get? entries entry.1 = some entry.2 := by
  induction entries with
  | nil => cases inside
  | cons first rest ih =>
    obtain ⟨k, w⟩ := first
    obtain ⟨fresh, distinctRest⟩ := List.nodup_cons.mp distinct
    rw [get?_cons]
    rcases List.mem_cons.mp inside with rfl | later
    · exact if_pos rfl
    · have other : entry.1 ≠ k := by
        rintro rfl
        exact fresh (List.mem_map.mpr ⟨entry, later, rfl⟩)
      rw [if_neg other]
      exact ih distinctRest later

theorem insert_insert_self (key : String) (v w : Value) (entries : Entries) :
    insert key w (insert key v entries) = insert key w entries := by
  induction entries with
  | nil => simp [insert]
  | cons entry rest ih =>
    obtain ⟨k, u⟩ := entry
    by_cases here : k = key
    · simp [insert, here]
    · simp [insert, here, ih]

/-- Keys can be set in any order when one of them has its place already. -/
theorem insert_comm (key other : String) (v w : Value) (entries : Entries) (differ : other ≠ key)
    (present : key ∈ keys entries) :
    insert other w (insert key v entries) = insert key v (insert other w entries) := by
  induction entries with
  | nil => cases present
  | cons entry rest ih =>
    obtain ⟨k, u⟩ := entry
    by_cases here : k = key
    · subst here
      simp [insert, differ.symm]
    · have later : key ∈ keys rest := (List.mem_cons.mp present).resolve_left (Ne.symm here)
      by_cases first : k = other
      · subst first
        simp [insert, here]
      · simp [insert, here, first, ih later]

theorem insert_fresh (key : String) (v : Value) (entries : Entries) (fresh : key ∉ keys entries) :
    insert key v entries = entries ++ [(key, v)] := by
  induction entries with
  | nil => rfl
  | cons entry rest ih =>
    obtain ⟨k, w⟩ := entry
    have other : k ≠ key := fun same => fresh (List.mem_cons.mpr (Or.inl same.symm))
    have later := ih fun member => fresh (List.mem_cons_of_mem _ member)
    rw [insert, if_neg other, later, List.cons_append]

theorem foldl_insert (pairs entries : Entries) (distinct : (keys (entries ++ pairs)).Nodup) :
    pairs.foldl (fun set pair => insert pair.1 pair.2 set) entries = entries ++ pairs := by
  induction pairs generalizing entries with
  | nil => rw [List.foldl_nil, List.append_nil]
  | cons pair pairs ih =>
    have whole : entries ++ pair :: pairs = entries ++ [pair] ++ pairs :=
      List.append_cons entries pair pairs
    have fresh : pair.1 ∉ keys entries := by
      rw [keys, List.map_append, List.map_cons] at distinct
      exact fun member => (List.nodup_append.mp distinct).2.2 _ member _ List.mem_cons_self rfl
    rw [whole] at distinct
    rw [List.foldl_cons, insert_fresh _ _ _ fresh, ih _ distinct, whole]

theorem ofList_distinct (pairs : Entries) (distinct : (keys pairs).Nodup) : ofList pairs = pairs :=
  foldl_insert pairs [] distinct

theorem get?_map (change : String × Value → String × Value)
    (keeps : ∀ entry, (change entry).1 = entry.1) (entries : Entries) (key : String) :
    get? (entries.map change) key = (get? entries key).map fun v => (change (key, v)).2 := by
  induction entries with
  | nil => rfl
  | cons entry rest ih =>
    obtain ⟨k, v⟩ := entry
    have shape : change (k, v) = (k, (change (k, v)).2) := Prod.ext (keeps _) rfl
    rw [List.map_cons, shape, get?_cons, get?_cons, ih]
    by_cases here : key = k
    · rw [if_pos here, if_pos here, here]
      rfl
    · rw [if_neg here, if_neg here]

theorem keys_map (change : String × Value → String × Value)
    (keeps : ∀ entry, (change entry).1 = entry.1) (entries : Entries) :
    keys (entries.map change) = keys entries := by
  rw [keys, List.map_map]
  exact List.map_congr_left fun entry _ => keeps entry

def without (key : String) (entries : Entries) : Entries :=
  entries.filter fun entry => entry.1 ≠ key

theorem without_cons_self (key : String) (v : Value) (rest : Entries) :
    without key ((key, v) :: rest) = without key rest :=
  List.filter_cons_of_neg (by simp)

theorem without_cons_of_ne (key other : String) (v : Value) (rest : Entries)
    (different : other ≠ key) :
    without key ((other, v) :: rest) = (other, v) :: without key rest :=
  List.filter_cons_of_pos (by simpa using different)

theorem get?_without_self (key : String) (entries : Entries) :
    get? (without key entries) key = none := by
  apply (get?_eq_none_iff _ key).mpr
  intro member
  obtain ⟨entry, inside, same⟩ := List.mem_map.mp member
  have different := (List.mem_filter.mp inside).2
  simp [same] at different

theorem get?_without_of_ne (key other : String) (entries : Entries) (different : other ≠ key) :
    get? (without key entries) other = get? entries other := by
  induction entries with
  | nil => rfl
  | cons entry rest ih =>
    obtain ⟨k, v⟩ := entry
    by_cases here : k = key
    · subst here
      rw [without_cons_self, ih, get?_cons, if_neg different]
    · rw [without_cons_of_ne key k v rest here, get?_cons, get?_cons, ih]

theorem without_insert_self (key : String) (v : Value) (entries : Entries) :
    without key (insert key v entries) = without key entries := by
  induction entries with
  | nil => exact without_cons_self key v []
  | cons entry rest ih =>
    obtain ⟨k, w⟩ := entry
    by_cases here : k = key
    · subst here
      rw [insert, if_pos rfl, without_cons_self, without_cons_self]
    · rw [insert, if_neg here, without_cons_of_ne key k w _ here,
        without_cons_of_ne key k w _ here, ih]

theorem without_insert_of_ne (key other : String) (v : Value) (entries : Entries)
    (different : other ≠ key) :
    without key (insert other v entries) = insert other v (without key entries) := by
  induction entries with
  | nil => exact without_cons_of_ne key other v [] different
  | cons entry rest ih =>
    obtain ⟨k, w⟩ := entry
    by_cases first : k = other
    · subst first
      rw [insert, if_pos rfl, without_cons_of_ne key k v _ different,
        without_cons_of_ne key k w _ different, insert, if_pos rfl]
    · rw [insert, if_neg first]
      by_cases here : k = key
      · subst here
        rw [without_cons_self, without_cons_self, ih]
      · rw [without_cons_of_ne key k w _ here, without_cons_of_ne key k w _ here, ih, insert,
          if_neg first]

end Entries

namespace Value

def without (key : String) : Value → Value
  | .object entries => .object (Entries.without key entries)
  | v => v

mutual

/-- No mapping in the value, at any depth, has a key twice. -/
def UniqueKeys : Value → Prop
  | .null => True
  | .bool _ => True
  | .number _ => True
  | .string _ => True
  | .array items => UniqueKeysItems items
  | .object entries => (Entries.keys entries).Nodup ∧ UniqueKeysEntries entries

def UniqueKeysItems : List Value → Prop
  | [] => True
  | v :: vs => UniqueKeys v ∧ UniqueKeysItems vs

def UniqueKeysEntries : List (String × Value) → Prop
  | [] => True
  | (_, v) :: rest => UniqueKeys v ∧ UniqueKeysEntries rest

end

mutual

def decideUniqueKeys : (v : Value) → Decidable v.UniqueKeys
  | .null => .isTrue trivial
  | .bool _ => .isTrue trivial
  | .number _ => .isTrue trivial
  | .string _ => .isTrue trivial
  | .array items => decideUniqueKeysItems items
  | .object entries =>
    have := decideUniqueKeysEntries entries
    inferInstanceAs (Decidable ((Entries.keys entries).Nodup ∧ UniqueKeysEntries entries))

def decideUniqueKeysItems : (vs : List Value) → Decidable (UniqueKeysItems vs)
  | [] => .isTrue trivial
  | v :: vs =>
    have := decideUniqueKeys v
    have := decideUniqueKeysItems vs
    inferInstanceAs (Decidable (UniqueKeys v ∧ UniqueKeysItems vs))

def decideUniqueKeysEntries :
    (entries : List (String × Value)) → Decidable (UniqueKeysEntries entries)
  | [] => .isTrue trivial
  | (_, v) :: rest =>
    have := decideUniqueKeys v
    have := decideUniqueKeysEntries rest
    inferInstanceAs (Decidable (UniqueKeys v ∧ UniqueKeysEntries rest))

end

instance (v : Value) : Decidable v.UniqueKeys := decideUniqueKeys v

theorem uniqueKeysItems_iff (items : List Value) :
    UniqueKeysItems items ↔ ∀ v ∈ items, v.UniqueKeys := by
  induction items with
  | nil => simp [UniqueKeysItems]
  | cons v vs ih => simp [UniqueKeysItems, ih]

theorem uniqueKeysEntries_iff (entries : Entries) :
    UniqueKeysEntries entries ↔ ∀ entry ∈ entries, entry.2.UniqueKeys := by
  induction entries with
  | nil => simp [UniqueKeysEntries]
  | cons entry rest ih => simp [UniqueKeysEntries, ih]

theorem uniqueKeys_of_get? (entries : Entries) (key : String) (v : Value)
    (unique : UniqueKeys (.object entries)) (found : entries.get? key = some v) :
    v.UniqueKeys := by
  have inside := Entries.mem_of_get? entries key v found
  exact (uniqueKeysEntries_iff entries).mp unique.2 _ inside

theorem uniqueKeys_insert (entries : Entries) (key : String) (v : Value)
    (unique : UniqueKeys (.object entries)) (uniqueInside : v.UniqueKeys) :
    UniqueKeys (.object (entries.insert key v)) := by
  constructor
  · exact Entries.insert_nodup key v entries unique.1
  · apply (uniqueKeysEntries_iff _).mpr
    intro entry inside
    rcases Entries.mem_insert key v entries entry inside with rfl | old
    · exact uniqueInside
    · exact (uniqueKeysEntries_iff entries).mp unique.2 entry old

end Value

end StyleLayers
