import StyleLayers.Proofs.Json.Keys

/-!
Values compared through their keys. Mappings with the same keys in the same order and the same value
at each are equal; values are alike if they are equal up to the order in which mappings, at any
depth, have their keys.
-/

namespace StyleLayers

namespace Entries

theorem get?_isSome_iff (entries : Entries) (key : String) :
    (get? entries key).isSome = true ↔ key ∈ keys entries := by
  cases found : get? entries key with
  | none => simpa using (get?_eq_none_iff entries key).mp found
  | some v =>
    have inside := mem_of_get? entries key v found
    simp only [Option.isSome_some, true_iff]
    exact List.mem_map.mpr ⟨_, inside, rfl⟩

theorem ext_get? (entries others : Entries) (distinct : (keys entries).Nodup)
    (order : keys entries = keys others)
    (same : ∀ key, get? entries key = get? others key) : entries = others := by
  induction entries generalizing others with
  | nil => exact (List.map_eq_nil_iff.mp order.symm).symm
  | cons entry rest ih =>
    obtain ⟨k, v⟩ := entry
    cases others with
    | nil => cases order
    | cons other further =>
      obtain ⟨l, w⟩ := other
      obtain ⟨fresh, distinctRest⟩ := List.nodup_cons.mp distinct
      obtain ⟨rfl, orderRest⟩ := List.cons.inj order
      have first := same k
      rw [get?_cons, get?_cons, if_pos rfl, if_pos rfl] at first
      cases first
      have later : ∀ key, get? rest key = get? further key := by
        intro key
        by_cases here : key = k
        · subst here
          have freshFurther : key ∉ keys further := by
            rwa [keys, ← orderRest]
          rw [(get?_eq_none_iff rest key).mpr fresh,
            (get?_eq_none_iff further key).mpr freshFurther]
        · have elsewhere := same key
          rwa [get?_cons, get?_cons, if_neg here, if_neg here] at elsewhere
      rw [ih further distinctRest orderRest later]

end Entries

namespace Value

theorem members_induction {motive : Value → Prop} (null : motive .null)
    (bool : ∀ b, motive (.bool b)) (number : ∀ n, motive (.number n))
    (string : ∀ s, motive (.string s))
    (array : ∀ items : List Value, (∀ v ∈ items, motive v) → motive (.array items))
    (object : ∀ entries : Entries, (∀ entry ∈ entries, motive entry.2) → motive (.object entries))
    (v : Value) : motive v :=
  @Value.rec motive (fun items => ∀ v ∈ items, motive v)
    (fun entries => ∀ entry ∈ entries, motive entry.2) (fun entry => motive entry.2)
    null bool number string array object
    (List.forall_mem_nil _) (fun _ _ first later => List.forall_mem_cons.mpr ⟨first, later⟩)
    (List.forall_mem_nil _) (fun _ _ first later => List.forall_mem_cons.mpr ⟨first, later⟩)
    (fun _ _ inside => inside) v

theorem mapping_induction {motive : Value → Prop}
    (leaf : ∀ v : Value, v.entries? = none → motive v)
    (mapping : ∀ entries : Entries, (∀ key v, entries.get? key = some v → motive v) →
      motive (.object entries)) (v : Value) : motive v := by
  induction v using members_induction with
  | object entries ih =>
    exact mapping entries fun key v found => ih _ (Entries.mem_of_get? entries key v found)
  | _ => exact leaf _ rfl

inductive Alike : Value → Value → Prop
  | null : Alike .null .null
  | bool (b : Bool) : Alike (.bool b) (.bool b)
  | number (n : Number) : Alike (.number n) (.number n)
  | string (s : String) : Alike (.string s) (.string s)
  | array (items others : List Value) (length : items.length = others.length)
    (each : ∀ (i : Nat) (v w : Value), items[i]? = some v → others[i]? = some w → Alike v w) :
    Alike (.array items) (.array others)
  | object (entries others : Entries) (keys : entries.keys.Perm others.keys)
    (each : ∀ key v w, entries.get? key = some v → others.get? key = some w → Alike v w) :
    Alike (.object entries) (.object others)

namespace Alike

theorem refl (v : Value) : Alike v v := by
  induction v using members_induction with
  | null => exact .null
  | bool b => exact .bool b
  | number n => exact .number n
  | string s => exact .string s
  | array items ih =>
    refine .array items items rfl fun i v w found again => ?_
    rw [found] at again
    cases again
    exact ih v (List.mem_of_getElem? found)
  | object entries ih =>
    refine .object entries entries (.refl _) fun key v w found again => ?_
    rw [found] at again
    cases again
    exact ih _ (Entries.mem_of_get? entries key v found)

theorem symm {v w : Value} (same : Alike v w) : Alike w v := by
  induction same with
  | null => exact .null
  | bool b => exact .bool b
  | number n => exact .number n
  | string s => exact .string s
  | array items others length _ ih =>
    exact .array others items length.symm fun i v w found other => ih i w v other found
  | object entries others keys _ ih =>
    exact .object others entries keys.symm fun key v w found other => ih key w v other found

theorem trans {u v w : Value} (first : Alike u v) (second : Alike v w) : Alike u w := by
  induction first generalizing w with
  | null => exact second
  | bool b => exact second
  | number n => exact second
  | string s => exact second
  | array items others length _ ih =>
    cases second with
    | array _ further lengthFurther each =>
      refine .array items further (length.trans lengthFurther) fun i v w found other => ?_
      obtain ⟨inside, _⟩ := List.getElem?_eq_some_iff.mp found
      have between := List.getElem?_eq_getElem (length ▸ inside)
      exact ih i v _ found between (each i _ w between other)
  | object entries others keys _ ih =>
    cases second with
    | object _ further keysFurther each =>
      refine .object entries further (keys.trans keysFurther) fun key v w found other => ?_
      have present := (Entries.get?_isSome_iff entries key).mp (Option.isSome_of_eq_some found)
      obtain ⟨u, between⟩ := Option.isSome_iff_exists.mp
        ((Entries.get?_isSome_iff others key).mpr (keys.mem_iff.mp present))
      exact ih key v u found between (each key u w between other)

theorem get? {entries others : Entries} (same : Alike (.object entries) (.object others))
    (key : String) : Option.Rel Alike (entries.get? key) (others.get? key) := by
  cases same with
  | object _ _ keys each =>
    have both : (entries.get? key).isSome = true ↔ (others.get? key).isSome = true := by
      rw [Entries.get?_isSome_iff, Entries.get?_isSome_iff, keys.mem_iff]
    cases found : entries.get? key with
    | none =>
      cases other : others.get? key with
      | none => exact .none
      | some w => simp [found, other] at both
    | some v =>
      cases other : others.get? key with
      | none => simp [found, other] at both
      | some w => exact .some (each key v w found other)

theorem any_isSome {v w : Option Value} (same : Option.Rel Alike v w) : v.isSome = w.isSome := by
  cases same with
  | none => rfl
  | some => rfl

theorem of_get? {entries others : Entries} (distinct : entries.keys.Nodup)
    (distinctOthers : others.keys.Nodup)
    (each : ∀ key, Option.Rel Alike (entries.get? key) (others.get? key)) :
    Alike (.object entries) (.object others) := by
  refine .object entries others ?_ fun key v w found other => ?_
  · refine (List.perm_ext_iff_of_nodup distinct distinctOthers).mpr fun key => ?_
    rw [← Entries.get?_isSome_iff, ← Entries.get?_isSome_iff, any_isSome (each key)]
  · have both := each key
    rw [found, other] at both
    cases both with
    | some same => exact same

theorem entry? {v w : Value} (same : Alike v w) (key : String) :
    Option.Rel Alike (v.entry? key) (w.entry? key) := by
  cases same with
  | object entries others keys each => exact get? (.object entries others keys each) key
  | _ => exact .none

theorem leaf {v w : Value} (same : Alike v w) (nonmapping : v.entries? = none) :
    w.entries? = none := by
  cases same with
  | object => cases nonmapping
  | _ => rfl

theorem any_refl (v : Option Value) : Option.Rel Alike v v := by
  cases v with
  | none => exact .none
  | some v => exact .some (refl v)

theorem any_bind {v w : Option Value} (f : Value → Option Value) (same : Option.Rel Alike v w)
    (each : ∀ x y, Alike x y → Option.Rel Alike (f x) (f y)) :
    Option.Rel Alike (v.bind f) (w.bind f) := by
  cases same with
  | none => exact .none
  | some same => exact each _ _ same

end Alike

end Value

end StyleLayers
