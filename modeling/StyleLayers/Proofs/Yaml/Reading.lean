import StyleLayers.Proofs.Json.Keys
import StyleLayers.Yaml.Reader

/-!
Values read from YAML text have no key twice, whatever aliases stand in the text: a key that comes
again in a mapping sets the entry that it has.
-/

namespace StyleLayers.Yaml

namespace Schema

theorem intValue?_uniqueKeys (cs : List Char) (v : Value) (read : intValue? cs = some (some v)) :
    v.UniqueKeys := by
  unfold intValue? at read
  repeat' split at read
  all_goals cases read
  trivial

theorem float?_uniqueKeys (cs : List Char) (v : Value) (read : float? cs = some v) :
    v.UniqueKeys := by
  rw [float?] at read
  split at read
  · cases read
    trivial
  · obtain ⟨d, _, read⟩ := Option.bind_eq_some_iff.mp read
    obtain ⟨x, _, rfl⟩ := Option.map_eq_some_iff.mp read
    trivial

theorem plain_uniqueKeys (text : String) (v : Value) (read : plain text = some v) :
    v.UniqueKeys := by
  rw [plain] at read
  split at read
  · cases read
    trivial
  · split at read
    · cases read
      trivial
    · split at read
      · next whole =>
        rw [read] at whole
        exact intValue?_uniqueKeys _ _ whole
      · split at read
        · cases read
          trivial
        · cases number : float? text.toList with
          | none =>
            rw [number] at read
            cases read
            trivial
          | some x =>
            rw [number] at read
            cases read
            exact float?_uniqueKeys _ _ number

theorem scalar_uniqueKeys (tag : Option Tag) (text : String) (isPlain : Bool) (v : Value)
    (read : scalar tag text isPlain = some v) : v.UniqueKeys := by
  unfold scalar at read
  split at read
  · split at read
    · exact plain_uniqueKeys text v read
    · cases read
      trivial
  · split at read
    · cases read
    · split at read
      · obtain ⟨b, _, rfl⟩ := Option.map_eq_some_iff.mp read
        trivial
      · split at read
        · exact intValue?_uniqueKeys _ v (Option.join_eq_some_iff.mp read)
        · split at read
          · exact float?_uniqueKeys _ v read
          · split at read
            · split at read
              · cases read
                trivial
              · cases read
            · split at read
              · exact plain_uniqueKeys text v read
              · cases read
                trivial

end Schema

namespace Linked

def Ensures {α : Type} (P : α → Prop) (run : Following α) : Prop :=
  ∀ left a after, run left = some (a, after) → P a

theorem ensures_pure {α : Type} (P : α → Prop) (a : α) (holds : P a) : Ensures P (pure a) := by
  intro left b after done
  cases done
  exact holds

theorem ensures_failure {α : Type} (P : α → Prop) : Ensures P failure := by
  intro left a after impossible
  cases impossible

theorem ensures_bind {α β : Type} (P : α → Prop) (Q : β → Prop) (run : Following α)
    (next : α → Following β) (first : Ensures P run) (later : ∀ a, P a → Ensures Q (next a)) :
    Ensures Q (run >>= next) := by
  intro left b after done
  obtain ⟨⟨a, between⟩, ran, done⟩ := Option.bind_eq_some_iff.mp done
  exact later a (first left a between ran) between b after done

theorem ensures_ask {α β : Type} (Q : β → Prop) (run : Following α) (next : α → Following β)
    (later : ∀ a, Ensures Q (next a)) : Ensures Q (run >>= next) :=
  ensures_bind (fun _ => True) Q run next (fun _ _ _ _ => trivial) fun a _ => later a

/-- Following the recursion of the reader, in which an alias counts as the node that it means. -/
theorem value_ensures (table : Table) :
    (∀ depth node, Ensures Value.UniqueKeys (value table depth node)) ∧
      (∀ depth done entries, (Value.object done).UniqueKeys →
        Ensures (fun es => (Value.object es).UniqueKeys) (valueEntries table depth done entries)) ∧
      ∀ depth nodes, Ensures Value.UniqueKeysItems (valueAll table depth nodes) := by
  apply value.mutual_induct table
  -- an alias
  · intro depth number ih
    rw [value]
    apply ensures_ask
    intro target
    split
    · next known => exact ih target known
    · exact ensures_failure _
  -- a scalar
  · intro depth tag text plain
    rw [value]
    intro left v after done
    obtain ⟨w, read, done⟩ := Option.bind_eq_some_iff.mp done
    cases done
    exact Schema.scalar_uniqueKeys tag text plain v read
  -- a sequence: nested too deep, with a local tag, and as it should be
  · intro tag items
    rw [value]
    exact ensures_failure _
  · intro tag items depth isLocal ih
    rw [value, if_pos isLocal]
    exact ensures_failure _
  · intro tag items depth known ih
    rw [value, if_neg known]
    refine ensures_bind Value.UniqueKeysItems Value.UniqueKeys _ _ ih ?_
    intro vs unique
    exact ensures_pure _ _ unique
  -- a mapping, likewise
  · intro tag entries
    rw [value]
    exact ensures_failure _
  · intro tag entries depth isLocal ih
    rw [value, if_pos isLocal]
    exact ensures_failure _
  · intro tag entries depth known ih
    rw [value, if_neg known]
    refine ensures_bind (fun es => (Value.object es).UniqueKeys) Value.UniqueKeys _ _
      (ih ⟨List.nodup_nil, trivial⟩) ?_
    intro es unique
    exact ensures_pure _ _ unique
  -- entries
  · intro depth done unique
    rw [valueEntries]
    exact ensures_pure _ _ unique
  · intro depth done k n rest ihValue ihRest unique
    rw [valueEntries]
    apply ensures_ask
    intro key
    refine ensures_bind Value.UniqueKeys _ _ _ ihValue ?_
    intro v uniqueValue
    exact ihRest key v (Value.uniqueKeys_insert done key v unique uniqueValue)
  -- items
  · intro depth
    rw [valueAll]
    exact ensures_pure _ _ trivial
  · intro depth n ns ihValue ihRest
    rw [valueAll]
    refine ensures_bind Value.UniqueKeys _ _ _ ihValue ?_
    intro v unique
    refine ensures_bind Value.UniqueKeysItems Value.UniqueKeysItems _ _ ihRest ?_
    intro vs uniqueRest
    exact ensures_pure _ _ ⟨unique, uniqueRest⟩

end Linked

theorem read?_uniqueKeys (text : String) (v : Value) (readable : read? text = some v) :
    v.UniqueKeys := by
  obtain ⟨tokens, _, readable⟩ := Option.bind_eq_some_iff.mp readable
  obtain ⟨document, _, readable⟩ := Option.bind_eq_some_iff.mp readable
  cases document with
  | none =>
    cases readable
    trivial
  | some node =>
    obtain ⟨linking, _, readable⟩ := Option.bind_eq_some_iff.mp readable
    obtain ⟨⟨w, after⟩, run, same⟩ := Option.map_eq_some_iff.mp readable
    cases same
    exact (Linked.value_ensures linking.numbered).1 _ _ _ _ _ run

end StyleLayers.Yaml
