import StyleLayers.Config.Path
import StyleLayers.Proofs.Json.Keys

/-!
Which value a list of keys leads to: one step down for each key, into a mapping by the key itself
and into an array by the position that the key spells.
-/

namespace StyleLayers

namespace Path

def unsigned : List Char → List Char
  | '+' :: digits => digits
  | digits => digits

theorem unsigned_cases (cs : List Char) : cs = unsigned cs ∨ cs = '+' :: unsigned cs := by
  unfold unsigned
  split
  · exact Or.inr rfl
  · exact Or.inl rfl

theorem unsigned_digits (digits : List Char) (decimal : ∀ d ∈ digits, d.isDigit) :
    unsigned digits = digits := by
  unfold unsigned
  split
  · next rest => exact absurd (decimal '+' List.mem_cons_self) (by decide)
  · rfl

/-- The key is a position in decimal digits, with or without a plus sign. -/
def SpellsPosition (key : String) (i : Nat) : Prop :=
  ∃ digits : List Char, digits ≠ [] ∧ (∀ d ∈ digits, d.isDigit) ∧
    (key.toList = digits ∨ key.toList = '+' :: digits) ∧ Nat.ofDigitChars 10 digits 0 = i

theorem position?_eq (key : String) :
    position? key = if unsigned key.toList ≠ [] ∧ (unsigned key.toList).all Char.isDigit then
      some (Nat.ofDigitChars 10 (unsigned key.toList) 0) else none := rfl

theorem position?_eq_some_iff (key : String) (i : Nat) :
    position? key = some i ↔ SpellsPosition key i := by
  rw [position?_eq, Option.ite_none_right_eq_some, List.all_eq_true, Option.some.injEq]
  constructor
  · rintro ⟨⟨nonempty, decimal⟩, spelled⟩
    exact ⟨_, nonempty, decimal, unsigned_cases key.toList, spelled⟩
  · rintro ⟨digits, nonempty, decimal, shape, spelled⟩
    have same : unsigned key.toList = digits := by
      rcases shape with shape | shape
      · rw [shape, unsigned_digits digits decimal]
      · rw [shape, unsigned]
    rw [same]
    exact ⟨⟨nonempty, decimal⟩, spelled⟩

end Path

namespace Value

inductive Steps : Value → String → Value → Prop
  | entry (front back : Entries) (key : String) (v : Value) (fresh : key ∉ front.keys) :
    Steps (.object (front ++ (key, v) :: back)) key v
  | item (items : List Value) (key : String) (i : Nat) (v : Value)
    (spelled : Path.SpellsPosition key i) (present : items[i]? = some v) :
    Steps (.array items) key v

/-- The keys lead from one value to another. -/
inductive Reaches : Value → List String → Value → Prop
  | here (v : Value) : Reaches v [] v
  | step (v u w : Value) (key : String) (keys : List String) (first : Steps v key u)
    (rest : Reaches u keys w) : Reaches v (key :: keys) w

theorem child?_eq_some_iff (v u : Value) (key : String) :
    v.child? key = some u ↔ Steps v key u := by
  constructor
  · intro found
    cases v with
    | object entries =>
      obtain ⟨front, back, rfl, earlier⟩ := List.lookup_eq_some_iff.mp found
      refine .entry front back key u fun member => ?_
      obtain ⟨entry, inside, rfl⟩ := List.mem_map.mp member
      exact bne_iff_ne.mp (earlier entry inside) rfl
    | array items =>
      obtain ⟨i, spelled, present⟩ := Option.bind_eq_some_iff.mp found
      exact .item items key i u ((Path.position?_eq_some_iff key i).mp spelled) present
    | _ => cases found
  · rintro (⟨front, back, _, _, fresh⟩ | ⟨items, _, i, _, spelled, present⟩)
    · apply List.lookup_eq_some_iff.mpr
      refine ⟨front, back, rfl, fun entry inside => bne_iff_ne.mpr ?_⟩
      rintro rfl
      exact fresh (List.mem_map_of_mem inside)
    · have index := (Path.position?_eq_some_iff key i).mpr spelled
      exact Option.bind_eq_some_iff.mpr ⟨i, index, present⟩

theorem descend?_eq_some_iff (v w : Value) (keys : List String) :
    v.descend? keys = some w ↔ Reaches v keys w := by
  induction keys generalizing v with
  | nil =>
    constructor
    · intro same
      cases same
      exact .here _
    · rintro ⟨⟩
      rfl
  | cons key keys ih =>
    rw [descend?, Option.bind_eq_some_iff]
    constructor
    · rintro ⟨u, found, rest⟩
      exact .step v u w key keys ((child?_eq_some_iff v u key).mp found) ((ih u).mp rest)
    · rintro (_ | ⟨_, u, _, _, _, first, rest⟩)
      exact ⟨u, (child?_eq_some_iff v u key).mpr first, (ih u).mpr rest⟩

theorem descend?_append (v : Value) (first second : List String) :
    v.descend? (first ++ second) = (v.descend? first).bind (descend? · second) := by
  induction first generalizing v with
  | nil => rfl
  | cons key first ih =>
    rw [List.cons_append, descend?, descend?, Option.bind_assoc]
    exact congrArg (v.child? key).bind (funext ih)

end Value

end StyleLayers
