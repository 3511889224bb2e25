import Mathlib.Data.List.Nodup
import StyleLayers.Proofs.Variant.Editing

/-!
The list that an edit makes, name by name. The names that an insertion adds come between the names
that stood before its place and those that stood behind, whatever they are and however often one of
them is given.
-/

namespace StyleLayers

namespace Variants

/-- The names that an insertion adds: not empty, not in the list yet, in their order and each where
it is given first. -/
def fresh (l : Variants) (names : List String) : List String :=
  (names.filter fun name => name ≠ "" ∧ name ∉ l.names).eraseDups

theorem fresh_cons_refused (l : Variants) (name : String) (rest : List String)
    (refused : ¬l.Accepts name) : l.fresh (name :: rest) = l.fresh rest := by
  rw [fresh, List.filter_cons_of_neg (by simpa [Accepts, mem_iff] using refused), fresh]

theorem fresh_cons_accepted (l : Variants) (i : Nat) (name : String) (rest : List String)
    (accepted : l.Accepts name) :
    l.fresh (name :: rest) = name :: (l.insertAt i name accepted).fresh rest := by
  have others : (rest.filter fun other => other ≠ "" ∧ other ∉ l.names).filter (fun other =>
      !other == name) = rest.filter fun other =>
        other ≠ "" ∧ other ∉ (l.insertAt i name accepted).names := by
    rw [List.filter_filter]
    apply List.filter_congr
    intro other _
    have member := mem_insertAt l i name other accepted
    rw [mem_iff, mem_iff] at member
    simp only [member]
    grind
  rw [fresh, List.filter_cons_of_pos (by simpa [Accepts, mem_iff] using accepted),
    List.eraseDups_cons, others, fresh]

theorem names_insertAllAt (l : Variants) (front back names : List String)
    (split : l.names = front ++ back) :
    (l.insertAllAt front.length names).names = front ++ l.fresh names ++ back := by
  induction names generalizing l front with
  | nil => simpa [insertAllAt, fresh] using split
  | cons name rest ih =>
    rw [insertAllAt]
    by_cases accepted : l.Accepts name
    · have longer : (l.insertAt front.length name accepted).names = front ++ [name] ++ back := by
        simp [insertAt, split]
      have further := ih _ (front ++ [name]) longer
      rw [List.length_append, List.length_singleton] at further
      rw [dif_pos accepted, further, fresh_cons_accepted l front.length name rest accepted,
        List.append_assoc front, List.singleton_append]
    · rw [dif_neg accepted, ih l front split, fresh_cons_refused l name rest accepted]

theorem position?_eq_some_iff (l : Variants) (name : String) (i : Nat) :
    l.position? name = some i ↔ l.names[i]? = some name := by
  rw [position?, List.idxOf?_eq_some_iff, List.getElem?_eq_some_iff]
  constructor
  · rintro ⟨inside, here, _⟩
    exact ⟨inside, here⟩
  · rintro ⟨inside, here⟩
    refine ⟨inside, here, fun j earlier again => ?_⟩
    have same := (l.nodup.getElem_inj_iff).mp (again.trans here.symm)
    exact absurd same (Nat.ne_of_lt earlier)

theorem position?_eq_none_iff (l : Variants) (name : String) :
    l.position? name = none ↔ name ∉ l := List.idxOf?_eq_none_iff

end Variants

namespace VariantEdit

/-- What each edit makes of a list, and that made twice it changes nothing further. -/
theorem names_of_edited (l : Variants) :
    (∀ names, ((without names).apply l).names = l.names.filter (· ∉ names)) ∧
    (∀ names, ((extend names).apply l).names = l.names ++ l.fresh names) ∧
    (∀ names anchor i, l.names[i]? = some anchor →
      ((before names (some anchor)).apply l).names =
          l.names.take i ++ l.fresh names ++ l.names.drop i ∧
        ((after names (some anchor)).apply l).names =
          l.names.take (i + 1) ++ l.fresh names ++ l.names.drop (i + 1)) ∧
    (∀ names anchor, (∀ name ∈ anchor, name ∉ l) →
      ((before names anchor).apply l).names = l.fresh names ++ l.names ∧
        ((after names anchor).apply l).names = l.names ++ l.fresh names) ∧
    ∀ e : VariantEdit, e.apply (e.apply l) = e.apply l := by
  have at_end (names : List String) :
      (l.insertAllAt l.names.length names).names = l.names ++ l.fresh names := by
    simpa using Variants.names_insertAllAt l l.names [] names (by simp)
  have at_place (names : List String) (i : Nat) (inside : i ≤ l.names.length) :
      (l.insertAllAt i names).names = l.names.take i ++ l.fresh names ++ l.names.drop i := by
    have split := Variants.names_insertAllAt l (l.names.take i) (l.names.drop i) names
      (List.take_append_drop i l.names).symm
    rwa [List.length_take_of_le inside] at split
  refine ⟨fun names => rfl, fun names => ?_, fun names anchor i present => ?_,
    fun names anchor absent => ?_, fun e => apply_apply e l⟩
  · rw [apply, Variants.pushAll_eq_insertAllAt, at_end]
  · obtain ⟨inside, _⟩ := List.getElem?_eq_some_iff.mp present
    have position := (l.position?_eq_some_iff anchor i).mpr present
    simp only [apply, Option.bind_some, position, Option.getD_some, Option.map_some]
    exact ⟨at_place names i (Nat.le_of_lt inside), at_place names (i + 1) inside⟩
  · have position : anchor.bind l.position? = none := by
      cases anchor with
      | none => rfl
      | some name => exact (l.position?_eq_none_iff name).mpr (absent name rfl)
    simp only [apply, position, Option.getD_none, Option.map_none]
    exact ⟨by simpa using at_place names 0 (Nat.zero_le _), at_end names⟩

theorem names_of_edited_anchor :
    let l : Variants := ⟨["hover", "focus", "first"], by decide, by decide⟩
    let names := ["active", "", "first", "focus", "active", "last"]
    l.names[1]? = some "focus" ∧
      ((before names (some "focus")).apply l).names =
        ["hover", "active", "last", "focus", "first"] ∧
      ((after names (some "focus")).apply l).names =
        ["hover", "focus", "active", "last", "first"] ∧
      (∀ name ∈ some "active", name ∉ l) ∧
      ((before names (some "active")).apply l).names =
        ["active", "last", "hover", "focus", "first"] ∧
      ((after names (some "active")).apply l).names =
        ["hover", "focus", "first", "active", "last"] := by
  intro l names
  obtain ⟨_, _, anchored, unanchored, _⟩ := names_of_edited l
  have present : l.names[1]? = some "focus" := by decide
  have absent : ∀ name ∈ some "active", name ∉ l := by decide
  obtain ⟨first, second⟩ := anchored names "focus" 1 present
  obtain ⟨atStart, atEnd⟩ := unanchored names (some "active") absent
  exact ⟨present, first, second, absent, atStart, atEnd⟩

end VariantEdit

end StyleLayers
