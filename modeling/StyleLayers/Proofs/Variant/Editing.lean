import StyleLayers.Variant.Edit

/-!
The names a variant list holds after an edit, and edits carried out twice. Names pushed one after
the other are there in their order, each once; once the names of an edit are in the list, a list
takes none of them up again, so the second time an edit has nothing left to do.
-/

namespace StyleLayers

namespace Variants

/-- The list takes up none of the names: each is empty or there already. -/
def Refuses (l : Variants) (names : List String) : Prop := ∀ name ∈ names, ¬l.Accepts name

theorem refuses_cons (l : Variants) (name : String) (rest : List String) :
    l.Refuses (name :: rest) ↔ ¬l.Accepts name ∧ l.Refuses rest := List.forall_mem_cons

theorem mem_insertAt (l : Variants) (i : Nat) (name other : String) (accepted : l.Accepts name) :
    other ∈ l.insertAt i name accepted ↔ other = name ∨ other ∈ l := by
  have split : other ∈ l.names ↔ other ∈ l.names.take i ∨ other ∈ l.names.drop i := by
    rw [← List.mem_append, List.take_append_drop]
  rw [mem_iff, mem_iff, insertAt, List.mem_append, List.mem_cons, split]
  exact or_left_comm

theorem not_accepts_insertAt_self (l : Variants) (i : Nat) (name : String)
    (accepted : l.Accepts name) : ¬(l.insertAt i name accepted).Accepts name := by
  rintro ⟨_, absent⟩
  exact absent ((mem_insertAt l i name name accepted).mpr (Or.inl rfl))

theorem not_accepts_insertAt (l : Variants) (i : Nat) (name other : String)
    (accepted : l.Accepts name) (refused : ¬l.Accepts other) :
    ¬(l.insertAt i name accepted).Accepts other := by
  rintro ⟨nonempty, absent⟩
  apply refused
  refine ⟨nonempty, fun present => absent ?_⟩
  exact (mem_insertAt l i name other accepted).mpr (Or.inr present)

theorem not_accepts_insertAllAt (l : Variants) (i : Nat) (names : List String) (other : String)
    (refused : ¬l.Accepts other) : ¬(l.insertAllAt i names).Accepts other := by
  induction names generalizing l i with
  | nil => exact refused
  | cons name rest ih =>
    rw [insertAllAt]
    by_cases accepted : l.Accepts name
    · rw [dif_pos accepted]
      exact ih _ (i + 1) (not_accepts_insertAt l i name other accepted refused)
    · rw [dif_neg accepted]
      exact ih l i refused

theorem insertAllAt_refuses (l : Variants) (i : Nat) (names : List String) :
    (l.insertAllAt i names).Refuses names := by
  induction names generalizing l i with
  | nil => exact List.forall_mem_nil _
  | cons name rest ih =>
    rw [insertAllAt, refuses_cons]
    by_cases accepted : l.Accepts name
    · rw [dif_pos accepted]
      have refused := not_accepts_insertAt_self l i name accepted
      exact ⟨not_accepts_insertAllAt _ (i + 1) rest name refused, ih _ (i + 1)⟩
    · rw [dif_neg accepted]
      exact ⟨not_accepts_insertAllAt l i rest name accepted, ih l i⟩

theorem insertAllAt_of_refuses (l : Variants) (i : Nat) (names : List String)
    (refuses : l.Refuses names) : l.insertAllAt i names = l := by
  induction names with
  | nil => rfl
  | cons name rest ih =>
    obtain ⟨refused, refusesRest⟩ := (refuses_cons l name rest).mp refuses
    rw [insertAllAt, dif_neg refused, ih refusesRest]

theorem pushAll_eq_insertAllAt (l : Variants) (names : List String) :
    l.pushAll names = l.insertAllAt l.names.length names := by
  induction names generalizing l with
  | nil => rfl
  | cons name rest ih =>
    have pushed : l.pushAll (name :: rest) = (l.push name).pushAll rest := rfl
    rw [pushed, ih, insertAllAt, push]
    by_cases accepted : l.Accepts name
    · have longer : (l.insertAt l.names.length name accepted).names.length =
          l.names.length + 1 := by
        simp [insertAt]
      rw [dif_pos accepted, dif_pos accepted, longer]
    · rw [dif_neg accepted, dif_neg accepted]

theorem names_pushAll (l : Variants) (names : List String) (distinct : (l.names ++ names).Nodup)
    (nonempty : "" ∉ names) : (l.pushAll names).names = l.names ++ names := by
  induction names generalizing l with
  | nil => exact (List.append_nil _).symm
  | cons name rest ih =>
    have accepted : l.Accepts name := by
      constructor
      · intro blank
        exact nonempty (blank ▸ List.mem_cons_self)
      · intro member
        exact (List.nodup_append.mp distinct).2.2 name member name List.mem_cons_self rfl
    have pushed : (l.push name).names = l.names ++ [name] := by
      rw [push, dif_pos accepted]
      simp [insertAt]
    have regroup : l.names ++ name :: rest = (l.push name).names ++ rest := by
      rw [pushed, List.append_assoc, List.singleton_append]
    rw [regroup] at distinct ⊢
    exact ih (l.push name) distinct fun member => nonempty (List.mem_cons_of_mem name member)

theorem ofList_names (l : Variants) : ofList l.names = l :=
  ext (names_pushAll empty l.names l.nodup l.empty_notMem)

theorem mem_push (l : Variants) (name other : String) (member : other ∈ (l.push name).names) :
    other ∈ l.names ∨ other = name := by
  unfold push at member
  split at member
  · simpa [insertAt] using member
  · exact Or.inl member

theorem mem_pushAll (l : Variants) (names : List String) (other : String)
    (member : other ∈ (l.pushAll names).names) : other ∈ l.names ∨ other ∈ names := by
  induction names generalizing l with
  | nil => exact Or.inl member
  | cons name rest ih =>
    rcases ih (l.push name) member with before | behind
    · rw [List.mem_cons, ← or_assoc]
      exact Or.inl (mem_push l name other before)
    · exact Or.inr (List.mem_cons_of_mem name behind)

theorem without_without (l : Variants) (names : List String) :
    (l.without names).without names = l.without names := by
  apply ext
  simp [without, List.filter_filter]

end Variants

namespace VariantEdit

/-- An edit carried out on its own result changes nothing. -/
theorem apply_apply (e : VariantEdit) (l : Variants) : e.apply (e.apply l) = e.apply l := by
  cases e with
  | without names => exact Variants.without_without l names
  | extend names =>
    rw [apply, apply, Variants.pushAll_eq_insertAllAt (l.pushAll names),
      Variants.pushAll_eq_insertAllAt l]
    exact Variants.insertAllAt_of_refuses _ _ names (Variants.insertAllAt_refuses l _ names)
  | before names anchor =>
    exact Variants.insertAllAt_of_refuses _ _ names (Variants.insertAllAt_refuses l _ names)
  | after names anchor =>
    exact Variants.insertAllAt_of_refuses _ _ names (Variants.insertAllAt_refuses l _ names)

end VariantEdit

end StyleLayers
