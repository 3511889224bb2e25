import StyleLayers.Proofs.Selector.Balance
import StyleLayers.Proofs.Variant.Editing
import StyleLayers.Variant.Group

/-!
Variant lists in the prelude of a block that declares them. What is read from such a prelude is
written back in one normal form, and is read from that as it was.
-/

namespace StyleLayers

namespace Selector

theorem trimmed_visible (w : List Char) (nonempty : w ≠ []) (trimmed : Text.trim w = w) :
    Visible w ∧ EndsVisibly w := by
  rw [← trimmed] at nonempty ⊢
  exact ⟨visible_trim w nonempty, Text.trim_getLast? w⟩

theorem listText_endsVisibly (w : List Char) (ws : List (List Char))
    (ends : ∀ v ∈ w :: ws, Visible v ∧ EndsVisibly v) : EndsVisibly (listText (w :: ws)) := by
  induction ws generalizing w with
  | nil =>
    rw [listText_one]
    exact (ends w List.mem_cons_self).2
  | cons v vs ih =>
    obtain ⟨_, endsOthers⟩ := List.forall_mem_cons.mp ends
    have visible := listText_visible v vs (endsOthers v List.mem_cons_self).1
    have joined : listText (w :: v :: vs) = w ++ [',', ' '] ++ listText (v :: vs) := by
      simp [listText_cons]
    rw [joined]
    exact endsVisibly_append _ _ (visible_ne_nil visible) (ih v endsOthers)

end Selector

namespace Variants

/-- Every name can be read back from between commas. -/
def Readable (l : Variants) : Prop :=
  ∀ name ∈ l.names, ',' ∉ name.toList ∧ Text.trim name.toList = name.toList

theorem splitOn_noComma (cs : List Char) : ∀ w ∈ cs.splitOn ',', ',' ∉ w := by
  induction cs with
  | nil => simp
  | cons c cs ih =>
    by_cases comma : c = ','
    · subst comma
      rw [Selector.splitOn_comma]
      exact List.forall_mem_cons.mpr ⟨List.not_mem_nil, ih⟩
    · obtain ⟨first, others, shape⟩ := List.exists_cons_of_ne_nil (List.splitOn_ne_nil ',' cs)
      rw [shape] at ih
      obtain ⟨freeFirst, freeOthers⟩ := List.forall_mem_cons.mp ih
      rw [Selector.splitOn_other c cs first others comma shape]
      refine List.forall_mem_cons.mpr ⟨?_, freeOthers⟩
      rw [List.mem_cons, not_or]
      exact ⟨Ne.symm comma, freeFirst⟩

theorem mem_trim {c : Char} {cs : List Char} (member : c ∈ Text.trim cs) : c ∈ cs := by
  rw [Text.trim_split cs]
  exact List.mem_append_right _ (List.mem_append_left _ member)

theorem parse_readable (text : String) : (parse text).Readable := by
  intro name member
  rcases mem_pushAll empty _ name member with none | read
  · cases none
  · obtain ⟨piece, between, rfl⟩ := List.mem_map.mp read
    rw [String.toList_ofList]
    exact ⟨fun comma => splitOn_noComma text.toList piece between (mem_trim comma),
      Text.trim_trim piece⟩

theorem splitOn_listText (w : List Char) (ws : List (List Char)) (free : ∀ v ∈ w :: ws, ',' ∉ v) :
    (Selector.listText (w :: ws)).splitOn ',' = w :: ws.map (List.cons ' ') := by
  induction ws generalizing w with
  | nil =>
    have whole := Selector.splitOn_append w [] [] [] (free w List.mem_cons_self) (by simp)
    rw [List.append_nil] at whole
    rw [Selector.listText_one]
    exact whole
  | cons v vs ih =>
    obtain ⟨freeFirst, freeOthers⟩ := List.forall_mem_cons.mp free
    have spaced := Selector.splitOn_other ' ' _ _ _ (by decide) (ih v freeOthers)
    have rest := (Selector.splitOn_comma _).trans (congrArg (List.cons []) spaced)
    rw [Selector.listText_cons, Selector.splitOn_append w _ _ _ freeFirst rest, List.append_nil]
    rfl

theorem toList_params (l : Variants) :
    l.params.toList = Selector.listText (l.names.map String.toList) :=
  (Selector.listText_toList l.names).symm

theorem parse_params (l : Variants) (readable : l.Readable) : parse l.params = l := by
  have texts : (l.params.toList.splitOn ',').map (fun w => String.ofList (Text.trim w)) =
      if l.names = [] then [""] else l.names := by
    rw [toList_params]
    cases shape : l.names with
    | nil => rfl
    | cons name names =>
      rw [Readable, shape] at readable
      have free : ∀ w ∈ name.toList :: names.map String.toList, ',' ∉ w := by
        rw [← List.map_cons, List.forall_mem_map]
        exact fun other member => (readable other member).1
      rw [List.map_cons, splitOn_listText _ _ free, if_neg (List.cons_ne_nil name names),
        List.map_cons, List.map_map, List.map_map]
      refine congrArg₂ List.cons ?_ ((List.map_congr_left ?_).trans (List.map_id names))
      · rw [(readable name List.mem_cons_self).2, String.ofList_toList]
      · intro other member
        simp only [Function.comp_apply, Selector.trim_space,
          (readable other (List.mem_cons_of_mem name member)).2, String.ofList_toList, id]
  rw [parse, texts]
  split
  · next none => exact ext none.symm
  · exact ofList_names l

theorem params_trim (l : Variants) (readable : l.Readable) :
    Text.trim l.params.toList = l.params.toList := by
  rw [toList_params]
  cases shape : l.names with
  | nil => rfl
  | cons name names =>
    have ends : ∀ w ∈ (name :: names).map String.toList,
        Selector.Visible w ∧ Selector.EndsVisibly w := by
      rw [← shape, List.forall_mem_map]
      intro other member
      refine Selector.trimmed_visible _ ?_ (readable other member).2
      intro none
      exact l.empty_notMem (String.toList_eq_nil_iff.mp none ▸ member)
    rw [List.map_cons] at ends ⊢
    exact Selector.trim_visible _
      (Selector.listText_visible _ _ (ends _ List.mem_cons_self).1)
      (Selector.listText_endsVisibly _ _ ends)

end Variants

namespace AtRule

theorem declared?_marker (l : Variants) (readable : l.Readable) :
    declared? l.marker = some l := by
  unfold Variants.marker
  split
  · next none =>
    have empty : declared? "@variants" = some (Variants.parse "") := by decide +kernel
    rw [empty]
    exact congrArg some (Variants.ext none.symm)
  · have body : body? ("@variants " ++ l.params) =
        some ("variants ".toList ++ l.params.toList) := by
      simp [body?]
    have word : Text.firstWord ("variants ".toList ++ l.params.toList) = "variants".toList := by
      simp [Text.firstWord, Text.trimStart, List.takeWhile, Text.isBlank]
    have behind : (Text.trimStart ("variants ".toList ++ l.params.toList)).drop
        (Text.firstWord ("variants ".toList ++ l.params.toList)).length =
          ' ' :: l.params.toList := by
      rw [word]
      simp [Text.trimStart, Text.isBlank]
    rw [declared?, body, Option.bind_some, nameOf, word, String.ofList_toList,
      if_pos (by rfl), paramsOf, behind, Selector.trim_space, Variants.params_trim l readable,
      String.ofList_toList, Variants.parse_params l readable]

theorem declared?_readable (prelude : String) (l : Variants)
    (declares : declared? prelude = some l) : l.Readable := by
  unfold declared? at declares
  obtain ⟨body, _, read⟩ := Option.bind_eq_some_iff.mp declares
  split at read
  · rw [← Option.some.inj read]
    exact Variants.parse_readable _
  · cases read

/-- A prelude in its normal form that declares a list is the one written for the list. -/
theorem canonical_of_declared? (prelude : String) (l : Variants)
    (declares : declared? (canonical prelude) = some l) : canonical prelude = l.marker := by
  unfold canonical at declares ⊢
  split at declares
  · next read before =>
    rw [declared?_marker read (declared?_readable prelude read before)] at declares
    exact congrArg Variants.marker (Option.some.inj declares)
  · next none =>
    rw [none] at declares
    cases declares

end AtRule

end StyleLayers
