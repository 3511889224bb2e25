import Mathlib.Data.List.TakeWhile
import StyleLayers.Text.Blank

/-!
Trimming: what is cut off is blank, and what is left neither starts nor ends blank. White space
behind a text changes neither its first word nor the trimmed text.
-/

namespace StyleLayers.Text

theorem dropWhile_head? (cs : List Char) :
    ∀ c ∈ (cs.dropWhile isBlank).head?, isBlank c = false := by
  intro c first
  have shown := List.head?_dropWhile_not isBlank cs
  rwa [first] at shown

theorem dropWhile_of_head? (cs : List Char) (shown : ∀ c ∈ cs.head?, isBlank c = false) :
    cs.dropWhile isBlank = cs := by
  cases cs with
  | nil => rfl
  | cons c cs => exact List.dropWhile_cons_of_neg (by simp [shown c rfl])

def lead (cs : List Char) : List Char := cs.takeWhile isBlank

def trail (cs : List Char) : List Char := ((trimStart cs).reverse.takeWhile isBlank).reverse

theorem trail_blank (cs : List Char) : ∀ c ∈ trail cs, isBlank c = true :=
  fun _ member => List.mem_takeWhile_imp (List.mem_reverse.mp member)

theorem trimStart_split (cs : List Char) : cs = lead cs ++ trimStart cs :=
  List.takeWhile_append_dropWhile.symm

theorem trimEnd_split (cs : List Char) : trimStart cs = trim cs ++ trail cs := by
  rw [trim, trimEnd, trail, ← List.reverse_append, ← List.reverse_eq_iff]
  exact List.takeWhile_append_dropWhile.symm

theorem trim_split (cs : List Char) : cs = lead cs ++ (trim cs ++ trail cs) :=
  (trimStart_split cs).trans (congrArg (lead cs ++ ·) (trimEnd_split cs))

theorem trimEnd_getLast? (cs : List Char) :
    ∀ c ∈ (trimEnd cs).getLast?, isBlank c = false := by
  intro c last
  rw [trimEnd, List.getLast?_reverse] at last
  exact dropWhile_head? _ c last

theorem trim_getLast? (cs : List Char) : ∀ c ∈ (trim cs).getLast?, isBlank c = false :=
  trimEnd_getLast? (trimStart cs)

theorem trim_head? (cs : List Char) : ∀ c ∈ (trim cs).head?, isBlank c = false := by
  intro c first
  obtain ⟨rest, shape⟩ := List.head?_eq_some_iff.mp first
  apply dropWhile_head? cs c
  change (trimStart cs).head? = some c
  rw [trimEnd_split, shape]
  rfl

theorem trim_of_shown (cs : List Char) (first : ∀ c ∈ cs.head?, isBlank c = false)
    (last : ∀ c ∈ cs.getLast?, isBlank c = false) : trim cs = cs := by
  rw [← List.head?_reverse] at last
  rw [trim, trimStart, dropWhile_of_head? cs first, trimEnd, dropWhile_of_head? _ last,
    List.reverse_reverse]

theorem trim_trim (cs : List Char) : trim (trim cs) = trim cs :=
  trim_of_shown (trim cs) (trim_head? cs) (trim_getLast? cs)

variable {spaces : List Char}

theorem trimStart_behind (cs : List Char) (blank : ∀ c ∈ spaces, isBlank c = true) :
    ∃ kept, (∀ c ∈ kept, isBlank c = true) ∧ trimStart (cs ++ spaces) = trimStart cs ++ kept := by
  rw [trimStart, List.dropWhile_append]
  split
  · next none =>
    refine ⟨[], List.forall_mem_nil _, ?_⟩
    rw [trimStart, List.isEmpty_iff.mp none, List.dropWhile_eq_nil_iff.mpr blank]
    rfl
  · exact ⟨spaces, blank, rfl⟩

theorem trimEnd_behind (cs : List Char) (blank : ∀ c ∈ spaces, isBlank c = true) :
    trimEnd (cs ++ spaces) = trimEnd cs := by
  have reversed : ∀ c ∈ spaces.reverse, isBlank c = true := by
    intro c member
    exact blank c (List.mem_reverse.mp member)
  rw [trimEnd, List.reverse_append, List.dropWhile_append_of_pos reversed, trimEnd]

theorem trim_behind (cs : List Char) (blank : ∀ c ∈ spaces, isBlank c = true) :
    trim (cs ++ spaces) = trim cs := by
  obtain ⟨kept, keptBlank, split⟩ := trimStart_behind cs blank
  rw [trim, split, trimEnd_behind _ keptBlank, trim]

theorem firstWord_behind (cs : List Char) (blank : ∀ c ∈ spaces, isBlank c = true) :
    firstWord (cs ++ spaces) = firstWord cs := by
  obtain ⟨kept, keptBlank, split⟩ := trimStart_behind cs blank
  have noWord : kept.takeWhile (fun c => !isBlank c) = [] := by
    cases kept with
    | nil => rfl
    | cons c kept => simp [keptBlank c List.mem_cons_self]
  rw [firstWord, split, List.takeWhile_append, noWord, List.append_nil, firstWord]
  split
  · next whole =>
    exact ((List.takeWhile_prefix _).eq_of_length whole).symm
  · rfl

end StyleLayers.Text
