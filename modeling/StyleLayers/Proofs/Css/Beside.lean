import StyleLayers.Proofs.Css.Boundary

/-!
Two texts side by side that are the same up to a comma: white space just in front of it may be left
out of the second one, and anything may stand behind it. What a reader asks about the text in front
of the comma has the same answer in both.
-/

namespace StyleLayers.Css

def cutChars : List Char := [' ', '\t', '\n', '\r', '\x0c', ',', '\\']

theorem free_of (p : Char → Bool) (outside : ∀ d ∈ cutChars, p d = false) (c : Char)
    (inside : p c = true) : c ∉ cutChars := by
  intro member
  rw [outside c member] at inside
  cases inside

theorem space_cut (c : Char) (space : isSpace c = true) : c ∈ cutChars := by
  simp only [isSpace, isNewline, Bool.or_eq_true, decide_eq_true_eq] at space
  rcases space with (rfl | rfl) | (rfl | rfl) | rfl <;> decide

theorem space_ne {c : Char} (space : isSpace c = true) (d : Char)
    (other : isSpace d = false) : c ≠ d := by
  rintro rfl
  rw [other] at space
  cases space

theorem same_class (p : Char → Bool) (outside : ∀ d ∈ cutChars, p d = false) {c c' : Char}
    (same : c = c' ∨ (isSpace c = true ∧ c' = ',')) : p c = p c' := by
  rcases same with rfl | ⟨space, rfl⟩
  · rfl
  · rw [outside c (space_cut c space), outside ',' (by decide)]

/-- Each backslash takes the character behind it along; one is left over at the end. -/
def dangles : List Char → Bool
  | [] => false
  | ['\\'] => true
  | '\\' :: _ :: rest => dangles rest
  | _ :: rest => dangles rest

/-- White space in front of a comma that is to be left out, what stands behind the comma, and what
is to stand there instead. -/
structure Cut where
  trail : List Char
  behind : List Char
  behind' : List Char
  blank : ∀ c ∈ trail, isSpace c = true

namespace Cut

/-- The same text up to the comma. White space in front of it is in the first text only. -/
inductive Beside (k : Cut) : List Char → List Char → Prop where
  | comma {x : List Char} (left : List Char) (part : left <:+ k.trail)
      (shape : x = left ++ ',' :: k.behind) : Beside k x (',' :: k.behind')
  | other {x x' : List Char} (c : Char) (plain : c ≠ '\\') (after : Beside k x x') :
      Beside k (c :: x) (c :: x')
  | escape {x x' : List Char} (c : Char) (after : Beside k x x') :
      Beside k ('\\' :: c :: x) ('\\' :: c :: x')
  | escapedComma : Beside k ('\\' :: ',' :: k.behind) ('\\' :: ',' :: k.behind')

variable {k : Cut} {x x' : List Char}

theorem beside_append (w : List Char) (whole : k.trail = [] ∨ dangles w = false) :
    k.Beside (w ++ (k.trail ++ ',' :: k.behind)) (w ++ ',' :: k.behind') := by
  fun_induction dangles w with
  | case1 => exact .comma k.trail List.suffix_rfl rfl
  | case2 =>
    have none : k.trail = [] := whole.resolve_right (by simp)
    rw [none]
    exact .escapedComma
  | case3 c rest ih => exact .escape c (ih whole)
  | case4 c rest notLast noEscape ih =>
    refine .other c ?_ (ih whole)
    rintro rfl
    cases rest with
    | nil => exact notLast rfl rfl
    | cons d rest => exact noEscape d rest rfl rfl

end Cut

theorem dropOneSpace_other (c : Char) (cs : List Char) (other : isSpace c = false) :
    dropOneSpace (c :: cs) = c :: cs := by
  unfold dropOneSpace
  split
  · next shape =>
    cases shape
    cases other
  · next shape =>
    cases shape
    simp [other]
  · next shape => cases shape

theorem dropOneSpace_space (c : Char) (cs : List Char) (space : isSpace c = true)
    (single : c = '\r' → cs.head? ≠ some '\n') : dropOneSpace (c :: cs) = cs := by
  unfold dropOneSpace
  split
  · next shape =>
    cases shape
    exact absurd rfl (single rfl)
  · next shape =>
    cases shape
    simp [space]
  · next shape => cases shape

namespace Cut.Beside

variable {k : Cut} {x x' : List Char}

theorem heads (beside : k.Beside x x') :
    ∃ c y c' y', x = c :: y ∧ x' = c' :: y' ∧ (c = c' ∨ (isSpace c = true ∧ c' = ',')) := by
  cases beside with
  | comma left part shape =>
      cases left with
      | nil => exact ⟨',', k.behind, ',', k.behind', shape, rfl, Or.inl rfl⟩
      | cons c left =>
          have space := k.blank c (part.subset List.mem_cons_self)
          exact ⟨c, _, ',', k.behind', shape, rfl, Or.inr ⟨space, rfl⟩⟩
  | other c _ _ => exact ⟨c, _, c, _, rfl, rfl, Or.inl rfl⟩
  | escape c _ => exact ⟨'\\', _, '\\', _, rfl, rfl, Or.inl rfl⟩
  | escapedComma => exact ⟨'\\', _, '\\', _, rfl, rfl, Or.inl rfl⟩

theorem longer (beside : k.Beside x x') : k.behind.length < x.length := by
  induction beside with
  | comma left part shape =>
      rw [shape]
      simp only [List.length_append, List.length_cons]
      omega
  | other c plain after ih => exact ih.trans (Nat.lt_succ_self _)
  | escape c after ih => exact ih.trans (by simp)
  | escapedComma => simp

theorem tail {c : Char} {y : List Char} (free : c ∉ cutChars) (beside : k.Beside (c :: y) x') :
    ∃ y', x' = c :: y' ∧ k.Beside y y' := by
  cases beside with
  | comma left part shape =>
      cases left with
      | nil =>
          cases shape
          exact absurd (by decide) free
      | cons d left =>
          cases shape
          exact absurd (space_cut c (k.blank c (part.subset List.mem_cons_self))) free
  | other _ _ after => exact ⟨_, rfl, after⟩
  | escape _ _ => exact absurd (by decide) free
  | escapedComma => exact absurd (by decide) free

theorem backslash {y : List Char} (beside : k.Beside ('\\' :: y) x') :
    (∃ c z z', y = c :: z ∧ x' = '\\' :: c :: z' ∧ k.Beside z z') ∨
      (y = ',' :: k.behind ∧ x' = '\\' :: ',' :: k.behind') := by
  cases beside with
  | comma left part shape =>
      cases left with
      | nil => cases shape
      | cons d left =>
          cases shape
          have space := k.blank '\\' (part.subset List.mem_cons_self)
          cases space
  | other _ plain _ => exact absurd rfl plain
  | escape c after => exact Or.inl ⟨c, _, _, rfl, rfl, after⟩
  | escapedComma => exact Or.inr ⟨rfl, rfl⟩

theorem dropWhile (p : Char → Bool) (noComma : p ',' = false) (noEscape : p '\\' = false)
    (beside : k.Beside x x') : k.Beside (x.dropWhile p) (x'.dropWhile p) := by
  induction beside with
  | comma left part shape =>
      rw [shape, List.dropWhile_cons_of_neg (by simp [noComma])]
      clear shape
      induction left with
      | nil =>
          rw [List.nil_append, List.dropWhile_cons_of_neg (by simp [noComma])]
          exact .comma [] part rfl
      | cons c left ih =>
          by_cases inside : p c = true
          · rw [List.cons_append, List.dropWhile_cons_of_pos inside]
            exact ih ((List.suffix_cons c left).trans part)
          · rw [List.cons_append, List.dropWhile_cons_of_neg inside]
            exact .comma (c :: left) part rfl
  | other c plain after ih =>
      by_cases inside : p c = true
      · rwa [List.dropWhile_cons_of_pos inside, List.dropWhile_cons_of_pos inside]
      · rw [List.dropWhile_cons_of_neg inside, List.dropWhile_cons_of_neg inside]
        exact .other c plain after
  | escape c after ih =>
      rw [List.dropWhile_cons_of_neg (by simp [noEscape]),
        List.dropWhile_cons_of_neg (by simp [noEscape])]
      exact .escape c after
  | escapedComma =>
      rw [List.dropWhile_cons_of_neg (by simp [noEscape]),
        List.dropWhile_cons_of_neg (by simp [noEscape])]
      exact .escapedComma

theorem head_same {d : Char} (beside : k.Beside x x') (first : x'.head? = some d)
    (noComma : d ≠ ',') : x.head? = some d := by
  obtain ⟨c, y, c', y', rfl, rfl, same | ⟨_, rfl⟩⟩ := beside.heads
  · rwa [same]
  · cases first
    exact absurd rfl noComma

theorem literal (word : List Char) (free : ∀ c ∈ word, c ∉ cutChars) (beside : k.Beside x x') :
    (∃ y y', x = word ++ y ∧ x' = word ++ y' ∧ k.Beside y y') ∨
      (∀ y, x ≠ word ++ y) ∧ ∀ y', x' ≠ word ++ y' := by
  induction word generalizing x x' with
  | nil => exact Or.inl ⟨x, x', rfl, rfl, beside⟩
  | cons c word ih =>
      obtain ⟨freeHere, freeBehind⟩ := List.forall_mem_cons.mp free
      by_cases first : x.head? = some c
      · obtain ⟨y, rfl⟩ := List.head?_eq_some_iff.mp first
        obtain ⟨y', rfl, after⟩ := beside.tail freeHere
        rcases ih freeBehind after with ⟨z, z', rfl, rfl, behind⟩ | ⟨absent, absent'⟩
        · exact Or.inl ⟨z, z', rfl, rfl, behind⟩
        · exact Or.inr ⟨fun z shape => absent z (List.cons.inj shape).2,
            fun z' shape => absent' z' (List.cons.inj shape).2⟩
      · have noComma : c ≠ ',' := by
          rintro rfl
          exact freeHere (by decide)
        refine Or.inr ⟨?_, ?_⟩
        · rintro y rfl
          exact first rfl
        · rintro y' rfl
          exact first (beside.head_same rfl noComma)

theorem dropOneSpace (beside : k.Beside x x') :
    k.Beside (Css.dropOneSpace x) (Css.dropOneSpace x') := by
  cases beside with
  | comma left part shape =>
      rw [shape, dropOneSpace_other ',' _ rfl]
      cases left with
      | nil =>
          rw [List.nil_append, dropOneSpace_other ',' _ rfl]
          exact .comma [] part rfl
      | cons c left =>
          have shorter := (List.suffix_cons c left).trans part
          by_cases pair : c = '\r' ∧ left.head? = some '\n'
          · obtain ⟨rfl, first⟩ := pair
            obtain ⟨left, rfl⟩ := List.head?_eq_some_iff.mp first
            exact .comma left ((List.suffix_cons '\n' left).trans shorter) rfl
          · rw [not_and] at pair
            have space := k.blank c (part.subset List.mem_cons_self)
            rw [List.cons_append, dropOneSpace_space c _ space]
            · exact .comma left shorter rfl
            · intro return' first
              cases left with
              | nil => cases first
              | cons d left => exact pair return' first
  | @other y y' c plain after =>
      cases space : isSpace c with
      | false =>
          rw [dropOneSpace_other c y space, dropOneSpace_other c y' space]
          exact .other c plain after
      | true =>
          by_cases pair : c = '\r' ∧ y.head? = some '\n'
          · obtain ⟨rfl, first⟩ := pair
            obtain ⟨z, rfl⟩ := List.head?_eq_some_iff.mp first
            cases after with
            | comma left part shape =>
                cases left with
                | nil => cases shape
                | cons d left =>
                    cases shape
                    exact .comma left ((List.suffix_cons '\n' left).trans part) rfl
            | other _ _ after => exact after
          · rw [not_and] at pair
            rw [dropOneSpace_space c y space pair, dropOneSpace_space c y' space]
            · exact after
            · intro return' first
              exact pair return' (after.head_same first (by decide))
  | escape c after => exact .escape c after
  | escapedComma => exact .escapedComma

theorem hexDigits (n : Nat) (beside : k.Beside x x') :
    (x.take n).takeWhile isHexDigit = (x'.take n).takeWhile isHexDigit ∧
      k.Beside (x.drop ((x.take n).takeWhile isHexDigit).length)
        (x'.drop ((x'.take n).takeWhile isHexDigit).length) := by
  induction n generalizing x x' with
  | zero => exact ⟨rfl, beside⟩
  | succ n ih =>
      obtain ⟨c, y, c', y', rfl, rfl, same⟩ := beside.heads
      cases hex : isHexDigit c with
      | true =>
          obtain ⟨z, shape, after⟩ := beside.tail (free_of isHexDigit (by decide) c hex)
          cases shape
          obtain ⟨digits, behind⟩ := ih after
          simp only [List.take_succ_cons, List.takeWhile_cons, hex, if_true, digits]
          rw [digits] at behind
          exact ⟨trivial, behind⟩
      | false =>
          have hex' : isHexDigit c' = false := by
            rcases same with rfl | ⟨_, rfl⟩
            · exact hex
            · rfl
          simp [hex, hex', beside]

theorem readEscape (c : Char) (after : k.Beside x x') :
    (Css.readEscape (c :: x)).1 = (Css.readEscape (c :: x')).1 ∧
      k.Beside (Css.readEscape (c :: x)).2 (Css.readEscape (c :: x')).2 := by
  obtain ⟨same, behind⟩ := after.hexDigits 5
  cases hex : isHexDigit c with
  | true =>
      simp only [Css.readEscape, hex, if_true]
      exact ⟨by rw [same], behind.dropOneSpace⟩
  | false =>
      simp only [Css.readEscape, hex, Bool.false_eq_true, if_false]
      exact ⟨trivial, after⟩

end Cut.Beside

end StyleLayers.Css
