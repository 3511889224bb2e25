import Mathlib.Data.List.TakeWhile
import StyleLayers.Proofs.Css.Boundary

/-!
Where tokens stop. Outside of strings, comments and escapes no token goes on over a colon, a comma
or a parenthesis, except that a name takes in the parenthesis that opens its arguments.
-/

namespace StyleLayers.Css

def stops : List Char := [':', ',', '(', ')']

/-- Between `cs` and what is left of it, `rest`, there is no stop. -/
def Reaches (cs rest : List Char) : Prop := ∃ w, cs = w ++ rest ∧ ∀ c ∈ w, c ∉ stops

namespace Reaches

theorem refl (cs : List Char) : Reaches cs cs := ⟨[], rfl, List.forall_mem_nil _⟩

theorem step {cs rest : List Char} (c : Char) (free : c ∉ stops) (on : Reaches cs rest) :
    Reaches (c :: cs) rest := by
  obtain ⟨w, rfl, frees⟩ := on
  exact ⟨c :: w, rfl, List.forall_mem_cons.mpr ⟨free, frees⟩⟩

theorem trans {cs ds rest : List Char} (first : Reaches cs ds) (second : Reaches ds rest) :
    Reaches cs rest := by
  obtain ⟨v, rfl, freeFirst⟩ := first
  obtain ⟨w, rfl, freeSecond⟩ := second
  exact ⟨v ++ w, (List.append_assoc v w rest).symm,
    List.forall_mem_append.mpr ⟨freeFirst, freeSecond⟩⟩

theorem dropWhile (p : Char → Bool) (free : ∀ c, p c = true → c ∉ stops) (cs : List Char) :
    Reaches cs (cs.dropWhile p) :=
  ⟨cs.takeWhile p, List.takeWhile_append_dropWhile.symm,
    fun c member => free c (List.mem_takeWhile_imp member)⟩

theorem noEscape {cs rest : List Char} (on : Reaches cs rest) (none : '\\' ∉ cs) :
    '\\' ∉ rest := by
  obtain ⟨w, rfl, _⟩ := on
  exact fun member => none (List.mem_append_right w member)

end Reaches

theorem nameChar_free (c : Char) (inside : isNameChar c = true) : c ∉ stops := by
  have outside : ∀ d ∈ stops, isNameChar d = false := by decide
  intro member
  rw [outside c member] at inside
  cases inside

theorem digit_free (c : Char) (digit : isAsciiDigit c = true) : c ∉ stops :=
  nameChar_free c (by simp [isNameChar, digit])

theorem space_free (c : Char) (space : isSpace c = true) : c ∉ stops := by
  have outside : ∀ d ∈ stops, isSpace d = false := by decide
  intro member
  rw [outside c member] at space
  cases space

def isInert : Token → Bool
  | .function _ => false
  | .opening _ => false
  | .closing _ => false
  | .comma => false
  | _ => true

/-- The token is inert and ends before the next stop, or there is a parenthesis before any other. -/
def Tame (cs : List Char) (reading : Reading) : Prop :=
  (isInert reading.1 = true ∧ Reaches cs reading.2) ∨ ∃ rest, Reaches cs ('(' :: rest)

theorem ite_tame {p : Prop} [Decidable p] {x y : Reading} {cs : List Char} (left : Tame cs x)
    (right : Tame cs y) : Tame cs (if p then x else y) := by
  split
  · exact left
  · exact right

theorem tame_here (t : Token) (cs : List Char) (inert : isInert t = true) : Tame cs (t, cs) :=
  Or.inl ⟨inert, .refl cs⟩

theorem readName_reaches (cs : List Char) (noEscape : '\\' ∉ cs) :
    Reaches cs (readName cs).2 := by
  fun_induction readName cs with
  | case1 => exact .refl []
  | case2 => exact .refl _
  | case3 => exact absurd List.mem_cons_self noEscape
  | case4 c rest _ inside name ih =>
    exact .step c (nameChar_free c inside)
      (ih fun member => noEscape (List.mem_cons_of_mem c member))
  | case5 => exact .refl _

theorem readIdentLike_tame (first : Char) (cs : List Char) (noEscape : '\\' ∉ cs) :
    Tame cs (readIdentLike first cs) := by
  have on := readName_reaches cs noEscape
  rw [readIdentLike_eq]
  by_cases arguments : (readName cs).2.head? = some '('
  · obtain ⟨after, shape⟩ := List.head?_eq_some_iff.mp arguments
    rw [shape] at on
    exact Or.inr ⟨after, on⟩
  · rw [nameReading_ident _ _ arguments]
    exact Or.inl ⟨rfl, on⟩

theorem readHash_tame (cs : List Char) (noEscape : '\\' ∉ cs) : Tame cs (readHash cs) := by
  have on := readName_reaches cs noEscape
  unfold readHash
  refine ite_tame (Or.inl ⟨rfl, on⟩) ?_
  split
  · exact ite_tame (Or.inl ⟨rfl, on⟩) (tame_here _ _ rfl)
  · exact tame_here _ _ rfl

theorem readAt_tame (cs : List Char) (noEscape : '\\' ∉ cs) : Tame cs (readAt cs) :=
  ite_tame (Or.inl ⟨rfl, readName_reaches cs noEscape⟩) (tame_here _ _ rfl)

theorem dropFraction_reaches (cs : List Char) : Reaches cs (dropFraction cs) := by
  unfold dropFraction
  split
  · next c rest =>
    split
    · next digit =>
      exact .step '.' (by decide) (.step c (digit_free c digit) (.dropWhile _ digit_free rest))
    · exact .refl _
  · exact .refl _

theorem exponentMark_free (c : Char) (mark : isExponentMark c = true) : c ∉ stops := by
  simp only [isExponentMark, Bool.or_eq_true, decide_eq_true_eq] at mark
  rcases mark with rfl | rfl <;> decide

theorem dropExponent_reaches (cs : List Char) : Reaches cs (dropExponent cs) := by
  unfold dropExponent
  split
  · next e sign c rest =>
    split
    · next unsigned =>
      rw [Bool.and_eq_true] at unsigned
      exact .step e (exponentMark_free e unsigned.1) (.step sign (digit_free sign unsigned.2)
        (.dropWhile _ digit_free _))
    · split
      · next signed =>
        simp only [Bool.and_eq_true, Bool.or_eq_true, decide_eq_true_eq] at signed
        obtain ⟨⟨mark, isSign⟩, digit⟩ := signed
        have free : sign ∉ stops := by
          rcases isSign with rfl | rfl <;> decide
        exact .step e (exponentMark_free e mark) (.step sign free
          (.step c (digit_free c digit) (.dropWhile _ digit_free rest)))
      · exact .refl _
  · next e c =>
    split
    · next unsigned =>
      rw [Bool.and_eq_true] at unsigned
      exact .step e (exponentMark_free e unsigned.1) (.step c (digit_free c unsigned.2) (.refl []))
    · exact .refl _
  · exact .refl _

theorem readNumber_tame_of (cs : List Char) {from' : List Char} (noEscape : '\\' ∉ from')
    (on : Reaches from' (dropExponent (dropFraction (cs.dropWhile isAsciiDigit)))) :
    Tame from' (readNumber cs) := by
  unfold readNumber
  split
  · next rest shape =>
    rw [shape] at on
    exact Or.inl ⟨rfl, on.trans (.step '%' (by decide) (.refl rest))⟩
  · exact ite_tame (Or.inl ⟨rfl, on.trans (readName_reaches _ (on.noEscape noEscape))⟩)
      (Or.inl ⟨rfl, on⟩)

theorem readNumber_tame (cs : List Char) (noEscape : '\\' ∉ cs) : Tame cs (readNumber cs) :=
  readNumber_tame_of cs noEscape
    (((Reaches.dropWhile _ digit_free cs).trans (dropFraction_reaches _)).trans
      (dropExponent_reaches _))

theorem readPlus_tame (cs : List Char) (noEscape : '\\' ∉ cs) : Tame cs (readPlus cs) :=
  ite_tame (readNumber_tame cs noEscape) (tame_here _ _ rfl)

theorem readMinus_tame (cs : List Char) (noEscape : '\\' ∉ cs) : Tame cs (readMinus cs) := by
  unfold readMinus
  refine ite_tame (readNumber_tame cs noEscape) ?_
  split
  · next rest =>
    exact Or.inl ⟨rfl, .step '-' (by decide) (.step '>' (by decide) (.refl rest))⟩
  · exact ite_tame (readIdentLike_tame '-' cs noEscape) (tame_here _ _ rfl)

theorem readPoint_tame (cs : List Char) (noEscape : '\\' ∉ cs) : Tame cs (readPoint cs) := by
  unfold readPoint
  split
  · next c rest =>
    by_cases digit : isAsciiDigit c = true
    · rw [if_pos digit]
      refine readNumber_tame_of _ noEscape (Reaches.trans ?_ (dropExponent_reaches _))
      have point : isAsciiDigit '.' = false := by decide
      rw [List.dropWhile_cons_of_neg (by simp [point]), dropFraction, if_pos digit]
      exact .step c (digit_free c digit) (.dropWhile _ digit_free rest)
    · rw [if_neg digit]
      exact tame_here _ _ rfl
  · exact tame_here _ _ rfl

theorem readMatch_tame (operator : Char) (cs : List Char) : Tame cs (readMatch operator cs) := by
  unfold readMatch
  split
  · next rest => exact Or.inl ⟨rfl, .step '=' (by decide) (.refl rest)⟩
  · exact tame_here _ _ rfl

theorem readLess_tame (cs : List Char) : Tame cs (readLess cs) := by
  unfold readLess
  split
  · next rest =>
    exact Or.inl ⟨rfl, .step '!' (by decide) (.step '-' (by decide)
      (.step '-' (by decide) (.refl rest)))⟩
  · exact tame_here _ _ rfl

/-- The characters that start a string, a comment or an escape, or are a bracket or a comma. -/
def wildChars : List Char :=
  ['"', '\'', '/', '\\', ',', '(', ')', '[', ']', '\x7b', '\x7d']

theorem bracketToken_inert (c : Char) (t : Token) (tame : c ∉ wildChars)
    (bracket : bracketToken c = some t) : isInert t = true := by
  unfold bracketToken at bracket
  split at bracket <;> first | cases bracket; rfl | exact absurd (by decide) tame | cases bracket

theorem readToken_tame (c : Char) (cs : List Char) (tame : c ∉ wildChars) (noEscape : '\\' ∉ cs) :
    Tame cs (readToken c cs) := by
  have other (d : Char) (wild : d ∈ wildChars) : c ≠ d := by
    rintro rfl
    exact tame wild
  unfold readToken
  refine ite_tame (Or.inl ⟨rfl, .dropWhile _ space_free cs⟩) ?_
  rw [if_neg (by simp [other '"' (by decide), other '\'' (by decide)])]
  refine ite_tame (readHash_tame cs noEscape) ?_
  refine ite_tame (readMatch_tame c cs) ?_
  refine ite_tame (readPlus_tame cs noEscape) ?_
  refine ite_tame (readMinus_tame cs noEscape) ?_
  refine ite_tame (readPoint_tame cs noEscape) ?_
  rw [if_neg (other '/' (by decide))]
  refine ite_tame (readLess_tame cs) ?_
  refine ite_tame (readAt_tame cs noEscape) ?_
  rw [if_neg (other '\\' (by decide))]
  refine ite_tame (readNumber_tame cs noEscape) ?_
  refine ite_tame (readIdentLike_tame _ cs noEscape) ?_
  cases bracket : bracketToken c with
  | none => exact tame_here _ _ rfl
  | some t => exact tame_here t cs (bracketToken_inert c t tame bracket)

end StyleLayers.Css
