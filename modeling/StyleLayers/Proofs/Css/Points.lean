import StyleLayers.Proofs.Css.Boundary

/-!
The characters that a selector is cut at: points in front of class names, and commas. No other
character is read as one of them, so text without a point has none.
-/

namespace StyleLayers.Css

/-- The one character that the token is read from, for a point and a comma. -/
def markOf : Token → Option Char
  | .delim c => if c = '.' then some '.' else none
  | .comma => some ','
  | _ => none

def Marks (c : Char) (reading : Reading) : Prop := ∀ d ∈ markOf reading.1, d = c

theorem marks_unmarked {c : Char} {reading : Reading} (unmarked : markOf reading.1 = none) :
    Marks c reading := by
  simp [Marks, unmarked]

theorem delim_marks (c : Char) (cs : List Char) : Marks c (.delim c, cs) := by
  by_cases point : c = '.'
  · subst point
    intro d mark
    cases mark
    rfl
  · exact marks_unmarked (if_neg point)

theorem readString_unmarked (quote : Char) (read cs : List Char) :
    markOf (readString quote read cs).1 = none := by
  fun_induction readString quote read cs with
  | case1 => rfl
  | case2 => rfl
  | case3 => rfl
  | case4 => rfl
  | case5 _ _ _ _ _ _ ih => exact ih
  | case6 _ _ _ _ _ _ ih => exact ih
  | case7 _ _ _ _ _ _ ih => exact ih

theorem readUrlEnd_unmarked (text cs : List Char) : markOf (readUrlEnd text cs).1 = none := by
  unfold readUrlEnd
  split
  · rfl
  · split <;> rfl

theorem readUrlText_unmarked (read cs : List Char) : markOf (readUrlText read cs).1 = none := by
  fun_induction readUrlText read cs with
  | case1 => rfl
  | case2 => rfl
  | case3 => exact readUrlEnd_unmarked _ _
  | case4 => rfl
  | case5 => rfl
  | case6 _ _ _ _ _ _ ih => exact ih
  | case7 _ _ _ _ _ _ _ ih => exact ih

theorem readUrl_unmarked (name : String) (cs : List Char) :
    markOf (readUrl name cs).1 = none := by
  unfold readUrl
  split
  · rfl
  · split
    · rfl
    · split
      · rfl
      · exact readUrlText_unmarked _ _

theorem readIdentLike_unmarked (first : Char) (cs : List Char) :
    markOf (readIdentLike first cs).1 = none := by
  rw [readIdentLike_eq]
  unfold nameReading
  split
  · split
    · exact readUrl_unmarked _ _
    · rfl
  · rfl

theorem readNumber_unmarked (cs : List Char) : markOf (readNumber cs).1 = none := by
  unfold readNumber
  split
  · rfl
  · split <;> rfl

theorem readHash_unmarked (cs : List Char) : markOf (readHash cs).1 = none := by
  unfold readHash
  split
  · rfl
  · split
    · split <;> rfl
    · rfl

theorem readMatch_marks (operator : Char) (cs : List Char) :
    Marks operator (readMatch operator cs) := by
  unfold readMatch
  split
  · exact marks_unmarked rfl
  · exact delim_marks operator cs

theorem readPlus_unmarked (cs : List Char) : markOf (readPlus cs).1 = none := by
  unfold readPlus
  split
  · exact readNumber_unmarked cs
  · rfl

theorem readMinus_unmarked (cs : List Char) : markOf (readMinus cs).1 = none := by
  unfold readMinus
  split
  · exact readNumber_unmarked cs
  · split
    · rfl
    · split
      · exact readIdentLike_unmarked _ _
      · rfl

theorem readPoint_marks (cs : List Char) : Marks '.' (readPoint cs) := by
  unfold readPoint
  split
  · split
    · exact marks_unmarked (readNumber_unmarked _)
    · exact delim_marks '.' _
  · exact delim_marks '.' _

theorem readSlash_unmarked (cs : List Char) : markOf (readSlash cs).1 = none := by
  unfold readSlash
  split <;> rfl

theorem readLess_unmarked (cs : List Char) : markOf (readLess cs).1 = none := by
  unfold readLess
  split <;> rfl

theorem readAt_unmarked (cs : List Char) : markOf (readAt cs).1 = none := by
  unfold readAt
  split <;> rfl

theorem readBackslash_unmarked (cs : List Char) : markOf (readBackslash cs).1 = none := by
  unfold readBackslash
  split
  · rfl
  · exact readIdentLike_unmarked _ _

theorem bracketToken_mark (c : Char) (t : Token) (bracket : bracketToken c = some t) :
    ∀ d ∈ markOf t, d = c := by
  unfold bracketToken at bracket
  split at bracket <;> cases bracket <;> intro d mark <;> cases mark
  rfl

theorem ite_marks {p : Prop} [Decidable p] {c : Char} {x y : Reading} (left : p → Marks c x)
    (right : Marks c y) : Marks c (if p then x else y) := by
  split
  · next holds => exact left holds
  · exact right

theorem readToken_marks (c : Char) (cs : List Char) : Marks c (readToken c cs) := by
  unfold readToken
  refine ite_marks (fun _ => marks_unmarked rfl) ?_
  refine ite_marks (fun _ => marks_unmarked (readString_unmarked _ _ _)) ?_
  refine ite_marks (fun _ => marks_unmarked (readHash_unmarked _)) ?_
  refine ite_marks (fun _ => readMatch_marks _ _) ?_
  refine ite_marks (fun _ => marks_unmarked (readPlus_unmarked _)) ?_
  refine ite_marks (fun _ => marks_unmarked (readMinus_unmarked _)) ?_
  refine ite_marks (fun point => point ▸ readPoint_marks _) ?_
  refine ite_marks (fun _ => marks_unmarked (readSlash_unmarked _)) ?_
  refine ite_marks (fun _ => marks_unmarked (readLess_unmarked _)) ?_
  refine ite_marks (fun _ => marks_unmarked (readAt_unmarked _)) ?_
  refine ite_marks (fun _ => marks_unmarked (readBackslash_unmarked _)) ?_
  refine ite_marks (fun _ => marks_unmarked (readNumber_unmarked _)) ?_
  refine ite_marks (fun _ => marks_unmarked (readIdentLike_unmarked _ _)) ?_
  cases bracket : bracketToken c with
  | none => exact delim_marks c cs
  | some t => exact bracketToken_mark c t bracket

theorem readToken_noPoint (c : Char) (cs : List Char) (other : c ≠ '.') :
    (readToken c cs).1 ≠ .delim '.' := by
  intro point
  exact other (readToken_marks c cs '.' (by rw [point]; rfl)).symm

theorem readToken_comma (c : Char) (cs : List Char) (comma : (readToken c cs).1 = .comma) :
    c = ',' :=
  (readToken_marks c cs ',' (by rw [comma]; rfl)).symm

theorem lexemes_noPoint (cs : List Char) (noPoint : '.' ∉ cs) :
    ∀ l ∈ lexemes cs, l.token ≠ .delim '.' := by
  fun_induction lexemes cs with
  | case1 => simp
  | case2 c cs reading ih =>
    rw [List.mem_cons, not_or] at noPoint
    intro l member
    rcases List.mem_cons.mp member with rfl | later
    · exact readToken_noPoint c cs (Ne.symm noPoint.1)
    · refine ih ?_ l later
      intro inside
      exact noPoint.2 ((readToken_suffix c cs).subset inside)

end StyleLayers.Css
