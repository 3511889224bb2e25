import StyleLayers.Rule.Css

/-!
The text of rules a level further in. Rules without line breaks of their own are written line by
line, and further in every line has two spaces more in front of it.
-/

namespace StyleLayers

namespace Text

def indentedFrom (fresh : Bool) : List Char → List Char
  | [] => []
  | c :: cs =>
    if fresh then ' ' :: ' ' :: c :: indentedFrom (c == '\n') cs
    else c :: indentedFrom (c == '\n') cs

def indented (text : String) : String := String.ofList (indentedFrom true text.toList)

theorem indentedFrom_inLine (line rest : List Char) (unbroken : '\n' ∉ line) :
    indentedFrom false (line ++ '\n' :: rest) = line ++ '\n' :: indentedFrom true rest := by
  induction line with
  | nil => rfl
  | cons c line ih =>
    rw [List.mem_cons, not_or] at unbroken
    have other : (c == '\n') = false := beq_false_of_ne (Ne.symm unbroken.1)
    rw [List.cons_append, indentedFrom, if_neg Bool.false_ne_true, other, ih unbroken.2]
    rfl

theorem indentedFrom_line (line rest : List Char) (unbroken : '\n' ∉ line) :
    indentedFrom true (line ++ '\n' :: rest) =
      ' ' :: ' ' :: (line ++ '\n' :: indentedFrom true rest) := by
  cases line with
  | nil => rfl
  | cons c line =>
    rw [List.mem_cons, not_or] at unbroken
    have other : (c == '\n') = false := beq_false_of_ne (Ne.symm unbroken.1)
    rw [List.cons_append, indentedFrom, if_pos rfl, other,
      indentedFrom_inLine line rest unbroken.2]
    rfl

/-- `further` is `text` with two spaces in front of every line, and both end with a line. -/
def Indents (text further : String) : Prop :=
  ∀ rest, indentedFrom true (text.toList ++ rest) = further.toList ++ indentedFrom true rest

namespace Indents

theorem eq {text further : String} (indents : Indents text further) : indented text = further := by
  have whole := indents []
  rw [List.append_nil, indentedFrom, List.append_nil] at whole
  rw [indented, whole, String.ofList_toList]

theorem empty : Indents "" "" := fun _ => rfl

theorem append {text further text' further' : String} (front : Indents text further)
    (back : Indents text' further') : Indents (text ++ text') (further ++ further') := by
  intro rest
  rw [String.toList_append, String.toList_append, List.append_assoc, front, back,
    List.append_assoc]

theorem join {α : Type} (xs : List α) (text further : α → String)
    (each : ∀ x ∈ xs, Indents (text x) (further x)) :
    Indents (String.join (xs.map text)) (String.join (xs.map further)) := by
  induction xs with
  | nil => exact empty
  | cons x xs ih =>
    obtain ⟨first, others⟩ := List.forall_mem_cons.mp each
    have both := first.append (ih others)
    rwa [← String.join_cons, ← String.join_cons] at both

end Indents

end Text

open Text

/-- One line of text, the line break apart. -/
def OneLine (s : String) : Prop := '\n' ∉ s.toList

instance (s : String) : Decidable (OneLine s) := inferInstanceAs (Decidable ('\n' ∉ s.toList))

theorem indent_succ (depth : Nat) :
    (indent (depth + 1)).toList = ' ' :: ' ' :: (indent depth).toList := by
  simp only [indent, String.toList_ofList, Nat.mul_add, Nat.mul_one, List.replicate_succ]

theorem indent_oneLine (depth : Nat) : OneLine (indent depth) := by
  simp [OneLine, indent]

theorem OneLine.append {s t : String} (first : OneLine s) (second : OneLine t) :
    OneLine (s ++ t) := by
  rw [OneLine, String.toList_append, List.mem_append, not_or]
  exact ⟨first, second⟩

theorem line_indents (depth : Nat) (text : String) (oneLine : OneLine text) :
    Indents (indent depth ++ text ++ "\n") (indent (depth + 1) ++ text ++ "\n") := by
  intro rest
  have line := indentedFrom_line (indent depth ++ text).toList rest
    ((indent_oneLine depth).append oneLine)
  simp only [String.toList_append, indent_succ] at line ⊢
  simpa using line

def Declaration.OneLine (d : Declaration) : Prop :=
  StyleLayers.OneLine d.property ∧ StyleLayers.OneLine d.value

instance (d : Declaration) : Decidable d.OneLine :=
  inferInstanceAs (Decidable (StyleLayers.OneLine d.property ∧ StyleLayers.OneLine d.value))

theorem Declaration.css_indents (depth : Nat) (d : Declaration) (oneLine : d.OneLine) :
    Indents (d.css depth) (d.css (depth + 1)) := by
  have text : StyleLayers.OneLine (d.property ++ ": " ++ d.value ++ ";") :=
    ((oneLine.1.append (by decide)).append oneLine.2).append (by decide)
  have line := line_indents depth _ text
  have shape (depth : Nat) :
      d.css depth = indent depth ++ (d.property ++ ": " ++ d.value ++ ";") ++ "\n" := by
    simp [Declaration.css, ← String.toList_inj]
  rwa [shape, shape]

theorem statementCss_indents (depth : Nat) (head : String) (oneLine : OneLine head) :
    Indents (statementCss depth head) (statementCss (depth + 1) head) := by
  have line := line_indents depth _ (oneLine.append (by decide : OneLine ";"))
  have shape (depth : Nat) : statementCss depth head = indent depth ++ (head ++ ";") ++ "\n" := by
    simp [statementCss, ← String.toList_inj]
  rwa [shape, shape]

theorem blockCss_indents (depth : Nat) (head body further : String) (oneLine : OneLine head)
    (indents : Indents body further) :
    Indents (blockCss depth head body) (blockCss (depth + 1) head further) := by
  have opening := line_indents depth _ (oneLine.append (by decide : OneLine " \x7b"))
  have closing := line_indents depth "\x7d" (by decide)
  have whole := (opening.append indents).append closing
  have shape (depth : Nat) (body : String) : blockCss depth head body =
      indent depth ++ (head ++ " \x7b") ++ "\n" ++ body ++ (indent depth ++ "\x7d" ++ "\n") := by
    simp [blockCss, ← String.toList_inj]
  rwa [shape, shape]

theorem blockCss_outermost (head body : String) :
    blockCss 0 head body = head ++ " \x7b\n" ++ body ++ "\x7d\n" := by
  simp [blockCss, indent]

namespace Rule

theorem cssAt_children (depth : Nat) (selector : String) (rs : List Rule) (some : rs ≠ []) :
    cssAt depth ⟨selector, [], rs⟩ = blockCss depth selector (cssAllAt (depth + 1) rs) := by
  have notEmpty : rs.isEmpty = false := by simpa using some
  have noDeclarations : declarationsCss (depth + 1) [] = "" := rfl
  rw [cssAt, if_neg (by simp [notEmpty]), noDeclarations, String.empty_append]

mutual

def OneLine : Rule → Prop
  | ⟨selector, declarations, children⟩ =>
    StyleLayers.OneLine selector ∧ (∀ d ∈ declarations, d.OneLine) ∧ AllOneLine children

def AllOneLine : List Rule → Prop
  | [] => True
  | r :: rs => OneLine r ∧ AllOneLine rs

end

mutual

def decidableOneLine : (r : Rule) → Decidable r.OneLine
  | ⟨selector, declarations, children⟩ =>
    have := decidableAllOneLine children
    inferInstanceAs (Decidable (StyleLayers.OneLine selector ∧
      (∀ d ∈ declarations, d.OneLine) ∧ AllOneLine children))

def decidableAllOneLine : (rs : List Rule) → Decidable (AllOneLine rs)
  | [] => inferInstanceAs (Decidable True)
  | r :: rs =>
    have := decidableOneLine r
    have := decidableAllOneLine rs
    inferInstanceAs (Decidable (OneLine r ∧ AllOneLine rs))

end

instance (rs : List Rule) : Decidable (AllOneLine rs) := decidableAllOneLine rs

mutual

theorem cssAt_indents (depth : Nat) :
    ∀ r : Rule, r.OneLine → Indents (r.cssAt depth) (r.cssAt (depth + 1))
  | ⟨selector, declarations, children⟩, oneLine => by
    rw [OneLine] at oneLine
    obtain ⟨head, declaring, below⟩ := oneLine
    rw [cssAt, cssAt]
    split
    · exact statementCss_indents depth selector head
    · refine blockCss_indents depth selector _ _ head (.append ?_ ?_)
      · exact Indents.join declarations _ _ fun d member =>
          d.css_indents (depth + 1) (declaring d member)
      · exact cssAllAt_indents (depth + 1) children below

/-- Rules written one level further in have the same lines, each with two spaces more. -/
theorem cssAllAt_indents (depth : Nat) :
    ∀ rs : List Rule, AllOneLine rs → Indents (cssAllAt depth rs) (cssAllAt (depth + 1) rs)
  | [], _ => Indents.empty
  | r :: rs, oneLine => by
    rw [AllOneLine] at oneLine
    exact (cssAt_indents depth r oneLine.1).append (cssAllAt_indents depth rs oneLine.2)

end

end Rule

end StyleLayers
