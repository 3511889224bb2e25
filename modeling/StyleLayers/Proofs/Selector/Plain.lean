import StyleLayers.Proofs.Css.Trailing
import StyleLayers.Proofs.Selector.Grammar
import StyleLayers.Selector.Nest

/-!
Plain selector lists: ordinary names, nothing escaped, quoted or in brackets. In their text every
point has a name after it, and splitting, trimming, filling in and joining keep it that way.
-/

namespace StyleLayers.Selector

open Css

inductive PlainSimple where
  | ofClass (name : Word)
  | ofId (name : Word)
  | pseudoClass (name : Word)
  | pseudoElement (name : Word)

def PlainSimple.text : PlainSimple → List Char
  | ofClass name => '.' :: name.chars
  | ofId name => '#' :: name.chars
  | pseudoClass name => ':' :: name.chars
  | pseudoElement name => ':' :: ':' :: name.chars

inductive Front where
  | placeholder
  | element (e : Element)

def Front.text : Front → List Char
  | placeholder => ['&']
  | element e => e.text

structure PlainCompound where
  front : Option Front
  simples : List PlainSimple
  nonempty : front = none → simples ≠ []

def PlainCompound.text (c : PlainCompound) : List Char :=
  (c.front.map Front.text).getD [] ++ c.simples.flatMap PlainSimple.text

/-- Compounds with combinators between them, and one in front, where the descendant combinator is
not written. -/
structure PlainComplex where
  leading : Combinator
  first : PlainCompound
  others : List (Combinator × PlainCompound)

def PlainComplex.text (x : PlainComplex) : List Char :=
  x.leading.text.drop 1 ++ x.first.text ++ x.others.flatMap fun p => p.1.text ++ p.2.text

structure PlainSeries where
  selectors : List PlainComplex
  nonempty : selectors ≠ []

def PlainSeries.text (l : PlainSeries) : List Char := listText (l.selectors.map PlainComplex.text)

def marks : List Char := ['#', ':', '&', ',', '>', '+', '~', '*', ' ']

/-- The text of plain selectors, `inName` where a name can go on. -/
inductive Plain : Bool → List Char → Prop where
  | nil {inName : Bool} : Plain inName []
  | mark {inName : Bool} {c : Char} {rest : List Char} (isMark : c ∈ marks)
      (after : Plain false rest) : Plain inName (c :: rest)
  | start {inName : Bool} {c : Char} {rest : List Char} (starts : isWordStart c = true)
      (after : Plain true rest) : Plain inName (c :: rest)
  | part {c : Char} {rest : List Char} (continues : isWordPart c = true)
      (after : Plain true rest) : Plain true (c :: rest)
  | point {inName : Bool} {c : Char} {rest : List Char} (starts : isWordStart c = true)
      (after : Plain true rest) : Plain inName ('.' :: c :: rest)

theorem mark_noPoint (c : Char) (isMark : c ∈ marks) : c ≠ '.' := by
  rintro rfl
  exact absurd isMark (by decide)

theorem listText_toList (ss : List String) :
    listText (ss.map String.toList) = (", ".intercalate ss).toList := by
  rw [String.toList_intercalate]
  rfl

theorem listText_cons (w v : List Char) (vs : List (List Char)) :
    listText (w :: v :: vs) = w ++ ',' :: ' ' :: listText (v :: vs) := by
  simp [listText, List.intercalate]

theorem filled_placeholder (outer cs : List Char) :
    filled outer ('&' :: cs) = outer ++ filled outer cs := rfl

theorem filled_other (outer cs : List Char) (c : Char) (other : c ≠ '&') :
    filled outer (c :: cs) = c :: filled outer cs := by
  simp [filled, other]

theorem splitOn_comma (cs : List Char) : (',' :: cs).splitOn ',' = [] :: cs.splitOn ',' := by
  simp [List.splitOn_cons_eq_if_modifyHead]

theorem splitOn_other (c : Char) (cs first : List Char) (others : List (List Char))
    (other : c ≠ ',') (split : cs.splitOn ',' = first :: others) :
    (c :: cs).splitOn ',' = (c :: first) :: others := by
  simp [List.splitOn_cons_eq_if_modifyHead, split, other]

theorem splitOn_append (w cs first : List Char) (others : List (List Char)) (noComma : ',' ∉ w)
    (split : cs.splitOn ',' = first :: others) :
    (w ++ cs).splitOn ',' = (w ++ first) :: others := by
  induction w with
  | nil => exact split
  | cons c w ih =>
      rw [List.mem_cons, not_or] at noComma
      exact splitOn_other c _ _ others (Ne.symm noComma.1) (ih noComma.2)

namespace Plain

theorem anywhere {w : List Char} (plain : Plain false w) (inName : Bool) : Plain inName w := by
  cases plain with
  | nil => exact .nil
  | mark isMark after => exact .mark isMark after
  | start starts after => exact .start starts after
  | point starts after => exact .point starts after

theorem append {inName : Bool} {w rest : List Char} (plain : Plain inName w)
    (after : Plain false rest) : Plain inName (w ++ rest) := by
  induction plain with
  | nil => exact after.anywhere _
  | mark isMark _ ih => exact .mark isMark ih
  | start starts _ ih => exact .start starts ih
  | part continues _ ih => exact .part continues ih
  | point starts _ ih => exact .point starts ih

theorem parts {w rest : List Char} (continues : ∀ c ∈ w, isWordPart c = true)
    (after : Plain true rest) : Plain true (w ++ rest) := by
  induction w with
  | nil => exact after
  | cons c w ih =>
      exact .part (continues c List.mem_cons_self)
        (ih fun d member => continues d (List.mem_cons_of_mem c member))

theorem word (name : Word) {inName : Bool} : Plain inName name.chars := by
  have rest := parts name.continues .nil
  rw [List.append_nil] at rest
  exact .start name.starts rest

theorem flatMap {α : Type} (text : α → List Char) (xs : List α)
    (each : ∀ x, Plain false (text x)) : Plain false (xs.flatMap text) := by
  induction xs with
  | nil => exact .nil
  | cons x xs ih => exact (each x).append ih

theorem combinator (k : Combinator) : Plain false k.text := by
  cases k with
  | descendant => exact .mark (by decide) .nil
  | child => exact .mark (by decide) (.mark (by decide) (.mark (by decide) .nil))
  | next => exact .mark (by decide) (.mark (by decide) (.mark (by decide) .nil))
  | later => exact .mark (by decide) (.mark (by decide) (.mark (by decide) .nil))

theorem leading (k : Combinator) : Plain false (k.text.drop 1) := by
  cases k with
  | descendant => exact .nil
  | child => exact .mark (by decide) (.mark (by decide) .nil)
  | next => exact .mark (by decide) (.mark (by decide) .nil)
  | later => exact .mark (by decide) (.mark (by decide) .nil)

theorem simple (s : PlainSimple) : Plain false s.text := by
  cases s with
  | ofClass name =>
      have rest := parts name.continues .nil
      rw [List.append_nil] at rest
      exact .point name.starts rest
  | ofId name => exact .mark (by decide) (word name)
  | pseudoClass name => exact .mark (by decide) (word name)
  | pseudoElement name => exact .mark (by decide) (.mark (by decide) (word name))

theorem front (f : Front) : Plain false f.text := by
  cases f with
  | placeholder => exact .mark (by decide) .nil
  | element e =>
      cases e with
      | any => exact .mark (by decide) .nil
      | named name => exact word name

theorem compound (c : PlainCompound) : Plain false c.text := by
  have simples := flatMap PlainSimple.text c.simples simple
  rw [PlainCompound.text]
  cases c.front with
  | none => exact simples
  | some f => exact (front f).append simples

theorem complex (x : PlainComplex) : Plain false x.text :=
  ((leading x.leading).append (compound x.first)).append
    (flatMap _ x.others fun p => (combinator p.1).append (compound p.2))

theorem listText (ws : List (List Char)) (each : ∀ w ∈ ws, Plain false w) :
    Plain false (listText ws) := by
  induction ws with
  | nil => exact .nil
  | cons w ws ih =>
      have first := each w List.mem_cons_self
      have others := ih fun v member => each v (List.mem_cons_of_mem w member)
      cases ws with
      | nil =>
          have shape : Selector.listText [w] = w := by simp [Selector.listText]
          rwa [shape]
      | cons v vs =>
          rw [listText_cons]
          exact first.append (.mark (by decide) (.mark (by decide) others))

theorem series (l : PlainSeries) : Plain false l.text := by
  apply listText
  intro w member
  obtain ⟨x, _, rfl⟩ := List.mem_map.mp member
  exact complex x

theorem splitOn {inName : Bool} {w : List Char} (plain : Plain inName w) :
    ∃ first others, w.splitOn ',' = first :: others ∧ Plain inName first ∧
      ∀ v ∈ others, Plain false v := by
  induction plain with
  | nil => exact ⟨[], [], rfl, .nil, by simp⟩
  | @mark inName c rest isMark _ ih =>
      obtain ⟨first, others, split, plainFirst, plainOthers⟩ := ih
      by_cases comma : c = ','
      · subst comma
        refine ⟨[], first :: others, ?_, .nil, ?_⟩
        · rw [splitOn_comma, split]
        · simpa using ⟨plainFirst, plainOthers⟩
      · exact ⟨c :: first, others, splitOn_other c rest first others comma split,
          .mark isMark plainFirst, plainOthers⟩
  | @start inName c rest starts _ ih =>
      obtain ⟨first, others, split, plainFirst, plainOthers⟩ := ih
      have noComma := wordPart_ne c ',' (wordStart_wordPart c starts) (by decide)
      exact ⟨c :: first, others, splitOn_other c rest first others noComma split,
        .start starts plainFirst, plainOthers⟩
  | @part c rest continues _ ih =>
      obtain ⟨first, others, split, plainFirst, plainOthers⟩ := ih
      have noComma := wordPart_ne c ',' continues (by decide)
      exact ⟨c :: first, others, splitOn_other c rest first others noComma split,
        .part continues plainFirst, plainOthers⟩
  | @point inName c rest starts _ ih =>
      obtain ⟨first, others, split, plainFirst, plainOthers⟩ := ih
      have noComma := wordPart_ne c ',' (wordStart_wordPart c starts) (by decide)
      have below := splitOn_other c rest first others noComma split
      exact ⟨'.' :: c :: first, others, splitOn_other '.' _ _ others (by decide) below,
        .point starts plainFirst, plainOthers⟩

theorem dropWhile {p : Char → Bool} {w : List Char} (plain : Plain false w)
    (point : p '.' = false) (word : ∀ c, isWordStart c = true → p c = false) :
    Plain false (w.dropWhile p) := by
  induction w with
  | nil => exact .nil
  | cons c w ih =>
      cases plain with
      | mark isMark after =>
          by_cases dropped : p c
          · rw [List.dropWhile_cons_of_pos dropped]
            exact ih after
          · rw [List.dropWhile_cons_of_neg dropped]
            exact .mark isMark after
      | start starts after =>
          rw [List.dropWhile_cons_of_neg (by simp [word c starts])]
          exact .start starts after
      | point starts after =>
          rw [List.dropWhile_cons_of_neg (by simp [point])]
          exact .point starts after

theorem trimEnd {inName : Bool} {w : List Char} (plain : Plain inName w) :
    Plain inName (Text.trimEnd w) := by
  induction plain with
  | nil => exact .nil
  | @mark inName c rest isMark _ ih =>
      rw [trimEnd_cons]
      split
      · exact .nil
      · exact .mark isMark ih
  | @start inName c rest starts _ ih =>
      rw [trimEnd_visible_cons c rest (wordStart_visible c starts)]
      exact .start starts ih
  | @part c rest continues _ ih =>
      rw [trimEnd_visible_cons c rest (wordPart_visible c continues)]
      exact .part continues ih
  | @point inName c rest starts _ ih =>
      rw [trimEnd_visible_cons '.' _ (by decide),
        trimEnd_visible_cons c rest (wordStart_visible c starts)]
      exact .point starts ih

theorem trim {w : List Char} (plain : Plain false w) : Plain false (Text.trim w) :=
  (plain.dropWhile (by decide) wordStart_visible).trimEnd

theorem filled {inName : Bool} {outer inner : List Char} (plainOuter : Plain false outer)
    (plainInner : Plain inName inner) : Plain inName (filled outer inner) := by
  induction plainInner with
  | nil => exact .nil
  | @mark inName c rest isMark _ ih =>
      by_cases placeholder : c = '&'
      · subst placeholder
        rw [filled_placeholder]
        exact (plainOuter.append ih).anywhere inName
      · rw [filled_other outer rest c placeholder]
        exact .mark isMark ih
  | @start inName c rest starts _ ih =>
      rw [filled_other outer rest c (wordPart_ne c '&' (wordStart_wordPart c starts) (by decide))]
      exact .start starts ih
  | @part c rest continues _ ih =>
      rw [filled_other outer rest c (wordPart_ne c '&' continues (by decide))]
      exact .part continues ih
  | @point inName c rest starts _ ih =>
      rw [filled_other outer _ '.' (by decide),
        filled_other outer rest c (wordPart_ne c '&' (wordStart_wordPart c starts) (by decide))]
      exact .point starts ih

theorem nestedPart {outer inner : List Char} (plainOuter : Plain false outer)
    (plainInner : Plain false inner) : Plain false (nestedPart outer inner) := by
  unfold Selector.nestedPart
  split
  · exact plainOuter.filled plainInner
  · split
    · exact plainInner
    · exact plainOuter.append (.mark (by decide) plainInner)

end Plain

end StyleLayers.Selector
