import Mathlib.Data.String.Basic
import StyleLayers.Proofs.Selector.Prefixing
import StyleLayers.Proofs.Selector.Rejoining

/-!
The scanner as a walk through the text that goes into parentheses, jumps over other blocks and
notes byte offsets. The walk comes to the end of every text, and notes what the pieces of the text
say.
-/

namespace StyleLayers.Selector

open Css

/-- Byte offsets: behind the points of class names, and of the commas that separate the list. -/
structure Offsets where
  classStarts : List Nat
  commas : List Nat
  deriving DecidableEq, Repr

namespace Offsets

def none : Offsets := ⟨[], []⟩

instance : Append Offsets :=
  ⟨fun first second => ⟨first.classStarts ++ second.classStarts, first.commas ++ second.commas⟩⟩

theorem append_eq (first second : Offsets) : first ++ second =
    ⟨first.classStarts ++ second.classStarts, first.commas ++ second.commas⟩ := rfl

theorem append_none (found : Offsets) : found ++ none = found := by
  rw [append_eq, none, List.append_nil, List.append_nil]

theorem append_assoc (first second third : Offsets) :
    first ++ second ++ third = first ++ (second ++ third) := by
  simp only [append_eq, List.append_assoc]

/-- In front of what is found further on, a piece that ends at `behind`. -/
def marked (role : Role) (behind : Nat) (found : Offsets) : Offsets :=
  match role with
  | .classPoint => ⟨behind :: found.classStarts, found.commas⟩
  | .listComma => ⟨found.classStarts, (behind - 1) :: found.commas⟩
  | .plain => found

end Offsets

def offsetsFrom (offset : Nat) : List Piece → Offsets
  | [] => .none
  | p :: ps =>
    let behind := offset + String.utf8Len p.text
    (offsetsFrom behind ps).marked p.role behind

def offsets (s : String) : Offsets := offsetsFrom 0 (scan s.toList)

/-- A place in a text: how many bytes lie before it, and what lies behind it. -/
structure Cursor where
  offset : Nat
  rest : List Char

namespace Cursor

def bytes (here : Cursor) : Nat := here.offset + String.utf8Len here.rest

def behind (offset : Nat) (c : Char) (cs : List Char) : Cursor :=
  ⟨offset + String.utf8Len (c :: textBefore cs (readToken c cs).2), (readToken c cs).2⟩

theorem behind_length (offset : Nat) (c : Char) (cs : List Char) :
    (behind offset c cs).rest.length < (c :: cs).length :=
  Nat.lt_succ_of_le (readToken_suffix c cs).length_le

theorem behind_bytes (offset : Nat) (c : Char) (cs : List Char) :
    (behind offset c cs).bytes = bytes ⟨offset, c :: cs⟩ := by
  have whole := congrArg String.utf8Len (textBefore_append (readToken_suffix c cs))
  rw [String.utf8Len_append] at whole
  simp only [bytes, behind, String.utf8Len_cons]
  omega

/-- Behind the closings that a jumped over block waits for, innermost first, or at the end. -/
def skipped (passed : List Bracket) (offset : Nat) : List Char → Cursor
  | [] => ⟨offset, []⟩
  | c :: cs =>
    match passOver passed (readToken c cs).1 with
    | [] => behind offset c cs
    | b :: outer => skipped (b :: outer) (behind offset c cs).offset (behind offset c cs).rest
termination_by cs => cs.length
decreasing_by exact behind_length offset c cs

theorem skipped_length (passed : List Bracket) (offset : Nat) (cs : List Char) :
    (skipped passed offset cs).rest.length ≤ cs.length := by
  fun_induction skipped passed offset cs with
  | case1 => exact Nat.le_refl _
  | case2 passed offset c cs => exact Nat.le_of_lt (behind_length offset c cs)
  | case3 passed offset c cs b outer _ ih =>
    exact Nat.le_trans ih (Nat.le_of_lt (behind_length offset c cs))

theorem skipped_bytes (passed : List Bracket) (offset : Nat) (cs : List Char) :
    (skipped passed offset cs).bytes = bytes ⟨offset, cs⟩ := by
  fun_induction skipped passed offset cs with
  | case1 => rfl
  | case2 passed offset c cs => exact behind_bytes offset c cs
  | case3 passed offset c cs b outer _ ih => exact ih.trans (behind_bytes offset c cs)

end Cursor

open Cursor (behind skipped)

/-- The walk of a block ends at the end of the text, and inside of parentheses before the one that
closes them. -/
def Stops (depth : Nat) (rest : List Char) : Prop :=
  rest = [] ∨ 0 < depth ∧ ∃ c cs, rest = c :: cs ∧ (readToken c cs).1 = .closing .round

/-- Inside of `depth` parentheses, the walk from the first place finds these offsets and stops at
the second place. -/
inductive Walks : Nat → Cursor → Offsets → Cursor → Prop where
  | stop {depth : Nat} {here : Cursor} (stops : Stops depth here.rest) :
      Walks depth here .none here
  | point {depth offset : Nat} {c : Char} {cs : List Char} {found : Offsets} {last : Cursor}
      (token : (readToken c cs).1 = .delim '.')
      (further : Walks depth (behind offset c cs) found last) :
      Walks depth ⟨offset, c :: cs⟩
        ⟨(behind offset c cs).offset :: found.classStarts, found.commas⟩ last
  | comma {offset : Nat} {c : Char} {cs : List Char} {found : Offsets} {last : Cursor}
      (token : (readToken c cs).1 = .comma)
      (further : Walks 0 (behind offset c cs) found last) :
      Walks 0 ⟨offset, c :: cs⟩
        ⟨found.classStarts, ((behind offset c cs).offset - 1) :: found.commas⟩ last
  /-- The block is walked, and then jumped over from where its walk stopped. -/
  | nested {depth offset : Nat} {c : Char} {cs : List Char} {inner found : Offsets}
      {close last : Cursor} (opens : openedBracket (readToken c cs).1 = some .round)
      (below : Walks (depth + 1) (behind offset c cs) inner close)
      (further : Walks depth (skipped [.round] close.offset close.rest) found last) :
      Walks depth ⟨offset, c :: cs⟩ (inner ++ found) last
  | passed {depth offset : Nat} {c : Char} {cs : List Char} {b : Bracket} {found : Offsets}
      {last : Cursor} (opens : openedBracket (readToken c cs).1 = some b) (other : b ≠ .round)
      (further : Walks depth
        (skipped [b] (behind offset c cs).offset (behind offset c cs).rest) found last) :
      Walks depth ⟨offset, c :: cs⟩ found last
  | other {depth offset : Nat} {c : Char} {cs : List Char} {found : Offsets} {last : Cursor}
      (goesOn : ¬Stops depth (c :: cs)) (opensNone : openedBracket (readToken c cs).1 = none)
      (noPoint : (readToken c cs).1 ≠ .delim '.')
      (noComma : depth = 0 → (readToken c cs).1 ≠ .comma)
      (further : Walks depth (behind offset c cs) found last) :
      Walks depth ⟨offset, c :: cs⟩ found last

namespace Walks

variable {depth : Nat} {here last : Cursor} {found : Offsets}

theorem stops (walk : Walks depth here found last) : Stops depth last.rest := by
  induction walk with
  | stop stops => exact stops
  | point _ _ ih => exact ih
  | comma _ _ ih => exact ih
  | nested _ _ _ _ ih => exact ih
  | passed _ _ _ ih => exact ih
  | other _ _ _ _ _ ih => exact ih

theorem bytes (walk : Walks depth here found last) : last.bytes = here.bytes := by
  induction walk with
  | stop => rfl
  | point _ _ ih => exact ih.trans (Cursor.behind_bytes _ _ _)
  | comma _ _ ih => exact ih.trans (Cursor.behind_bytes _ _ _)
  | nested _ _ _ inside ih =>
    exact ((ih.trans (Cursor.skipped_bytes _ _ _)).trans inside).trans (Cursor.behind_bytes _ _ _)
  | passed _ _ _ ih =>
    exact (ih.trans (Cursor.skipped_bytes _ _ _)).trans (Cursor.behind_bytes _ _ _)
  | other _ _ _ _ _ ih => exact ih.trans (Cursor.behind_bytes _ _ _)

end Walks

def foundFrom (n : Nesting) (here : Cursor) : Offsets :=
  offsetsFrom here.offset (pieces n (lexemes here.rest))

theorem foundFrom_nil (n : Nesting) (offset : Nat) : foundFrom n ⟨offset, []⟩ = .none := by
  rw [foundFrom, lexemes_nil]
  rfl

theorem foundFrom_token (n : Nesting) (offset : Nat) (c : Char) (cs : List Char) :
    foundFrom n ⟨offset, c :: cs⟩ =
      (foundFrom (nestingAfter n (readToken c cs).1) (behind offset c cs)).marked
        (roleOf n (readToken c cs).1) (behind offset c cs).offset := by
  rw [foundFrom, lexemes, pieces]
  rfl

theorem roleOf_opening (depth : Nat) (t : Token) (b : Bracket) (opens : openedBracket t = some b) :
    roleOf ⟨depth, []⟩ t = .plain := by
  cases t with
  | function name => rfl
  | opening bracket => rfl
  | _ => cases opens

theorem nestingAfter_opening (depth : Nat) (t : Token) (b : Bracket)
    (opens : openedBracket t = some b) :
    nestingAfter ⟨depth, []⟩ t = if b = .round then ⟨depth + 1, []⟩ else ⟨depth, [b]⟩ := by
  cases b <;> simp [nestingAfter, opens]

theorem foundFrom_skipped (depth : Nat) (passed : List Bracket) (offset : Nat) (cs : List Char)
    (inside : passed ≠ []) :
    foundFrom ⟨depth, passed⟩ ⟨offset, cs⟩ = foundFrom ⟨depth, []⟩ (skipped passed offset cs) := by
  have hidden (t : Token) (passed : List Bracket) (inside : passed ≠ []) :
      roleOf ⟨depth, passed⟩ t = .plain ∧
        nestingAfter ⟨depth, passed⟩ t = ⟨depth, passOver passed t⟩ :=
    ⟨if_pos inside, if_pos inside⟩
  fun_induction skipped passed offset cs with
  | case1 => rw [foundFrom_nil, foundFrom_nil]
  | case2 passed offset c cs closed =>
    obtain ⟨plain, nesting⟩ := hidden (readToken c cs).1 passed inside
    rw [foundFrom_token, plain, nesting, closed]
    rfl
  | case3 passed offset c cs b outer waits ih =>
    obtain ⟨plain, nesting⟩ := hidden (readToken c cs).1 passed inside
    rw [foundFrom_token, plain, nesting, waits, ← ih (List.cons_ne_nil b outer)]
    rfl

theorem foundFrom_close (depth : Nat) (close : Cursor) (stops : Stops (depth + 1) close.rest) :
    foundFrom ⟨depth + 1, []⟩ close =
      foundFrom ⟨depth, []⟩ (skipped [.round] close.offset close.rest) := by
  obtain ⟨offset, rest⟩ := close
  rcases stops with atEnd | ⟨_, c, cs, shape, closing⟩
  · change rest = [] at atEnd
    rw [atEnd, skipped, foundFrom_nil, foundFrom_nil]
  · change rest = c :: cs at shape
    have closed : passOver [.round] (readToken c cs).1 = [] := by rw [closing]; rfl
    rw [shape, foundFrom_token, closing, skipped, closed]
    rfl

theorem roleOf_other (depth : Nat) (t : Token) (noPoint : t ≠ .delim '.')
    (noComma : depth = 0 → t ≠ .comma) : roleOf ⟨depth, []⟩ t = .plain := by
  cases role : roleOf ⟨depth, []⟩ t with
  | plain => rfl
  | classPoint => exact absurd role (roleOf_noPoint _ t noPoint)
  | listComma =>
    obtain ⟨comma, outermost⟩ := listComma_of_role _ t role
    exact absurd comma (noComma (congrArg Nesting.depth outermost))

theorem nestingAfter_other (depth : Nat) (t : Token) (opensNone : openedBracket t = none)
    (noClosing : 0 < depth → t ≠ .closing .round) : nestingAfter ⟨depth, []⟩ t = ⟨depth, []⟩ := by
  cases t with
  | function name => cases opensNone
  | opening bracket => cases opensNone
  | closing bracket =>
    cases bracket with
    | round =>
      -- Outside of parentheses one that closes changes nothing.
      have outermost : depth = 0 := by
        by_contra deep
        exact noClosing (Nat.pos_of_ne_zero deep) rfl
      rw [outermost]
      rfl
    | _ => rfl
  | _ => rfl

theorem Walks.finds {depth : Nat} {here last : Cursor} {found : Offsets}
    (walk : Walks depth here found last) :
    foundFrom ⟨depth, []⟩ here = found ++ foundFrom ⟨depth, []⟩ last := by
  induction walk with
  | stop => rfl
  | point token _ ih =>
    rw [foundFrom_token, token]
    exact congrArg (Offsets.marked .classPoint _) ih
  | comma token _ ih =>
    rw [foundFrom_token, token]
    exact congrArg (Offsets.marked .listComma _) ih
  | nested opens below _ inside ih =>
    rw [foundFrom_token, roleOf_opening _ _ _ opens, nestingAfter_opening _ _ _ opens, if_pos rfl,
      Offsets.append_assoc, ← ih, ← foundFrom_close _ _ below.stops, ← inside]
    rfl
  | passed opens other _ ih =>
    rw [foundFrom_token, roleOf_opening _ _ _ opens, nestingAfter_opening _ _ _ opens,
      if_neg other, ← ih, ← foundFrom_skipped _ _ _ _ (List.cons_ne_nil _ _)]
    rfl
  | @other depth offset c cs found last goesOn opensNone noPoint noComma _ ih =>
    have noClosing : 0 < depth → (readToken c cs).1 ≠ .closing .round :=
      fun deep closing => goesOn (Or.inr ⟨deep, c, cs, rfl, closing⟩)
    rw [foundFrom_token, roleOf_other _ _ noPoint noComma,
      nestingAfter_other _ _ opensNone noClosing, ← ih]
    rfl

theorem walks_stop (depth : Nat) (here : Cursor) :
    ∃ found last, Walks depth here found last ∧ last.rest.length ≤ here.rest.length := by
  obtain ⟨offset, rest⟩ := here
  by_cases stops : Stops depth rest
  · exact ⟨.none, ⟨offset, rest⟩, .stop stops, Nat.le_refl _⟩
  obtain ⟨c, cs, rfl⟩ := List.exists_cons_of_ne_nil fun none => stops (Or.inl none)
  have shorter := Cursor.behind_length offset c cs
  have jump (passed : List Bracket) (place : Cursor) :=
    Cursor.skipped_length passed place.offset place.rest
  cases opens : openedBracket (readToken c cs).1 with
  | none =>
    obtain ⟨found, last, further, short⟩ := walks_stop depth (behind offset c cs)
    have shortens : last.rest.length ≤ (c :: cs).length := Nat.le_trans short shorter.le
    by_cases point : (readToken c cs).1 = .delim '.'
    · exact ⟨_, last, .point point further, shortens⟩
    by_cases comma : depth = 0 ∧ (readToken c cs).1 = .comma
    · obtain ⟨rfl, token⟩ := comma
      exact ⟨_, last, .comma token further, shortens⟩
    · have noComma : depth = 0 → (readToken c cs).1 ≠ .comma :=
        fun outermost token => comma ⟨outermost, token⟩
      exact ⟨found, last, .other stops opens point noComma further, shortens⟩
  | some b =>
    by_cases round : b = .round
    · subst round
      obtain ⟨inner, close, below, shortBelow⟩ := walks_stop (depth + 1) (behind offset c cs)
      have shortClose := Nat.le_trans (jump [.round] close) shortBelow
      obtain ⟨found, last, further, short⟩ :=
        walks_stop depth (skipped [.round] close.offset close.rest)
      exact ⟨_, last, .nested opens below further,
        Nat.le_trans (Nat.le_trans short shortClose) shorter.le⟩
    · have shortJump := jump [b] (behind offset c cs)
      obtain ⟨found, last, further, short⟩ := walks_stop depth
        (skipped [b] (behind offset c cs).offset (behind offset c cs).rest)
      exact ⟨found, last, .passed opens round further,
        Nat.le_trans (Nat.le_trans short shortJump) shorter.le⟩
termination_by here.rest.length

/-- The walk of a whole text comes to its end, and there is one result only. -/
theorem walks_iff (s : String) (found : Offsets) (last : Cursor) :
    Walks 0 ⟨0, s.toList⟩ found last ↔ found = offsets s ∧ last = ⟨s.utf8ByteSize, []⟩ := by
  have only {found : Offsets} {last : Cursor} (walk : Walks 0 ⟨0, s.toList⟩ found last) :
      found = offsets s ∧ last = ⟨s.utf8ByteSize, []⟩ := by
    obtain ⟨offset, rest⟩ := last
    obtain rfl : rest = [] := walk.stops.resolve_right fun inside => absurd inside.1 (by decide)
    have all : offset + 0 = 0 + String.utf8Len s.toList := walk.bytes
    have finds := walk.finds
    rw [foundFrom_nil, Offsets.append_none] at finds
    rw [Nat.zero_add, Nat.add_zero, String.utf8Len_toList] at all
    exact ⟨finds.symm, by rw [all]⟩
  constructor
  · exact only
  · rintro ⟨rfl, rfl⟩
    obtain ⟨found, last, walk, _⟩ := walks_stop 0 ⟨0, s.toList⟩
    obtain ⟨rfl, rfl⟩ := only walk
    exact walk

end StyleLayers.Selector
