import StyleLayers.Proofs.Selector.Walking

/-!
Cutting a selector at the offsets of its scan. They stand in order, behind points and at commas, so
the text between two of them is always there: the parts of a list and the text with a name in front
of its classes are made of such texts, and with the name taken out again the text is as it was.
-/

namespace StyleLayers.Selector

open Css

theorem readToken_point (c : Char) (cs : List Char) (point : (readToken c cs).1 = .delim '.') :
    c = '.' ∧ (readToken c cs).2 = cs := by
  obtain rfl : '.' = c := readToken_marks c cs '.' (by rw [point]; rfl)
  refine ⟨rfl, ?_⟩
  change (readPoint cs).1 = .delim '.' at point
  change (readPoint cs).2 = cs
  -- A point in front of a digit is part of a number.
  have noNumber (ds : List Char) : (readNumber ds).1 ≠ .delim '.' := by
    intro read
    have unmarked := readNumber_unmarked ds
    rw [read] at unmarked
    cases unmarked
  unfold readPoint at point ⊢
  split
  · split
    · next digit =>
      simp only [digit, if_true] at point
      exact absurd point (noNumber _)
    · rfl
  · rfl

/-- A piece that the text is cut at is one character. -/
structure Piece.Sound (p : Piece) : Prop where
  point : p.role = .classPoint → p.text = ['.']
  comma : p.role = .listComma → p.text = [',']

theorem textBefore_self (cs : List Char) : textBefore cs cs = [] := by
  rw [textBefore, Nat.sub_self, List.take_zero]

theorem pieces_sound (n : Nesting) (cs : List Char) : ∀ p ∈ pieces n (lexemes cs), p.Sound := by
  fun_induction lexemes cs generalizing n with
  | case1 =>
    intro p member
    cases member
  | case2 c cs reading ih =>
    refine List.forall_mem_cons.mpr ⟨⟨fun role => ?_, fun role => ?_⟩, ih _⟩
    · have point : (readToken c cs).1 = .delim '.' := by
        by_contra other
        exact roleOf_noPoint n _ other role
      obtain ⟨rfl, rest⟩ := readToken_point c cs point
      change '.' :: textBefore cs (readToken '.' cs).2 = ['.']
      rw [rest, textBefore_self]
    · obtain rfl := readToken_comma c cs (listComma_of_role n _ role).1
      exact congrArg (',' :: ·) (textBefore_self cs)

/-- Where the pieces with a role end, the first piece starting at `offset`. -/
def endsOf (role : Role) (offset : Nat) : List Piece → List Nat
  | [] => []
  | p :: ps =>
    let behind := offset + String.utf8Len p.text
    if p.role = role then behind :: endsOf role behind ps else endsOf role behind ps

theorem endsOf_here {role : Role} (offset : Nat) {p : Piece} (ps : List Piece)
    (here : p.role = role) : endsOf role offset (p :: ps) =
      (offset + String.utf8Len p.text) :: endsOf role (offset + String.utf8Len p.text) ps :=
  if_pos here

theorem endsOf_other {role : Role} (offset : Nat) {p : Piece} (ps : List Piece)
    (other : p.role ≠ role) :
    endsOf role offset (p :: ps) = endsOf role (offset + String.utf8Len p.text) ps :=
  if_neg other

theorem classStarts_eq (offset : Nat) (ps : List Piece) :
    (offsetsFrom offset ps).classStarts = endsOf .classPoint offset ps := by
  induction ps generalizing offset with
  | nil => rfl
  | cons p ps ih =>
    obtain ⟨role, text⟩ := p
    cases role with
    | classPoint => exact congrArg (List.cons _) (ih _)
    | listComma => exact ih _
    | plain => exact ih _

theorem commas_eq (offset : Nat) (ps : List Piece) :
    (offsetsFrom offset ps).commas = (endsOf .listComma offset ps).map (· - 1) := by
  induction ps generalizing offset with
  | nil => rfl
  | cons p ps ih =>
    obtain ⟨role, text⟩ := p
    cases role with
    | classPoint => exact ih _
    | listComma => exact congrArg (List.cons _) (ih _)
    | plain => exact ih _

section Ends

variable {role : Role} {c : Char} (single : c.utf8Size = 1)

include single

theorem endsOf_behind (offset : Nat) (ps : List Piece)
    (sound : ∀ p ∈ ps, p.role = role → p.text = [c]) :
    ∀ i ∈ endsOf role offset ps, ∃ front behind,
      ps.flatMap Piece.text = front ++ c :: behind ∧ i = offset + String.utf8Len front + 1 := by
  induction ps generalizing offset with
  | nil =>
    intro i member
    cases member
  | cons p ps ih =>
    obtain ⟨first, others⟩ := List.forall_mem_cons.mp sound
    have later : ∀ i ∈ endsOf role (offset + String.utf8Len p.text) ps, ∃ front behind,
        (p :: ps).flatMap Piece.text = front ++ c :: behind ∧
          i = offset + String.utf8Len front + 1 := by
      intro i member
      obtain ⟨front, behind, split, place⟩ := ih _ others i member
      refine ⟨p.text ++ front, behind, ?_, ?_⟩
      · rw [List.flatMap_cons, split, List.append_assoc]
      · rw [place, String.utf8Len_append]
        omega
    intro i member
    by_cases here : p.role = role
    · rw [endsOf_here offset ps here] at member
      rcases List.mem_cons.mp member with rfl | member
      · refine ⟨[], ps.flatMap Piece.text, ?_, ?_⟩
        · rw [List.flatMap_cons, first here]
          rfl
        · simp [first here, single]
      · exact later i member
    · rw [endsOf_other offset ps here] at member
      exact later i member

theorem endsOf_pairwise (offset : Nat) (ps : List Piece)
    (sound : ∀ p ∈ ps, p.role = role → p.text = [c]) :
    (endsOf role offset ps).Pairwise (· < ·) := by
  induction ps generalizing offset with
  | nil => exact .nil
  | cons p ps ih =>
    have others := (List.forall_mem_cons.mp sound).2
    have later : ∀ i ∈ endsOf role (offset + String.utf8Len p.text) ps,
        offset + String.utf8Len p.text < i := by
      intro i member
      obtain ⟨front, behind, _, place⟩ := endsOf_behind single _ ps others i member
      omega
    by_cases here : p.role = role
    · rw [endsOf_here offset ps here]
      exact List.pairwise_cons.mpr ⟨later, ih _ others⟩
    · rw [endsOf_other offset ps here]
      exact ih _ others

end Ends

theorem scan_sound (s : String) : ∀ p ∈ scan s.toList, p.Sound := pieces_sound .outermost s.toList

theorem endsOf_split {role : Role} {c : Char} (single : c.utf8Size = 1) (s : String)
    (sound : ∀ p ∈ scan s.toList, p.role = role → p.text = [c]) (i : Nat)
    (member : i ∈ endsOf role 0 (scan s.toList)) :
    ∃ front behind, s = front ++ String.singleton c ++ behind ∧ i = front.utf8ByteSize + 1 := by
  obtain ⟨front, behind, split, place⟩ := endsOf_behind single 0 (scan s.toList) sound i member
  rw [flatMap_text_scan] at split
  refine ⟨String.ofList front, String.ofList behind, ?_, ?_⟩
  · rw [← String.toList_inj, split]
    simp
  · rw [place, String.utf8ByteSize_ofList, Nat.zero_add]

theorem classStarts_increase (s : String) : (offsets s).classStarts.Pairwise (· < ·) := by
  rw [offsets, classStarts_eq]
  exact endsOf_pairwise rfl 0 _ fun p member => (scan_sound s p member).point

theorem classStarts_behind_points (s : String) : ∀ i ∈ (offsets s).classStarts,
    ∃ front behind, s = front ++ "." ++ behind ∧ i = (front ++ ".").utf8ByteSize := by
  intro i member
  rw [offsets, classStarts_eq] at member
  obtain ⟨front, behind, split, place⟩ :=
    endsOf_split rfl s (fun p member => (scan_sound s p member).point) i member
  exact ⟨front, behind, split, by rw [place, String.utf8ByteSize_append]; rfl⟩

theorem commas_at_commas (s : String) : ∀ i ∈ (offsets s).commas,
    ∃ front behind, s = front ++ "," ++ behind ∧ i = front.utf8ByteSize := by
  intro i member
  rw [offsets, commas_eq] at member
  obtain ⟨j, ends, rfl⟩ := List.mem_map.mp member
  obtain ⟨front, behind, split, place⟩ :=
    endsOf_split rfl s (fun p member => (scan_sound s p member).comma) j ends
  exact ⟨front, behind, split, by rw [place, Nat.add_sub_cancel]⟩

theorem commas_increase (s : String) : (offsets s).commas.Pairwise (· < ·) := by
  have sound : ∀ p ∈ scan s.toList, p.role = .listComma → p.text = [','] :=
    fun p member => (scan_sound s p member).comma
  rw [offsets, commas_eq, List.pairwise_map]
  refine (endsOf_pairwise rfl 0 _ sound).imp_of_mem ?_
  intro i j first second less
  obtain ⟨front, _, _, place⟩ := endsOf_split rfl s sound i first
  omega

/-- The text between two offsets; none where they are out of order or out of range, or where one
stands inside of a character. -/
def slice? (s : String) (start stop : Nat) : Option String :=
  if start ≤ stop ∧ String.Pos.Raw.IsValid s ⟨start⟩ ∧ String.Pos.Raw.IsValid s ⟨stop⟩ then
    some (String.Pos.Raw.extract s ⟨start⟩ ⟨stop⟩)
  else none

theorem isValid_front {s : String} {front behind : List Char} (split : s.toList = front ++ behind) :
    String.Pos.Raw.IsValid s ⟨String.utf8Len front⟩ := by
  refine String.Pos.Raw.isValid_iff_exists_append.mpr
    ⟨String.ofList front, String.ofList behind, ?_, ?_⟩
  · rw [← String.toList_inj, split]
    simp
  · simp

theorem slice?_between {s : String} {front middle behind : List Char}
    (split : s.toList = front ++ middle ++ behind) :
    slice? s (String.utf8Len front) (String.utf8Len (front ++ middle)) =
      some (String.ofList middle) := by
  have ordered : String.utf8Len front ≤ String.utf8Len (front ++ middle) := by
    rw [String.utf8Len_append]
    exact Nat.le_add_right _ _
  have start : String.Pos.Raw.IsValid s ⟨String.utf8Len front⟩ :=
    isValid_front (split.trans (List.append_assoc _ _ _))
  have between := String.extract_of_valid front middle behind
  rw [← split, String.ofList_toList, ← String.utf8Len_append] at between
  rw [slice?, if_pos ⟨ordered, start, isValid_front split⟩, between]

theorem slice?_rest {s : String} {front rest : List Char} (split : s.toList = front ++ rest) :
    slice? s (String.utf8Len front) s.utf8ByteSize = some (String.ofList rest) := by
  rw [← String.utf8Len_toList, split]
  exact slice?_between (split.trans (List.append_nil _).symm)

/-- The texts between the commas, from `start` on. -/
def textsCut? (s : String) (start : Nat) : List Nat → Option (List String)
  | [] => do
    let text ← slice? s start s.utf8ByteSize
    return [text]
  | comma :: commas => do
    let text ← slice? s start comma
    let others ← textsCut? s (min (comma + 1) s.utf8ByteSize) commas
    return text :: others

theorem textsCut?_pieces {s : String} (ps : List Piece) (sound : ∀ p ∈ ps, p.Sound)
    (front pending : List Char) (split : s.toList = front ++ pending ++ ps.flatMap Piece.text)
    {text : List Char} {texts : List (List Char)}
    (between : textsBetweenCommas ps = text :: texts) :
    textsCut? s (String.utf8Len front)
        ((endsOf .listComma (String.utf8Len (front ++ pending)) ps).map (· - 1)) =
      some (((pending ++ text) :: texts).map String.ofList) := by
  induction ps generalizing front pending text texts with
  | nil =>
    cases between
    rw [List.flatMap_nil, List.append_nil] at split
    change (slice? s (String.utf8Len front) s.utf8ByteSize).bind _ = _
    rw [slice?_rest split, List.append_nil]
    rfl
  | cons p ps ih =>
    obtain ⟨first, others⟩ := List.forall_mem_cons.mp sound
    obtain ⟨inner, inners, later⟩ := textsBetweenCommas_nonempty ps
    rw [List.flatMap_cons] at split
    by_cases comma : p.role = .listComma
    · have single := first.comma comma
      rw [textsBetweenCommas, if_pos comma, later] at between
      cases between
      rw [single] at split
      have whole : s.toList = front ++ pending ++ [','] ++ [] ++ ps.flatMap Piece.text := by
        simp [split]
      have further := ih others (front ++ pending ++ [',']) [] whole later
      rw [List.append_nil] at further whole
      have place : String.utf8Len (front ++ pending ++ [',']) =
          String.utf8Len (front ++ pending) + 1 := String.utf8Len_append _ _
      have inside : String.utf8Len (front ++ pending ++ [',']) ≤ s.utf8ByteSize := by
        rw [← String.utf8Len_toList, whole, String.utf8Len_append _ (ps.flatMap Piece.text)]
        exact Nat.le_add_right _ _
      rw [endsOf_here _ ps comma, single, ← String.utf8Len_append, List.map_cons, textsCut?,
        place, Nat.add_sub_cancel, slice?_between split, ← place, min_eq_left inside, further,
        List.append_nil]
      rfl
    · rw [textsBetweenCommas, if_neg comma, later] at between
      cases between
      have further := ih others front (pending ++ p.text) (by simp [split]) later
      rw [endsOf_other _ ps comma, ← String.utf8Len_append, List.append_assoc, further,
        List.append_assoc]

theorem textsBetweenCommas_join (ps : List Piece) (sound : ∀ p ∈ ps, p.Sound) :
    [','].intercalate (textsBetweenCommas ps) = ps.flatMap Piece.text := by
  induction ps with
  | nil => rfl
  | cons p ps ih =>
    obtain ⟨first, others⟩ := List.forall_mem_cons.mp sound
    obtain ⟨text, texts, later⟩ := textsBetweenCommas_nonempty ps
    have join := ih others
    rw [later] at join
    rw [textsBetweenCommas, later, List.flatMap_cons, ← join]
    split
    · next comma =>
      rw [first.comma comma, List.intercalate_cons_cons]
      rfl
    · cases texts with
      | nil => simp
      | cons next texts => simp only [List.intercalate_cons_cons, List.append_assoc]

theorem trimmed_trimmed (s : String) : Text.trimmed (Text.trimmed s) = Text.trimmed s := by
  rw [Text.trimmed, Text.trimmed, String.toList_ofList, Text.trim_trim]

theorem filter_trimmed (texts : List (List Char)) :
    ((texts.map String.ofList).map Text.trimmed).filter (· ≠ "") =
      ((texts.map Text.trim).filter (· ≠ [])).map String.ofList := by
  have trimmed : (texts.map String.ofList).map Text.trimmed =
      (texts.map Text.trim).map String.ofList := by
    simp only [List.map_map, Function.comp_def, Text.trimmed, String.toList_ofList]
  rw [trimmed, List.filter_map]
  simp [Function.comp_def]

theorem textsCut?_parts (s : String) : ∃ texts, textsCut? s 0 (offsets s).commas = some texts ∧
    ",".intercalate texts = s ∧ parts s = (texts.map Text.trimmed).filter (· ≠ "") := by
  have whole : s.toList = [] ++ [] ++ (scan s.toList).flatMap Piece.text :=
    (flatMap_text_scan s.toList).symm
  obtain ⟨text, texts, between⟩ := textsBetweenCommas_nonempty (scan s.toList)
  refine ⟨(text :: texts).map String.ofList, ?_, ?_, ?_⟩
  · rw [offsets, commas_eq]
    exact textsCut?_pieces (scan s.toList) (scan_sound s) [] [] whole between
  · rw [← String.toList_inj, String.toList_intercalate, List.map_map]
    simp only [Function.comp_def, String.toList_ofList, List.map_id']
    rw [← between]
    exact (textsBetweenCommas_join _ (scan_sound s)).trans (flatMap_text_scan s.toList)
  · rw [filter_trimmed, ← between]
    rfl

/-- The text from `start` on, with `name` put in at the offsets. -/
def nameInserted? (name s : String) (start : Nat) : List Nat → Option String
  | [] => slice? s start s.utf8ByteSize
  | stop :: stops => do
    let text ← slice? s start stop
    let others ← nameInserted? name s stop stops
    return text ++ name ++ others

/-- The text from `start` on, with the `name` taken out that stands behind every offset of the text
it was put into; `added` bytes have been put in before `start`. None where another text stands. -/
def nameDeleted? (name s : String) (start added : Nat) : List Nat → Option String
  | [] => slice? s start s.utf8ByteSize
  | stop :: stops => do
    let text ← slice? s start (stop + added)
    let inserted ← slice? s (stop + added) (stop + added + name.utf8ByteSize)
    if inserted = name then
      let others ← nameDeleted? name s (stop + added + name.utf8ByteSize)
        (added + name.utf8ByteSize) stops
      return text ++ others
    else none

theorem nameInserted?_pieces (name : String) {s : String} (ps : List Piece)
    (front pending : List Char) (split : s.toList = front ++ pending ++ ps.flatMap Piece.text) :
    nameInserted? name s (String.utf8Len front)
        (endsOf .classPoint (String.utf8Len (front ++ pending)) ps) =
      some (String.ofList (pending ++ ps.flatMap (prefixedPiece name.toList))) := by
  induction ps generalizing front pending with
  | nil =>
    rw [List.flatMap_nil, List.append_nil] at split
    rw [List.flatMap_nil, List.append_nil]
    exact slice?_rest split
  | cons p ps ih =>
    have whole : s.toList = front ++ (pending ++ p.text) ++ ps.flatMap Piece.text := by
      simp [split]
    by_cases point : p.role = .classPoint
    · have further := ih (front ++ (pending ++ p.text)) []
        (whole.trans (by rw [List.append_nil]))
      rw [List.append_nil] at further
      rw [endsOf_here _ ps point, ← String.utf8Len_append, List.append_assoc, nameInserted?,
        slice?_between whole, further]
      simp [prefixedPiece, point, String.append_assoc]
    · have further := ih front (pending ++ p.text) whole
      rw [endsOf_other _ ps point, ← String.utf8Len_append, List.append_assoc, further,
        List.flatMap_cons, prefixedPiece, if_neg point, List.append_assoc]

theorem nameInserted?_prefixed (name s : String) :
    nameInserted? name s 0 (offsets s).classStarts = some (prefixed name s) := by
  rw [offsets, classStarts_eq]
  exact nameInserted?_pieces name (scan s.toList) [] [] (flatMap_text_scan s.toList).symm

/-- In front of the pieces, the text with names is by `added` bytes longer. -/
theorem nameDeleted?_pieces (name : String) {s : String} (ps : List Piece)
    (front pending : List Char) (offset added : Nat)
    (split : s.toList = front ++ pending ++ ps.flatMap (prefixedPiece name.toList))
    (place : offset + added = String.utf8Len (front ++ pending)) :
    nameDeleted? name s (String.utf8Len front) added (endsOf .classPoint offset ps) =
      some (String.ofList (pending ++ ps.flatMap Piece.text)) := by
  induction ps generalizing front pending offset added with
  | nil =>
    rw [List.flatMap_nil, List.append_nil] at split
    rw [List.flatMap_nil, List.append_nil]
    exact slice?_rest split
  | cons p ps ih =>
    rw [List.flatMap_cons] at split
    have stop : offset + String.utf8Len p.text + added =
        String.utf8Len (front ++ (pending ++ p.text)) := by
      rw [← List.append_assoc, String.utf8Len_append, ← place]
      omega
    by_cases point : p.role = .classPoint
    · rw [prefixedPiece, if_pos point] at split
      have named : s.toList = front ++ (pending ++ p.text) ++ name.toList ++
          ps.flatMap (prefixedPiece name.toList) := by simp [split]
      have text := slice?_between (named.trans (List.append_assoc _ _ _))
      have inserted := slice?_between named
      have behind : String.utf8Len (front ++ (pending ++ p.text)) + name.utf8ByteSize =
          String.utf8Len (front ++ (pending ++ p.text) ++ name.toList) := by
        rw [String.utf8Len_append _ name.toList, String.utf8Len_toList]
      have further := ih (front ++ (pending ++ p.text) ++ name.toList) []
        (offset + String.utf8Len p.text) (added + name.utf8ByteSize)
        (named.trans (by rw [List.append_nil]))
        (by rw [List.append_nil, ← behind, ← stop, ← Nat.add_assoc])
      rw [String.ofList_toList] at inserted
      rw [endsOf_here _ ps point, nameDeleted?, stop, text, behind, inserted, further]
      simp [String.append_assoc]
    · rw [prefixedPiece, if_neg point] at split
      have further := ih front (pending ++ p.text) (offset + String.utf8Len p.text) added
        (by simp [split]) stop
      rw [endsOf_other _ ps point, further, List.append_assoc, List.flatMap_cons]

theorem nameDeleted?_prefixed (name s : String) :
    nameDeleted? name (prefixed name s) 0 0 (offsets s).classStarts = some s := by
  have whole : (prefixed name s).toList =
      [] ++ [] ++ (scan s.toList).flatMap (prefixedPiece name.toList) := String.toList_ofList
  have deleted := nameDeleted?_pieces name (scan s.toList) [] [] 0 0 whole rfl
  rw [List.nil_append, flatMap_text_scan, String.ofList_toList] at deleted
  rw [offsets, classStarts_eq]
  exact deleted

/-- Whatever the text, the walk comes to its end, and the offsets it finds are in order, behind
points and at commas. Cutting at them is never out of order, out of range or inside of a character:
the texts between the commas make up the list, and trimmed they are its parts; what has been put in
front of the class names can be taken out again. -/
theorem scan_stays_in_text (s : String) :
    (∀ found last, Walks 0 ⟨0, s.toList⟩ found last ↔
        found = offsets s ∧ last = ⟨s.utf8ByteSize, []⟩) ∧
      ((offsets s).classStarts.Pairwise (· < ·) ∧ ∀ i ∈ (offsets s).classStarts,
        ∃ front behind, s = front ++ "." ++ behind ∧ i = (front ++ ".").utf8ByteSize) ∧
      ((offsets s).commas.Pairwise (· < ·) ∧ ∀ i ∈ (offsets s).commas,
        ∃ front behind, s = front ++ "," ++ behind ∧ i = front.utf8ByteSize) ∧
      (∃ texts, textsCut? s 0 (offsets s).commas = some texts ∧ ",".intercalate texts = s ∧
        parts s = (texts.map Text.trimmed).filter (· ≠ "")) ∧
      (∀ part ∈ parts s, part ≠ "" ∧ Text.trimmed part = part) ∧
      ∀ name, nameInserted? name s 0 (offsets s).classStarts = some (prefixed name s) ∧
        nameDeleted? name (prefixed name s) 0 0 (offsets s).classStarts = some s := by
  refine ⟨walks_iff s, ⟨classStarts_increase s, classStarts_behind_points s⟩,
    ⟨commas_increase s, commas_at_commas s⟩, textsCut?_parts s, ?_,
    fun name => ⟨nameInserted?_prefixed name s, nameDeleted?_prefixed name s⟩⟩
  obtain ⟨texts, _, _, trimmed⟩ := textsCut?_parts s
  intro part member
  rw [trimmed, List.mem_filter] at member
  obtain ⟨inside, nonempty⟩ := member
  obtain ⟨text, _, rfl⟩ := List.mem_map.mp inside
  exact ⟨by simpa using nonempty, trimmed_trimmed text⟩

theorem scan_stays_in_text_unclosed :
    let s := "é.a,, .b:is([.c], .d"
    offsets s = ⟨[3, 8, 20], [4, 5]⟩ ∧
      (∃ front behind, s = front ++ "." ++ behind ∧ 20 = (front ++ ".").utf8ByteSize) ∧
      (∃ front behind, s = front ++ "," ++ behind ∧ 5 = front.utf8ByteSize) ∧
      (parts s = ["é.a", ".b:is([.c], .d"] ∧ "é.a" ≠ "" ∧ Text.trimmed "é.a" = "é.a") ∧
      nameInserted? "x-" s 0 [3, 8, 20] = some "é.x-a,, .x-b:is([.c], .x-d" := by
  intro s
  obtain ⟨_, ⟨_, points⟩, ⟨_, commas⟩, _, trimmed, names⟩ := scan_stays_in_text s
  have found : offsets s = ⟨[3, 8, 20], [4, 5]⟩ := by decide +kernel
  have split : parts s = ["é.a", ".b:is([.c], .d"] := by decide +kernel
  have named : prefixed "x-" s = "é.x-a,, .x-b:is([.c], .x-d" := by decide +kernel
  rw [found] at points commas names
  rw [split] at trimmed
  exact ⟨found, points 20 (by decide), commas 5 (by decide), ⟨split, trimmed _ (by decide)⟩,
    named ▸ (names "x-").1⟩

end StyleLayers.Selector
