import Mathlib.Data.List.TakeWhile
import StyleLayers.Config.Path

/-!
How a path is read from its front: what is in brackets is one key, dots are passed over, and a plain
key reaches to the next dot or bracket.
-/

namespace StyleLayers.Path

def quotes : List Char := ['"', '\'']

def Quoted (cs : List Char) : Prop := ∃ quote ∈ quotes, ∃ inner, cs = quote :: (inner ++ [quote])

theorem isQuotedBy_iff (quote : Char) (cs : List Char) :
    isQuotedBy quote cs = true ↔ ∃ inner, cs = quote :: (inner ++ [quote]) := by
  constructor
  · intro quoted
    simp only [isQuotedBy, Bool.and_eq_true, decide_eq_true_eq, beq_iff_eq] at quoted
    obtain ⟨⟨long, first⟩, last⟩ := quoted
    obtain ⟨rest, rfl⟩ := List.head?_eq_some_iff.mp first
    have more : rest ≠ [] := by
      rintro rfl
      simp at long
    rw [List.getLast?_cons_of_ne_nil more] at last
    obtain ⟨inner, rfl⟩ := List.getLast?_eq_some_iff.mp last
    exact ⟨inner, rfl⟩
  · rintro ⟨inner, rfl⟩
    simp [isQuotedBy, List.getLast?_cons]

theorem quoted_iff (cs : List Char) :
    (isQuotedBy '"' cs || isQuotedBy '\'' cs) = true ↔ Quoted cs := by
  simp [isQuotedBy_iff, Quoted, quotes]

instance (cs : List Char) : Decidable (Quoted cs) := decidable_of_iff _ (quoted_iff cs)

theorem unquoted_bare (cs : List Char) (bare : ¬Quoted cs) : unquoted cs = cs := by
  rw [← quoted_iff] at bare
  rw [unquoted, if_neg bare]

theorem unquoted_quoted (quote : Char) (member : quote ∈ quotes) (inner : List Char) :
    unquoted (quote :: (inner ++ [quote])) = inner := by
  have quoted : Quoted (quote :: (inner ++ [quote])) := ⟨quote, member, inner, rfl⟩
  rw [unquoted, if_pos ((quoted_iff _).mpr quoted), List.drop_one, List.tail_cons,
    List.dropLast_concat]

@[simp] theorem keysOf_nil : keysOf [] = [] := by
  rw [keysOf, rawKeys]
  rfl

@[simp] theorem keysOf_dot (rest : List Char) : keysOf ('.' :: rest) = keysOf rest := by
  rw [keysOf, rawKeys]
  simp [keysOf]

theorem keysOf_afterDot (rest : List Char) : keysOf (afterDot rest) = keysOf rest := by
  unfold afterDot
  split
  · exact (keysOf_dot _).symm
  · rfl

def bracketKeys (inner : List Char) : List (List Char) := [unquoted inner].filter (· ≠ [])

theorem keysOf_open (rest : List Char) :
    keysOf ('[' :: rest) = bracketKeys (rest.takeWhile (· ≠ ']')) ++
      keysOf ((rest.dropWhile (· ≠ ']')).drop 1) := by
  have raw : rawKeys ('[' :: rest) = unquoted (rest.takeWhile (· ≠ ']')) ::
      rawKeys (afterDot ((rest.dropWhile (· ≠ ']')).drop 1)) := by
    rw [rawKeys, if_pos rfl]
  rw [← keysOf_afterDot ((rest.dropWhile _).drop 1), bracketKeys, keysOf, raw, keysOf,
    ← List.filter_append]
  rfl

theorem notClosing_of_notMem (inner : List Char) (inside : ']' ∉ inner) :
    ∀ c ∈ inner, decide (c ≠ ']') = true := by
  intro c member
  exact decide_eq_true fun same => inside (same ▸ member)

theorem keysOf_bracketed (inner rest : List Char) (inside : ']' ∉ inner) :
    keysOf ('[' :: (inner ++ ']' :: rest)) = bracketKeys inner ++ keysOf rest := by
  have shut := notClosing_of_notMem inner inside
  rw [keysOf_open, List.takeWhile_append_of_pos shut, List.dropWhile_append_of_pos shut]
  simp

theorem keysOf_unclosed (inner : List Char) (inside : ']' ∉ inner) :
    keysOf ('[' :: inner) = bracketKeys inner := by
  have shut := notClosing_of_notMem inner inside
  rw [keysOf_open, List.takeWhile_eq_self_iff.mpr shut, List.dropWhile_eq_nil_iff.mpr shut]
  simp

theorem endsPlainKey_eq_false (c : Char) (noDot : c ≠ '.') (noBracket : c ≠ '[') :
    endsPlainKey c = false := by
  simp [endsPlainKey, noDot, noBracket]

theorem endsPlainKey_of_mem (key : List Char) (noDot : '.' ∉ key) (noBracket : '[' ∉ key) :
    ∀ c ∈ key, endsPlainKey c = false := by
  intro c member
  exact endsPlainKey_eq_false c (fun same => noDot (same ▸ member))
    (fun same => noBracket (same ▸ member))

theorem keysOf_plain (key rest : List Char) (nonempty : key ≠ [])
    (plain : ∀ c ∈ key, endsPlainKey c = false) (ends : ∀ c ∈ rest.head?, endsPlainKey c = true) :
    keysOf (key ++ rest) = key :: keysOf rest := by
  obtain ⟨c, more, rfl⟩ := List.exists_cons_of_ne_nil nonempty
  obtain ⟨first, others⟩ := List.forall_mem_cons.mp plain
  have bracket : c ≠ '[' := by
    rintro rfl
    cases first
  have dot : c ≠ '.' := by
    rintro rfl
    cases first
  have runs : ∀ d ∈ more, (!endsPlainKey d) = true := by
    intro d member
    rw [others d member]
    rfl
  have nothing : rest.takeWhile (fun d => !endsPlainKey d) = [] := by
    cases rest with
    | nil => rfl
    | cons d rest => exact List.takeWhile_cons_of_neg (by simp [ends d rfl])
  have whole : rest.dropWhile (fun d => !endsPlainKey d) = rest := by
    cases rest with
    | nil => rfl
    | cons d rest => exact List.dropWhile_cons_of_neg (by simp [ends d rfl])
  rw [← keysOf_afterDot rest, keysOf, List.cons_append, rawKeys, if_neg bracket, if_neg dot,
    List.takeWhile_append_of_pos runs, List.dropWhile_append_of_pos runs, nothing, whole,
    List.append_nil]
  exact List.filter_cons_of_pos (by simp)

/-- A key without the signs that paths are built with. -/
def IsPlainKey (key : String) : Prop := key ≠ "" ∧ '.' ∉ key.toList ∧ '[' ∉ key.toList

instance (key : String) : Decidable (IsPlainKey key) :=
  inferInstanceAs (Decidable (key ≠ "" ∧ '.' ∉ key.toList ∧ '[' ∉ key.toList))

theorem keysOf_joined (keys : List String) (plain : ∀ key ∈ keys, IsPlainKey key) :
    keysOf (['.'].intercalate (keys.map String.toList)) = keys.map String.toList := by
  induction keys with
  | nil => exact keysOf_nil
  | cons key rest ih =>
    obtain ⟨first, later⟩ := List.forall_mem_cons.mp plain
    obtain ⟨nonempty, noDot, noBracket⟩ := first
    have chars := endsPlainKey_of_mem key.toList noDot noBracket
    have some : key.toList ≠ [] := fun none => nonempty (String.toList_eq_nil_iff.mp none)
    cases rest with
    | nil =>
      have alone := keysOf_plain key.toList [] some chars (by simp)
      simpa using alone
    | cons next rest =>
      have read := keysOf_plain key.toList
        ('.' :: ['.'].intercalate ((next :: rest).map String.toList)) some chars
        (by simp [endsPlainKey])
      rw [keysOf_dot, ih later] at read
      rw [List.map_cons, List.map_cons, List.intercalate_cons_cons, List.append_assoc]
      exact read

theorem keys_joined (ks : List String) (plain : ∀ key ∈ ks, IsPlainKey key) :
    keys (".".intercalate ks) = ks := by
  have dot : ".".toList = ['.'] := rfl
  rw [keys, String.toList_intercalate, dot, keysOf_joined ks plain, List.map_map]
  exact List.map_id'' (fun _ => String.ofList_toList) ks

theorem keys_plain (key : String) (nonempty : key ≠ "") (noDot : '.' ∉ key.toList)
    (noBracket : '[' ∉ key.toList) : keys key = [key] := by
  have alone := keys_joined [key] (List.forall_mem_singleton.mpr ⟨nonempty, noDot, noBracket⟩)
  rwa [String.intercalate_singleton] at alone

/-- A path taken apart from its front to its end. -/
inductive Reading : List Char → Prop
  | nil : Reading []
  | dot (rest : List Char) (later : Reading rest) : Reading ('.' :: rest)
  | bracketed (inner rest : List Char) (inside : ']' ∉ inner) (later : Reading rest) :
    Reading ('[' :: (inner ++ ']' :: rest))
  | unclosed (inner : List Char) (inside : ']' ∉ inner) : Reading ('[' :: inner)
  | plain (key rest : List Char) (nonempty : key ≠ []) (plain : ∀ c ∈ key, endsPlainKey c = false)
    (ends : ∀ c ∈ rest.head?, endsPlainKey c = true) (later : Reading rest) : Reading (key ++ rest)

theorem reading_of_afterDot (rest : List Char) (later : Reading (afterDot rest)) :
    Reading rest := by
  unfold afterDot at later
  split at later
  · exact .dot _ later
  · exact later

theorem reading_open (rest : List Char)
    (later : Reading ((rest.dropWhile (· ≠ ']')).drop 1)) : Reading ('[' :: rest) := by
  by_cases inside : ']' ∈ rest
  · obtain ⟨inner, behind, rfl, notInside⟩ := List.eq_append_cons_of_mem inside
    rw [List.dropWhile_append_of_pos (notClosing_of_notMem inner notInside)] at later
    exact .bracketed inner behind notInside (by simpa using later)
  · exact .unclosed rest inside

theorem reading_plain (c : Char) (rest : List Char) (plain : endsPlainKey c = false)
    (later : Reading (rest.dropWhile fun d => !endsPlainKey d)) : Reading (c :: rest) := by
  have split : (c :: rest.takeWhile fun d => !endsPlainKey d) ++
      rest.dropWhile (fun d => !endsPlainKey d) = c :: rest := by
    rw [List.cons_append, List.takeWhile_append_dropWhile]
  rw [← split]
  refine .plain _ _ (List.cons_ne_nil _ _) ?_ ?_ later
  · intro d member
    rcases List.mem_cons.mp member with rfl | member
    · exact plain
    · simpa using List.mem_takeWhile_imp member
  · intro d first
    have stopped := List.head?_dropWhile_not (fun d => !endsPlainKey d) rest
    rw [Option.mem_def.mp first] at stopped
    simpa using stopped

theorem reading (cs : List Char) : Reading cs := by
  induction cs using rawKeys.induct with
  | case1 => exact .nil
  | case2 rest ih => exact reading_open rest (reading_of_afterDot _ ih)
  | case3 rest _ ih => exact .dot rest ih
  | case4 c rest bracket dot ih =>
    exact reading_plain c rest (endsPlainKey_eq_false c dot bracket) (reading_of_afterDot _ ih)

end StyleLayers.Path
