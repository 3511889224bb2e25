import StyleLayers.Config.Basic
import StyleLayers.Proofs.Config.Descending
import StyleLayers.Proofs.Config.PathReading

/-!
Paths joined by a dot. Behind a path that closes its brackets the reader is where it starts, so the
keys of what follows are added to those in front, and a look-up goes on from what was found.
-/

namespace StyleLayers

namespace Path

/-- Whether a text ends within brackets, when it starts within them or not. -/
def endsInBracket (inside : Bool) : List Char → Bool
  | [] => inside
  | c :: rest => endsInBracket (if inside then c ≠ ']' else c = '[') rest

/-- No bracketed part of the path is left unclosed. -/
def Closed (path : String) : Prop := endsInBracket false path.toList = false

instance (path : String) : Decidable (Closed path) :=
  inferInstanceAs (Decidable (endsInBracket false path.toList = false))

theorem endsInBracket_inside (inner rest : List Char) (inside : ']' ∉ inner) :
    endsInBracket true (inner ++ rest) = endsInBracket true rest := by
  induction inner with
  | nil => rfl
  | cons c inner ih =>
    have other : c ≠ ']' := by
      rintro rfl
      exact inside List.mem_cons_self
    simp only [List.cons_append, endsInBracket, if_true, decide_eq_true other]
    exact ih fun member => inside (List.mem_cons_of_mem c member)

theorem endsInBracket_unclosed (inner : List Char) (inside : ']' ∉ inner) :
    endsInBracket false ('[' :: inner) = true := by
  have kept := endsInBracket_inside inner [] inside
  rw [List.append_nil] at kept
  exact kept

theorem endsInBracket_bracketed (inner rest : List Char) (inside : ']' ∉ inner) :
    endsInBracket false ('[' :: (inner ++ ']' :: rest)) = endsInBracket false rest :=
  endsInBracket_inside inner (']' :: rest) inside

theorem endsInBracket_plain (key rest : List Char) (plain : ∀ c ∈ key, endsPlainKey c = false) :
    endsInBracket false (key ++ rest) = endsInBracket false rest := by
  induction key with
  | nil => rfl
  | cons c key ih =>
    obtain ⟨first, later⟩ := List.forall_mem_cons.mp plain
    have other : c ≠ '[' := by
      rintro rfl
      cases first
    simp only [List.cons_append, endsInBracket, other]
    exact ih later

theorem keysOf_append_dot (cs rest : List Char) (closed : endsInBracket false cs = false) :
    keysOf (cs ++ '.' :: rest) = keysOf cs ++ keysOf rest := by
  induction reading cs with
  | nil => simp
  | dot later _ ih => simpa using ih closed
  | bracketed inner later inside _ ih =>
    rw [endsInBracket_bracketed inner later inside] at closed
    have read := keysOf_bracketed inner (later ++ '.' :: rest) inside
    rw [keysOf_bracketed inner later inside, List.append_assoc, ← ih closed, ← read]
    simp
  | unclosed inner inside =>
    rw [endsInBracket_unclosed inner inside] at closed
    cases closed
  | plain key later nonempty plain ends _ ih =>
    rw [endsInBracket_plain key later plain] at closed
    have endsToo : ∀ c ∈ (later ++ '.' :: rest).head?, endsPlainKey c = true := by
      cases later with
      | nil => simp [endsPlainKey]
      | cons d later => exact ends
    rw [List.append_assoc, keysOf_plain key _ nonempty plain endsToo,
      keysOf_plain key later nonempty plain ends, ih closed, List.cons_append]

theorem keysOf_append_inside (cs : List Char) (unclosed : endsInBracket false cs = true) :
    ∃ front inner, ∀ more, ']' ∉ more →
      keysOf (cs ++ more) = front ++ bracketKeys (inner ++ more) := by
  induction reading cs with
  | nil => cases unclosed
  | dot later _ ih => simpa using ih unclosed
  | bracketed inner later inside _ ih =>
    rw [endsInBracket_bracketed inner later inside] at unclosed
    obtain ⟨front, last, read⟩ := ih unclosed
    refine ⟨bracketKeys inner ++ front, last, ?_⟩
    intro more outside
    have first := keysOf_bracketed inner (later ++ more) inside
    rw [read more outside, ← List.append_assoc] at first
    simpa using first
  | unclosed inner inside =>
    refine ⟨[], inner, ?_⟩
    intro more outside
    exact keysOf_unclosed (inner ++ more) (by simp [inside, outside])
  | plain key later nonempty plain ends _ ih =>
    rw [endsInBracket_plain key later plain] at unclosed
    obtain ⟨front, last, read⟩ := ih unclosed
    refine ⟨key :: front, last, ?_⟩
    intro more outside
    have endsToo : ∀ c ∈ (later ++ more).head?, endsPlainKey c = true := by
      cases later with
      | nil => cases unclosed
      | cons d later => exact ends
    rw [List.append_assoc, keysOf_plain key _ nonempty plain endsToo, read more outside,
      List.cons_append]

theorem unquoted_length_le (cs : List Char) : (unquoted cs).length ≤ cs.length := by
  unfold unquoted
  split
  · simp only [List.length_dropLast, List.length_drop]
    omega
  · exact Nat.le_refl _

theorem bracketKeys_dot (inner : List Char) :
    bracketKeys (inner ++ ['.']) ≠ bracketKeys inner := by
  have bare : ¬Quoted (inner ++ ['.']) := by
    rintro ⟨quote, member, text, shape⟩
    have last := congrArg List.getLast? shape
    rw [List.getLast?_concat, ← List.cons_append, List.getLast?_concat] at last
    cases last
    exact absurd member (by decide)
  intro same
  have key : inner ++ ['.'] ∈ bracketKeys inner := by
    rw [← same, bracketKeys, unquoted_bare _ bare]
    simp
  have read : inner ++ ['.'] = unquoted inner :=
    List.mem_singleton.mp (List.mem_filter.mp key).1
  have short := unquoted_length_le inner
  rw [← read, List.length_append] at short
  exact absurd short (Nat.not_succ_le_self _)

theorem keys_append_dot_iff (p q : String) :
    keys (p ++ "." ++ q) = keys p ++ keys q ↔
      keysOf (p.toList ++ '.' :: q.toList) = keysOf p.toList ++ keysOf q.toList := by
  have chars : (p ++ "." ++ q).toList = p.toList ++ '.' :: q.toList := by
    rw [String.toList_append, String.toList_append, List.append_assoc]
    rfl
  rw [keys, keys, keys, ← List.map_append, chars]
  exact List.map_inj_right fun _ _ => String.ofList_injective

/-- The keys of two paths are those of the paths joined by a dot if the first closes its brackets,
and only then. -/
theorem closed_iff (p : String) :
    Closed p ↔ ∀ q : String, keys (p ++ "." ++ q) = keys p ++ keys q := by
  constructor
  · intro closed q
    exact (keys_append_dot_iff p q).mpr (keysOf_append_dot p.toList q.toList closed)
  · intro joins
    apply Bool.eq_false_iff.mpr
    intro unclosed
    obtain ⟨front, inner, read⟩ := keysOf_append_inside p.toList unclosed
    have alone := read [] (by simp)
    have longer := read ['.'] (by decide)
    have same := (keys_append_dot_iff p "").mp (joins "")
    rw [List.append_nil, List.append_nil] at alone
    rw [String.toList_empty, longer, alone, keysOf_nil, List.append_nil] at same
    exact bracketKeys_dot inner (List.append_cancel_left same)

end Path

namespace Value

theorem at?_append_dot (root : Value) (p q : String) (closed : Path.Closed p) :
    root.at? (p ++ "." ++ q) = (root.at? p).bind (Value.at? · q) := by
  rw [at?, (Path.closed_iff p).mp closed q, descend?_append]
  rfl

theorem child?_of_no_position (v : Value) (key : String) (none : Path.position? key = none) :
    v.child? key = v.entry? key := by
  cases v with
  | array items =>
    rw [child?, none]
    rfl
  | _ => rfl

end Value

namespace Config

theorem theme?_eq_get? (c : Config) (path : String) :
    c.theme? path = (c.get? ("theme." ++ path)).map (Theme.normalizeAt (Path.keys path)) := by
  have theme : c.root.at? "theme" = c.root.entry? "theme" := by
    rw [Value.at?, Path.keys_plain "theme" (by decide) (by decide) (by decide), Value.descend?,
      Value.child?_of_no_position c.root "theme" (by decide)]
    exact Option.bind_fun_some _
  have split : "theme." ++ path = "theme" ++ "." ++ path := rfl
  rw [get?, split, Value.at?_append_dot c.root "theme" path (by decide), theme]
  rfl

/-- Paths are read piece by piece at the dots between them if the pieces close their brackets, and
look-ups go on from piece to piece. So what is read from the theme is what is read at the same path
below `theme`, normalized by the section that the path starts with. -/
theorem lookups_along_dots :
    (∀ p : String, Path.Closed p ↔
        ∀ q : String, Path.keys (p ++ "." ++ q) = Path.keys p ++ Path.keys q) ∧
      (∀ p q : String, Path.Closed p → ∀ root : Value,
        root.at? (p ++ "." ++ q) = (root.at? p).bind (Value.at? · q)) ∧
      ∀ (c : Config) (path : String),
        (Path.keys path = [] → c.theme? path = c.get? ("theme." ++ path)) ∧
          ∀ sectionName rest, Path.keys path = sectionName :: rest →
            c.theme? path = (c.get? ("theme." ++ path)).map (Theme.normalize sectionName) := by
  refine ⟨Path.closed_iff, fun p q closed root => root.at?_append_dot p q closed, ?_⟩
  intro c path
  constructor
  · intro none
    rw [theme?_eq_get?, none]
    exact Option.map_id'
  · intro sectionName rest some
    rw [theme?_eq_get?, some]
    rfl

theorem lookups_along_dots_stray :
    let sizes : Value := .object [("sm", .array [.string "14px", .string "20px"])]
    let theme : Value := .object [("fontSize", sizes)]
    let c : Config := ⟨.object [("theme", theme)]⟩
    let root : Value := .object [("a", .object [("b.c", theme)])]
    Path.Closed ".a[b.c]." ∧ Path.keys ".a[b.c]..fontSize[sm" = ["a", "b.c", "fontSize", "sm"] ∧
      root.at? ".a[b.c]..fontSize" = some sizes ∧
      Path.keys "." = [] ∧ c.theme? "." = c.get? "theme.." ∧
      Path.keys "fontSize.sm" = ["fontSize", "sm"] ∧
      c.theme? "fontSize.sm" = some (.string "14px") := by
  intro sizes theme c root
  obtain ⟨joins, leads, reads⟩ := lookups_along_dots
  have closed : Path.Closed ".a[b.c]." := by decide
  have front : Path.keys ".a[b.c]." = ["a", "b.c"] := by decide +kernel
  have behind : Path.keys "fontSize[sm" = ["fontSize", "sm"] := by decide +kernel
  have nothing : Path.keys "." = [] := by decide +kernel
  have size : Path.keys "fontSize.sm" = ["fontSize", "sm"] := by decide +kernel
  have single : Path.keys "fontSize" = ["fontSize"] := by decide +kernel
  have below : Path.keys ("theme." ++ "fontSize.sm") = ["theme", "fontSize", "sm"] := by
    decide +kernel
  refine ⟨closed, ?_, ?_, nothing, (reads c ".").1 nothing, size, ?_⟩
  · have read := (joins ".a[b.c].").mp closed "fontSize[sm"
    rwa [front, behind] at read
  · have inner : root.at? ".a[b.c]." = some theme := by
      rw [Value.at?, front]
      rfl
    have found := leads ".a[b.c]." "fontSize" closed root
    rw [inner, Option.bind_some, Value.at?.eq_def theme, single] at found
    exact found
  · have found : c.get? ("theme." ++ "fontSize.sm") =
        some (.array [.string "14px", .string "20px"]) := by
      rw [get?, Value.at?, below]
      rfl
    rw [(reads c "fontSize.sm").2 _ _ size, found]
    rfl

end Config

end StyleLayers
