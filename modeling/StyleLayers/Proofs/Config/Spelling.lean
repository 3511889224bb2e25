import StyleLayers.Proofs.Config.Descending
import StyleLayers.Proofs.Config.PathReading

/-!
The ways of writing a path. Each key is plain, in brackets, or in quotes in brackets, with or
without a dot in front; whichever way is chosen, the path is read as these keys.
-/

namespace StyleLayers

namespace Path

inductive Form where
  | plain
  | bracketed
  | quoted (quote : Char)
  deriving DecidableEq, Repr

namespace Form

def text (key : List Char) : Form → List Char
  | plain => key
  | bracketed => '[' :: (key ++ [']'])
  | quoted quote => '[' :: (quote :: (key ++ [quote]) ++ [']'])

def Admits (key : List Char) : Form → Prop
  | plain => '.' ∉ key ∧ '[' ∉ key
  | bracketed => ']' ∉ key ∧ ¬Quoted key
  | quoted quote => quote ∈ quotes ∧ ']' ∉ key

instance (key : List Char) : (form : Form) → Decidable (form.Admits key)
  | plain => inferInstanceAs (Decidable ('.' ∉ key ∧ '[' ∉ key))
  | bracketed => inferInstanceAs (Decidable (']' ∉ key ∧ ¬Quoted key))
  | quoted quote => inferInstanceAs (Decidable (quote ∈ quotes ∧ ']' ∉ key))

end Form

structure Segment where
  /-- A dot stands in front. -/
  dotted : Bool
  form : Form
  key : String
  deriving DecidableEq, Repr

namespace Segment

def text (s : Segment) : List Char :=
  (if s.dotted then ['.'] else []) ++ s.form.text s.key.toList

/-- The first key has no dot in front. Behind a plain key a plain key needs one, and anywhere else
it can be left out. -/
def Follows (before : Option Form) (s : Segment) : Prop :=
  match before with
  | none => s.dotted = false
  | some .plain => s.form = .plain → s.dotted = true
  | some _ => True

instance (s : Segment) : (before : Option Form) → Decidable (s.Follows before)
  | none => inferInstanceAs (Decidable (s.dotted = false))
  | some .plain => inferInstanceAs (Decidable (s.form = .plain → s.dotted = true))
  | some .bracketed => .isTrue trivial
  | some (.quoted _) => .isTrue trivial

end Segment

/-- The segments make a path, with a key in the form `before` in front of them if there is any. -/
def Written (before : Option Form) : List Segment → Prop
  | [] => True
  | s :: rest => (s.key ≠ "" ∧ s.form.Admits s.key.toList ∧ s.Follows before) ∧
    Written (some s.form) rest

def decideWritten : (before : Option Form) → (segments : List Segment) →
    Decidable (Written before segments)
  | _, [] => .isTrue trivial
  | before, s :: rest =>
    have := decideWritten (some s.form) rest
    inferInstanceAs (Decidable ((s.key ≠ "" ∧ s.form.Admits s.key.toList ∧ s.Follows before) ∧
      Written (some s.form) rest))

instance (before : Option Form) (segments : List Segment) : Decidable (Written before segments) :=
  decideWritten before segments

def textOf (segments : List Segment) : List Char := segments.flatMap Segment.text

def ofSegments (segments : List Segment) : String := String.ofList (textOf segments)

theorem written_ends (segments : List Segment) (follows : Written (some .plain) segments) :
    ∀ c ∈ (textOf segments).head?, endsPlainKey c = true := by
  cases segments with
  | nil => simp [textOf]
  | cons s rest =>
    obtain ⟨dotted, form, key⟩ := s
    obtain ⟨⟨_, _, place⟩, _⟩ := follows
    cases dotted with
    | true => simp [textOf, Segment.text, endsPlainKey]
    | false =>
      cases form with
      | plain => cases place rfl
      | bracketed => simp [textOf, Segment.text, Form.text, endsPlainKey]
      | quoted quote => simp [textOf, Segment.text, Form.text, endsPlainKey]

theorem bracketKeys_bare (key : List Char) (nonempty : key ≠ []) (bare : ¬Quoted key) :
    bracketKeys key = [key] := by
  rw [bracketKeys, unquoted_bare key bare]
  exact List.filter_cons_of_pos (by simpa using nonempty)

theorem bracketKeys_quoted (quote : Char) (member : quote ∈ quotes) (key : List Char)
    (nonempty : key ≠ []) : bracketKeys (quote :: (key ++ [quote])) = [key] := by
  rw [bracketKeys, unquoted_quoted quote member key]
  exact List.filter_cons_of_pos (by simpa using nonempty)

theorem keysOf_form (form : Form) (key rest : List Char) (nonempty : key ≠ [])
    (admits : form.Admits key)
    (ends : form = .plain → ∀ c ∈ rest.head?, endsPlainKey c = true) :
    keysOf (form.text key ++ rest) = key :: keysOf rest := by
  cases form with
  | plain =>
    obtain ⟨noDot, noBracket⟩ := admits
    exact keysOf_plain key rest nonempty (endsPlainKey_of_mem key noDot noBracket) (ends rfl)
  | bracketed =>
    obtain ⟨inside, bare⟩ := admits
    have read := keysOf_bracketed key rest inside
    rw [bracketKeys_bare key nonempty bare] at read
    simpa [Form.text] using read
  | quoted quote =>
    obtain ⟨member, inside⟩ := admits
    have noBracket : ']' ∉ quote :: (key ++ [quote]) := by
      have other : ']' ≠ quote := by
        rintro rfl
        exact absurd member (by decide)
      simp [inside, other]
    have read := keysOf_bracketed _ rest noBracket
    rw [bracketKeys_quoted quote member key nonempty] at read
    simpa [Form.text] using read

theorem keysOf_textOf (before : Option Form) (segments : List Segment)
    (written : Written before segments) :
    keysOf (textOf segments) = segments.map fun s => s.key.toList := by
  induction segments generalizing before with
  | nil => exact keysOf_nil
  | cons s rest ih =>
    obtain ⟨⟨nonempty, admits, _⟩, later⟩ := written
    have chars : s.key.toList ≠ [] := fun none => nonempty (String.toList_eq_nil_iff.mp none)
    have ends : s.form = .plain → ∀ c ∈ (textOf rest).head?, endsPlainKey c = true := by
      intro plain
      rw [plain] at later
      exact written_ends rest later
    have read := keysOf_form s.form s.key.toList (textOf rest) chars admits ends
    rw [List.map_cons, ← ih _ later, ← read, textOf, List.flatMap_cons, Segment.text]
    cases s.dotted with
    | true => exact keysOf_dot _
    | false => rfl

/-- However a path is written, it is read as its keys, and leads where following them leads. -/
theorem keys_ofSegments (segments : List Segment) (written : Written none segments) :
    keys (ofSegments segments) = segments.map Segment.key ∧
      ∀ root v : Value, root.at? (ofSegments segments) = some v ↔
        root.Reaches (segments.map Segment.key) v := by
  have read : keys (ofSegments segments) = segments.map Segment.key := by
    rw [keys, ofSegments, String.toList_ofList, keysOf_textOf none segments written, List.map_map]
    exact List.map_congr_left fun s _ => String.ofList_toList
  refine ⟨read, ?_⟩
  intro root v
  rw [Value.at?, read]
  exact Value.descend?_eq_some_iff root v _

theorem keys_ofSegments_mixed :
    let segments : List Segment := [⟨false, .plain, "a"⟩, ⟨false, .quoted '\'', "b.c"⟩,
      ⟨false, .plain, "d]"⟩, ⟨true, .bracketed, "\"e"⟩, ⟨false, .bracketed, "+1"⟩]
    let inner : Value := .object [("\"e", .array [.null, .bool true])]
    let root : Value := .object [("a", .object [("b.c", .object [("d]", inner)])])]
    Written none segments ∧ ofSegments segments = "a['b.c']d].[\"e][+1]" ∧
      keys "a['b.c']d].[\"e][+1]" = ["a", "b.c", "d]", "\"e", "+1"] ∧
      root.at? "a['b.c']d].[\"e][+1]" = some (.bool true) := by
  intro segments inner root
  have written : Written none segments := by decide
  have text : ofSegments segments = "a['b.c']d].[\"e][+1]" := by decide
  obtain ⟨read, leads⟩ := keys_ofSegments segments written
  rw [text] at read leads
  refine ⟨written, text, read, (leads root (.bool true)).mpr ?_⟩
  exact (Value.descend?_eq_some_iff root _ _).mp rfl

end Path

end StyleLayers
