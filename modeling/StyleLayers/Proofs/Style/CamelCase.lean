import StyleLayers.Proofs.Css.Identifier
import StyleLayers.Style.Property

/-!
Property names in camel case. Hyphenation gives back the words that such a name was put together
from, and what it has hyphenated once it leaves as it is.
-/

namespace StyleLayers.Property

open Css

def isLower (c : Char) : Bool := 'a' ≤ c && c ≤ 'z'

/-- A lower-case letter, then lower-case letters and digits. -/
structure Word where
  first : Char
  others : List Char
  starts : isLower first = true
  continues : ∀ c ∈ others, isLower c = true ∨ isAsciiDigit c = true

namespace Word

def chars (w : Word) : List Char := w.first :: w.others

def text (w : Word) : String := String.ofList w.chars

def capitalized (w : Word) : List Char := w.first.toUpper :: w.others

/-- The vendor prefix that is written without a capital. -/
def ms : Word := ⟨'m', ['s'], by decide, by decide⟩

end Word

def camelCase (w : Word) (ws : List Word) : String :=
  String.ofList (w.chars ++ ws.flatMap Word.capitalized)

def pascalCase (ws : List Word) : String := String.ofList (ws.flatMap Word.capitalized)

def joined (ws : List Word) : String := "-".intercalate (ws.map Word.text)

theorem isLower_iff (c : Char) : isLower c = true ↔ 97 ≤ c.toNat ∧ c.toNat ≤ 122 := by
  simp only [isLower, Bool.and_eq_true, decide_eq_true_eq, char_le_iff]
  rfl

theorem isUpper_iff (c : Char) : isUpper c = true ↔ 65 ≤ c.toNat ∧ c.toNat ≤ 90 := by
  simp only [isUpper, Bool.and_eq_true, decide_eq_true_eq, char_le_iff]
  rfl

theorem lower_notUpper (c : Char) (lower : isLower c = true) : isUpper c = false := by
  rw [isLower_iff] at lower
  rw [Bool.eq_false_iff, ne_eq, isUpper_iff]
  omega

theorem digit_notUpper (c : Char) (digit : isAsciiDigit c = true) : isUpper c = false := by
  rw [isAsciiDigit_iff] at digit
  rw [Bool.eq_false_iff, ne_eq, isUpper_iff]
  omega

theorem capital_lowered (c : Char) (lower : isLower c = true) :
    isUpper c.toUpper = true ∧ lowered c.toUpper = c := by
  have each : ∀ n < 123, 97 ≤ n → isUpper (Char.ofNat n).toUpper = true ∧
      lowered (Char.ofNat n).toUpper = Char.ofNat n := by decide
  rw [isLower_iff] at lower
  have here := each c.toNat (by omega) lower.1
  rwa [Char.ofNat_toNat] at here

theorem lowered_notUpper (c : Char) (upper : isUpper c = true) : isUpper (lowered c) = false := by
  have each : ∀ n < 91, 65 ≤ n → isUpper (Char.ofNat (n + 32)) = false := by decide
  rw [isUpper_iff] at upper
  exact each c.toNat (by omega) upper.1

theorem hyphenatedChar_kept (c : Char) (kept : isUpper c = false) : hyphenatedChar c = [c] := by
  rw [hyphenatedChar, kept]
  rfl

theorem hyphenatedChars_kept (cs : List Char) (kept : ∀ c ∈ cs, isUpper c = false) :
    cs.flatMap hyphenatedChar = cs := by
  induction cs with
  | nil => rfl
  | cons c cs ih =>
    obtain ⟨first, others⟩ := List.forall_mem_cons.mp kept
    rw [List.flatMap_cons, hyphenatedChar_kept c first, ih others, List.singleton_append]

theorem hyphenatedChars_notUpper (cs : List Char) :
    ∀ c ∈ cs.flatMap hyphenatedChar, isUpper c = false := by
  intro c member
  obtain ⟨d, _, inside⟩ := List.mem_flatMap.mp member
  rw [hyphenatedChar] at inside
  split at inside
  · next upper =>
    rcases List.mem_cons.mp inside with rfl | last
    · decide
    · rw [List.mem_singleton.mp last]
      exact lowered_notUpper d upper
  · next kept =>
    rw [List.mem_singleton.mp inside]
    exact Bool.eq_false_iff.mpr kept

namespace Word

theorem others_notUpper (w : Word) : ∀ c ∈ w.others, isUpper c = false := by
  intro c member
  rcases w.continues c member with lower | digit
  · exact lower_notUpper c lower
  · exact digit_notUpper c digit

theorem chars_notUpper (w : Word) : ∀ c ∈ w.chars, isUpper c = false :=
  List.forall_mem_cons.mpr ⟨lower_notUpper w.first w.starts, w.others_notUpper⟩

theorem notHyphen (w : Word) : '-' ∉ w.chars := by
  have outside : isLower '-' = false ∧ isAsciiDigit '-' = false := by decide
  intro member
  rcases List.mem_cons.mp member with first | later
  · have starts := w.starts
    rw [← first, outside.1] at starts
    cases starts
  · simpa [outside] using w.continues '-' later

theorem hyphenated_capitalized (w : Word) :
    w.capitalized.flatMap hyphenatedChar = '-' :: w.chars := by
  obtain ⟨upper, back⟩ := capital_lowered w.first w.starts
  rw [capitalized, List.flatMap_cons, hyphenatedChars_kept w.others w.others_notUpper,
    hyphenatedChar, if_pos upper, back]
  rfl

end Word

def behindHyphens (ws : List Word) : List Char := ws.flatMap fun w => '-' :: w.chars

theorem hyphenated_capitals (ws : List Word) :
    (ws.flatMap Word.capitalized).flatMap hyphenatedChar = behindHyphens ws := by
  rw [List.flatMap_assoc, behindHyphens]
  exact List.flatMap_congr fun w _ => w.hyphenated_capitalized

theorem joined_toList (w : Word) (ws : List Word) :
    (joined (w :: ws)).toList = w.chars ++ behindHyphens ws := by
  rw [joined, String.toList_intercalate, List.map_map]
  induction ws generalizing w with
  | nil => simp [behindHyphens, Word.text]
  | cons v vs ih =>
    rw [List.map_cons, List.map_cons, List.intercalate_cons_cons, ← List.map_cons, ih v]
    simp [behindHyphens, Word.text]

theorem vendorMarked_other (cs : List Char) (other : ∀ rest, cs ≠ 'm' :: 's' :: '-' :: rest) :
    vendorMarked cs = cs := by
  unfold vendorMarked
  split
  · next rest => exact absurd rfl (other rest)
  · rfl

theorem vendorMarked_notUpper (cs : List Char) (kept : ∀ c ∈ cs, isUpper c = false) :
    ∀ c ∈ vendorMarked cs, isUpper c = false := by
  unfold vendorMarked
  split
  · exact List.forall_mem_cons.mpr ⟨by decide, kept⟩
  · exact kept

theorem vendorMarked_vendorMarked (cs : List Char) :
    vendorMarked (vendorMarked cs) = vendorMarked cs := by
  by_cases marked : ∃ rest, cs = 'm' :: 's' :: '-' :: rest
  · obtain ⟨rest, rfl⟩ := marked
    rfl
  · rw [vendorMarked_other cs fun rest shape => marked ⟨rest, shape⟩]
    exact vendorMarked_other cs fun rest shape => marked ⟨rest, shape⟩

theorem behindHyphens_head (ws : List Word) :
    (behindHyphens ws).takeWhile (· ≠ '-') = [] := by
  cases ws with
  | nil => rfl
  | cons w ws => rfl

theorem vendorMarked_words (w : Word) (ws : List Word) (lone : w.chars = Word.ms.chars → ws = []) :
    vendorMarked (w.chars ++ behindHyphens ws) = w.chars ++ behindHyphens ws := by
  apply vendorMarked_other
  intro rest shape
  -- What stands before the first hyphen is the first word on one side, and `ms` on the other.
  have free : ∀ c ∈ w.chars, decide (c ≠ '-') = true := by
    intro c member
    exact decide_eq_true fun same => w.notHyphen (same ▸ member)
  have first : w.chars = Word.ms.chars := by
    have before := congrArg (List.takeWhile (· ≠ '-')) shape
    rw [List.takeWhile_append_of_pos free, behindHyphens_head, List.append_nil] at before
    rw [before]
    rfl
  rw [lone first, first] at shape
  cases shape

theorem hyphenatedOf_other (cs : List Char) (other : ∀ rest, cs ≠ '-' :: '-' :: rest) :
    hyphenatedOf cs = vendorMarked (cs.flatMap hyphenatedChar) := by
  unfold hyphenatedOf
  split
  · next rest => exact absurd rfl (other rest)
  · rfl

theorem hyphenatedOf_kept (cs : List Char) (kept : ∀ c ∈ cs, isUpper c = false)
    (marked : vendorMarked cs = cs) : hyphenatedOf cs = cs := by
  unfold hyphenatedOf
  split
  · rfl
  · rw [hyphenatedChars_kept cs kept, marked]

/-- A capital in front can give a name that starts with two hyphens; it has no capitals left, so it
makes no difference that it is now read as a custom property. -/
theorem hyphenatedOf_hyphenatedOf (cs : List Char) :
    hyphenatedOf (hyphenatedOf cs) = hyphenatedOf cs := by
  by_cases custom : ∃ rest, cs = '-' :: '-' :: rest
  · obtain ⟨rest, rfl⟩ := custom
    rfl
  · rw [hyphenatedOf_other cs fun rest shape => custom ⟨rest, shape⟩]
    apply hyphenatedOf_kept
    · exact vendorMarked_notUpper _ (hyphenatedChars_notUpper cs)
    · exact vendorMarked_vendorMarked _

theorem word_notCustom (w : Word) (rest : List Char) :
    ∀ others, w.chars ++ rest ≠ '-' :: others := by
  rintro others shape
  have first : w.first = '-' := (List.cons.inj shape).1
  exact w.notHyphen (first ▸ List.mem_cons_self)

theorem hyphenatedOf_camelCase (w : Word) (ws : List Word) :
    hyphenatedOf (camelCase w ws).toList = vendorMarked (w.chars ++ behindHyphens ws) := by
  rw [camelCase, String.toList_ofList, hyphenatedOf_other _ fun rest => word_notCustom w _ _,
    List.flatMap_append, hyphenatedChars_kept _ w.chars_notUpper, hyphenated_capitals]

theorem hyphenatedOf_pascalCase (w : Word) (ws : List Word) :
    hyphenatedOf (pascalCase (w :: ws)).toList = '-' :: (w.chars ++ behindHyphens ws) := by
  have capital : w.first.toUpper ≠ '-' := by
    intro same
    have upper := (capital_lowered w.first w.starts).1
    rw [same] at upper
    cases upper
  rw [pascalCase, String.toList_ofList, hyphenatedOf_other, hyphenated_capitals]
  · rfl
  · exact fun rest shape => capital (List.cons.inj shape).1

/-- Hyphenation gives back the words of a name in camel case. With a capital in front, or the
vendor prefix, a hyphen stands in front of them as well. What is hyphenated stays as it is. -/
theorem hyphenated_camelCase :
    (∀ (w : Word) (ws : List Word), (w.text = "ms" → ws = []) →
        hyphenated (camelCase w ws) = joined (w :: ws)) ∧
      (∀ (w : Word) (ws : List Word),
        hyphenated (pascalCase (w :: ws)) = "-" ++ joined (w :: ws)) ∧
      (∀ (w : Word) (ws : List Word),
        hyphenated (camelCase Word.ms (w :: ws)) = "-ms-" ++ joined (w :: ws)) ∧
      ∀ property : String, hyphenated (hyphenated property) = hyphenated property := by
  refine ⟨fun w ws lone => ?_, fun w ws => ?_, fun w ws => ?_, fun property => ?_⟩
  · have first : w.chars = Word.ms.chars → ws = [] := by
      intro same
      exact lone (congrArg String.ofList same)
    rw [hyphenated, hyphenatedOf_camelCase, vendorMarked_words w ws first, ← joined_toList,
      String.ofList_toList]
  · rw [hyphenated, hyphenatedOf_pascalCase, ← joined_toList, String.ofList_cons,
      String.ofList_toList]
    rfl
  · have marked : vendorMarked (Word.ms.chars ++ behindHyphens (w :: ws)) =
        "-ms-".toList ++ (w.chars ++ behindHyphens ws) := rfl
    rw [hyphenated, hyphenatedOf_camelCase, marked, ← joined_toList, String.ofList_append,
      String.ofList_toList, String.ofList_toList]
  · rw [hyphenated, hyphenated, String.toList_ofList, hyphenatedOf_hyphenatedOf]

theorem hyphenated_camelCase_digits :
    let w : Word := ⟨'m', ['s', 'x', '2'], by decide, by decide⟩
    let ws : List Word := [⟨'a', ['1'], by decide, by decide⟩, Word.ms]
    (w.text = "ms" → ws = []) ∧ hyphenated "msx2A1Ms" = "msx2-a1-ms" := by
  intro w ws
  have other : w.text = "ms" → ws = [] := by
    intro same
    exact absurd same (by decide)
  have camel : camelCase w ws = "msx2A1Ms" := by decide
  have words : joined (w :: ws) = "msx2-a1-ms" := by decide +kernel
  have taken := hyphenated_camelCase.1 w ws other
  rw [camel, words] at taken
  exact ⟨other, taken⟩

end StyleLayers.Property
