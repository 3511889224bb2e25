import StyleLayers.Proofs.Css.Trailing
import StyleLayers.Proofs.Selector.Scanning
import StyleLayers.Style.Compile

/-!
A class with an escaped name as a key of a style mapping: which names are still the same in the
selector of the compiled rule.
-/

namespace StyleLayers

namespace Css

theorem ampersand_codeEscape (c : Char) (ascii : c.toNat < 128) : '&' ∉ codeEscape c := by
  intro member
  simp only [codeEscape, List.cons_append, List.mem_cons, List.mem_append, List.not_mem_nil,
    or_false] at member
  rcases member with backslash | digit | space
  · exact absurd backslash (by decide)
  · exact absurd ((code_digits c.toNat ascii).2.1 _ digit) (by decide)
  · exact absurd space (by decide)

theorem ampersand_escapedChar (c : Char) (member : '&' ∈ escapedChar c) : c = '&' := by
  unfold escapedChar at member
  split at member
  · exact (List.mem_singleton.mp member).symm
  · next special =>
    have ascii : c.toNat < 128 := by
      by_contra outside
      exact special (by simp [isAscii, outside])
    split at member
    · exact absurd member (by decide)
    · split at member
      · exact absurd member (ampersand_codeEscape c ascii)
      · simp only [List.mem_cons, List.not_mem_nil, or_false] at member
        rcases member with backslash | same
        · exact absurd backslash (by decide)
        · exact same.symm

theorem ampersand_escapedChars (cs : List Char) (member : '&' ∈ cs.flatMap escapedChar) :
    '&' ∈ cs := by
  obtain ⟨c, inside, written⟩ := List.mem_flatMap.mp member
  rwa [← ampersand_escapedChar c written]

theorem ampersand_escapedStart (cs : List Char) (member : '&' ∈ escapedStart cs) : '&' ∈ cs := by
  cases cs with
  | nil => exact member
  | cons c cs =>
      by_cases digit : isAsciiDigit c
      · have ascii : c.toNat < 128 := by
          rw [isAsciiDigit_iff] at digit
          omega
        rw [escapedStart, if_pos digit, List.mem_append] at member
        rcases member with code | later
        · exact absurd code (ampersand_codeEscape c ascii)
        · exact List.mem_cons_of_mem c (ampersand_escapedChars cs later)
      · rw [escapedStart, if_neg digit] at member
        exact ampersand_escapedChars (c :: cs) member

theorem ampersand_escaped (cs : List Char) (member : '&' ∈ escaped cs) : '&' ∈ cs := by
  unfold escaped at member
  split at member
  · next tail =>
    have later : '&' ∈ tail.flatMap escapedChar := by simpa using member
    simp [ampersand_escapedChars tail later]
  · exact absurd member (by decide)
  · next tail _ _ =>
    have later : '&' ∈ escapedStart tail := by simpa using member
    simp [ampersand_escapedStart tail later]
  · exact ampersand_escapedStart cs member

end Css

namespace Selector

open Css

theorem partsOf_class (cs : List Char) (nonempty : cs ≠ []) :
    partsOf ('.' :: escaped cs) = ['.' :: Text.trimEnd (escaped cs)] := by
  have scanned : scan ('.' :: escaped cs) = [⟨.classPoint, ['.']⟩, ⟨.plain, escaped cs⟩] := by
    have point := lexemes_point (escaped cs) (by
      have starts := escaped_startsIdent cs [] nonempty
      rwa [List.append_nil] at starts)
    have name := lexemes_escaped cs [] nonempty stopsName_nil (by simp) (by simp)
    rw [List.append_nil, lexemes_nil] at name
    rw [scan, point, name]
    rfl
  simp [partsOf, scanned, textsBetweenCommas, trim_visible_cons '.' (escaped cs) (by decide)]

theorem nestedOf_single (inner part : List Char) (only : partsOf inner = [part])
    (noPlaceholder : '&' ∉ part) : nestedOf [] inner = part := by
  have none : partsOf [] = [] := by
    rw [partsOf, scan_nil]
    rfl
  simp [nestedOf, only, outerParts, none, nestedPart, noPlaceholder, listText]

theorem placeholder_class (cs : List Char) (noPlaceholder : '&' ∉ cs) :
    '&' ∉ '.' :: Text.trimEnd (escaped cs) := by
  intro member
  rcases List.mem_cons.mp member with point | inside
  · exact absurd point (by decide)
  · exact noPlaceholder (ampersand_escaped _ (mem_trimEnd _ _ inside))

theorem nestedOf_class (cs : List Char) (nonempty : cs ≠ []) (noPlaceholder : '&' ∉ cs) :
    nestedOf [] ('.' :: escaped cs) = '.' :: Text.trimEnd (escaped cs) :=
  nestedOf_single _ _ (partsOf_class cs nonempty) (placeholder_class cs noPlaceholder)

theorem lexemes_class (cs : List Char) (nonempty : cs ≠ [])
    (keepsEnd : ∀ c ∈ cs.getLast?, KeepsEnd c) :
    lexemes ('.' :: Text.trimEnd (escaped cs)) =
      [⟨.delim '.', ['.']⟩,
        ⟨.ident (String.ofList (cs.map nulReplaced)), Text.trimEnd (escaped cs)⟩] := by
  have last := keepsEnd _ (List.getLast?_eq_some_getLast nonempty)
  obtain ⟨starts, read⟩ := trimEnd_escaped cs.dropLast _ last
  rw [List.dropLast_append_getLast nonempty] at starts read
  have written : Text.trimEnd (escaped cs) ≠ [] := by
    intro none
    rw [none] at starts
    exact absurd starts (by decide)
  have ident := lexemes_name (Text.trimEnd (escaped cs)) _ [] written
    (by rwa [List.append_nil]) (by rw [List.append_nil, read]) (by simp)
    (name_notClosing _ _ [] (by rw [List.append_nil, read]) (by simp))
  rw [List.append_nil, lexemes_nil] at ident
  rw [lexemes_point _ starts, ident]

end Selector

namespace Styles

open Css

def classRule (name property value : String) : Styles :=
  .mapping [("." ++ escape name, .object [(property, .string value)])]

/-- Compiled on its own, the class is one rule, and its selector is read as the class again. -/
def ClassSurvives (name property value : String) : Prop :=
  ∃ selector, compile "" (classRule name property value) =
      [⟨selector, [⟨Property.hyphenated property, value⟩], []⟩] ∧
    tokens selector = [.delim '.', .ident name]

theorem compileEntry_class (name property value : String) (declares : isAtKey property = false) :
    compileEntry "" ("." ++ escape name) (.object [(property, .string value)]) =
      ⟨[], [⟨Selector.nested "" ("." ++ escape name), [⟨Property.hyphenated property, value⟩],
        []⟩]⟩ := by
  have selector : isAtKey ("." ++ escape name) = false := by
    simp [isAtKey, AtRule.isPrelude, AtRule.body?]
  have body : compileScalar property (.string value) =
      ⟨[⟨Property.hyphenated property, value⟩], []⟩ := by
    simp [compileScalar, declares, Value.css]
  simp [compileEntries, compileEntry, selector, body, Block.rulesUnder, Block.empty]

theorem compile_classRule (name property value : String) (declares : isAtKey property = false) :
    compile "" (classRule name property value) =
      [⟨Selector.nested "" ("." ++ escape name), [⟨Property.hyphenated property, value⟩], []⟩] := by
  simp [classRule, compile, compileMapping, compileEntries, Block.empty,
    compileEntry_class name property value declares]

/-- An escaped class name without a placeholder survives compilation. Names that end in white space
which is not escaped by code are left aside. -/
theorem escaped_class_survives (name property value : String) (nonempty : name ≠ "")
    (noNul : '\x00' ∉ name.toList) (noPlaceholder : '&' ∉ name.toList)
    (keepsEnd : ∀ c ∈ name.toList.getLast?, KeepsEnd c) (declares : isAtKey property = false) :
    ClassSurvives name property value := by
  have chars : name.toList ≠ [] := by
    intro none
    exact nonempty (String.toList_eq_nil_iff.mp none)
  have selector : Selector.nested "" ("." ++ escape name) =
      String.ofList ('.' :: Text.trimEnd (escaped name.toList)) := by
    simp [Selector.nested, escape, Selector.nestedOf_class name.toList chars noPlaceholder]
  refine ⟨_, compile_classRule name property value declares, ?_⟩
  rw [selector, tokens, String.toList_ofList, Selector.lexemes_class name.toList chars keepsEnd,
    map_nulReplaced _ noNul, String.ofList_toList]
  rfl

theorem escaped_class_survives_at_control :
    "1,b\t" ≠ "" ∧ '\x00' ∉ "1,b\t".toList ∧ '&' ∉ "1,b\t".toList ∧
      (∀ c ∈ "1,b\t".toList.getLast?, KeepsEnd c) ∧ isAtKey "color" = false ∧
      ClassSurvives "1,b\t" "color" "red" :=
  ⟨by decide, by decide, by decide, by decide, by decide,
    escaped_class_survives "1,b\t" "color" "red" (by decide) (by decide) (by decide) (by decide)
      (by decide)⟩

theorem class_lost (name property value : String) (declares : isAtKey property = false)
    (changed : tokens (Selector.nested "" ("." ++ escape name)) ≠ [.delim '.', .ident name]) :
    ¬ClassSurvives name property value := by
  rintro ⟨selector, compiled, read⟩
  rw [compile_classRule name property value declares] at compiled
  cases compiled
  exact changed read

/-- A placeholder in a name is filled in, although it is escaped: here nothing stands for it. -/
theorem placeholder_class_lost :
    (¬∀ name property value : String, name ≠ "" → '\x00' ∉ name.toList →
        isAtKey property = false → ClassSurvives name property value) ∧
      ¬ClassSurvives "&" "color" "red" ∧
      Selector.nested "" ("." ++ escape "a&b") = ".a\\b" := by
  have placeholder : ¬ClassSurvives "&" "color" "red" :=
    class_lost "&" "color" "red" (by decide) (by decide +kernel)
  refine ⟨?_, placeholder, by decide +kernel⟩
  intro every
  exact placeholder (every "&" "color" "red" (by decide) (by decide) (by decide))

end Styles

end StyleLayers
