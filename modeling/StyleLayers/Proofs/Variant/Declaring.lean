import StyleLayers.Proofs.Rule.Indenting
import StyleLayers.Proofs.Variant.Lifting
import StyleLayers.Proofs.Variant.Listing
import StyleLayers.Style.Compile

/-!
Blocks by which styles declare their own variants, written out. Such a block keeps any other list
off its group, and whether it is lifted or stays, the group is written as the rules would be.
-/

namespace StyleLayers

namespace Styles

/-- A compiled rule has declarations of its own, or no children, or the prelude of a key. -/
def Formed (r : Rule) : Prop :=
  r.declarations ≠ [] ∨ r.children = [] ∨ ∃ key, r.selector = preludeOf key

theorem inAtRule_selector (prelude chain : String) (b : Block) :
    (b.inAtRule prelude chain).selector = prelude := by
  unfold Block.inAtRule
  split
  · rfl
  · rfl

theorem rulesUnder_formed (selector : String) (b : Block) (formed : ∀ r ∈ b.rules, Formed r) :
    ∀ r ∈ b.rulesUnder selector, Formed r := by
  unfold Block.rulesUnder
  split
  · exact formed
  · next some => exact List.forall_mem_cons.mpr ⟨Or.inl some, formed⟩

theorem compileScalar_formed (key : String) (v : Value) :
    ∀ r ∈ (compileScalar key v).rules, Formed r := by
  unfold compileScalar
  split
  · exact List.forall_mem_singleton.mpr (Or.inr (Or.inl rfl))
  · exact List.forall_mem_nil _

mutual

theorem compileEntry_formed (parent key : String) :
    ∀ v : Value, ∀ r ∈ (compileEntry parent key v).rules, Formed r
  | .null => List.forall_mem_nil _
  | .array items => by
    rw [compileEntry]
    exact compileItems_formed parent key items
  | .object entries => by
    rw [compileEntry]
    split
    · exact List.forall_mem_singleton.mpr (Or.inr (Or.inr ⟨key, inAtRule_selector _ _ _⟩))
    · exact rulesUnder_formed _ _ (compileEntries_formed _ entries)
  | .bool _ => compileScalar_formed key _
  | .number _ => compileScalar_formed key _
  | .string _ => compileScalar_formed key _

theorem compileItems_formed (parent key : String) :
    ∀ items : List Value, ∀ r ∈ (compileItems parent key items).rules, Formed r
  | [] => List.forall_mem_nil _
  | v :: vs => by
    rw [compileItems, Block.append_rules]
    exact List.forall_mem_append.mpr
      ⟨compileEntry_formed parent key v, compileItems_formed parent key vs⟩

theorem compileEntries_formed (parent : String) :
    ∀ entries : List (String × Value), ∀ r ∈ (compileEntries parent entries).rules, Formed r
  | [] => List.forall_mem_nil _
  | (key, v) :: rest => by
    rw [compileEntries, Block.append_rules]
    exact List.forall_mem_append.mpr
      ⟨compileEntry_formed parent key v, compileEntries_formed parent rest⟩

end

mutual

theorem compile_formed (parent : String) :
    ∀ v : Value, ∀ r ∈ compile parent (ofValue v), Formed r
  | .null => List.forall_mem_nil _
  | .array items => by
    rw [ofValue, compile]
    exact compileAll_formed parent items
  | .object entries => by
    have inner := compileEntries_formed parent entries
    simp only [ofValue, compile, compileMapping]
    split
    · exact inner
    · exact rulesUnder_formed parent _ inner
  | .bool _ => List.forall_mem_nil _
  | .number _ => List.forall_mem_nil _
  | .string _ => List.forall_mem_nil _

theorem compileAll_formed (parent : String) :
    ∀ vs : List Value, ∀ r ∈ compileAll parent (ofValues vs), Formed r
  | [] => List.forall_mem_nil _
  | v :: vs => by
    rw [ofValues, compileAll]
    exact List.forall_mem_append.mpr ⟨compile_formed parent v, compileAll_formed parent vs⟩

end

end Styles

namespace Rule

theorem cssAllAt_eq_join (depth : Nat) (rs : List Rule) :
    cssAllAt depth rs = String.join (rs.map (cssAt depth)) := by
  induction rs with
  | nil => rfl
  | cons r rs ih => rw [cssAllAt, ih, List.map_cons, String.join_cons]

theorem css_declaring (r : Rule) (l : Variants) (declares : r.declared? = some l)
    (bare : r.declarations = []) (some : r.children ≠ []) (formed : Styles.Formed r) :
    r.css = blockCss 0 l.marker (cssAllAt 1 r.children) := by
  obtain ⟨selector, declarations, children⟩ := r
  obtain ⟨key, prelude⟩ := (formed.resolve_left (not_not.mpr bare)).resolve_left some
  change selector = AtRule.canonical (Text.trimmed key) at prelude
  have marker := AtRule.canonical_of_declared? (Text.trimmed key) l (prelude ▸ declares)
  cases bare
  rw [css, prelude, marker]
  exact cssAt_children 0 l.marker children some

end Rule

namespace Group

theorem css_unlisted (rs : List Rule) : (⟨rs, .empty⟩ : Group).css = Rule.cssAllAt 0 rs := by
  simp [css, cssAt, Variants.empty]

/-- A lone block that is lifted has its list as the group's list, and the group writes its prelude
again; any other group of declaring rules has no list. -/
theorem css_wrap_declaring (rs : List Rule) (variants : Variants)
    (declaring : (rs.any fun r => r.declared?.isSome) = true)
    (formed : ∀ r ∈ rs, Styles.Formed r)
    (filled : ∀ r ∈ rs, ∀ l ∈ r.declared?, l.names ≠ [] ∧ r.isEmpty = false) :
    (wrap rs variants).css = Rule.cssAllAt 0 rs := by
  match rs with
  | [] => cases declaring
  | [r] =>
    obtain ⟨l, declares⟩ := Option.isSome_iff_exists.mp (by simpa using declaring)
    by_cases bare : r.declarations = []
    · obtain ⟨listed, notEmpty⟩ := filled r List.mem_cons_self l declares
      have below : r.children ≠ [] := by
        intro none
        simp [Rule.isEmpty, bare, none] at notEmpty
      have written := Rule.css_declaring r l declares bare below (formed r List.mem_cons_self)
      have lifted : wrap [r] variants = ⟨r.children, l⟩ := by simp [wrap, declares, bare]
      rw [lifted, css, cssAt, if_neg listed, ← written, Rule.cssAllAt, Rule.cssAllAt]
      exact String.append_empty.symm
    · have kept : wrap [r] variants = ⟨[r], .empty⟩ := by simp [wrap, declares, bare]
      rw [kept, css_unlisted]
  | r :: s :: rest =>
    have kept : wrap (r :: s :: rest) variants = ⟨r :: s :: rest, .empty⟩ := by
      simp only [wrap, declaring, if_true]
    rw [kept, css_unlisted]

/-- Rules that declare their variants are written as they are, whatever list their group is given.
Others are written inside one block for that list, every line with two spaces in front. -/
theorem css_of_compiled (parent : String) (v : Value) (variants : Variants) :
    let rs := Styles.compile parent (Styles.ofValue v)
    ((∃ r ∈ rs, r.declared?.isSome) →
        (∀ r ∈ rs, ∀ l ∈ r.declared?, l.names ≠ [] ∧ r.isEmpty = false) →
        (wrap rs variants).css = String.join (rs.map Rule.css)) ∧
      ((∀ r ∈ rs, r.declared? = none) → variants.names ≠ [] → Rule.AllOneLine rs →
        (wrap rs variants).css =
          "@variants " ++ variants.params ++ " \x7b\n" ++
            Text.indented (String.join (rs.map Rule.css)) ++ "\x7d\n") := by
  intro rs
  have formed : ∀ r ∈ rs, Styles.Formed r := Styles.compile_formed parent v
  constructor
  · rintro ⟨r, member, declaring⟩ filled
    have some : (rs.any fun r => r.declared?.isSome) = true :=
      List.any_eq_true.mpr ⟨r, member, declaring⟩
    rw [css_wrap_declaring rs variants some formed filled, Rule.cssAllAt_eq_join]
    rfl
  · intro plain listed oneLine
    have none : (rs.any fun r => r.declared?.isSome) = false := by
      simpa using plain
    have further := (Rule.cssAllAt_indents 0 rs oneLine).eq
    rw [wrap_plain rs variants none, css, cssAt, if_neg listed, ← further,
      Rule.cssAllAt_eq_join, Variants.marker, if_neg listed]
    exact blockCss_outermost _ _

theorem css_of_compiled_samples :
    let lone := Value.object [("@variants hover,, hover,focus", .object
      [(".a", .object [("color", .string "red"), ("&:b", .object [("top", .string "0")])])])]
    let plain := Value.object [(".a", .object [("color", .string "red")])]
    (wrap (Styles.compile "" (Styles.ofValue lone)) ⟨["x"], by decide, by decide⟩).css =
        String.join ((Styles.compile "" (Styles.ofValue lone)).map Rule.css) ∧
      (wrap (Styles.compile "" (Styles.ofValue plain)) ⟨["x", "y"], by decide, by decide⟩).css =
        "@variants x, y \x7b\n" ++
          Text.indented (String.join ((Styles.compile "" (Styles.ofValue plain)).map Rule.css)) ++
            "\x7d\n" := by
  intro lone plain
  have declaring : ∃ r ∈ Styles.compile "" (Styles.ofValue lone), r.declared?.isSome :=
    List.any_eq_true.mp (by decide +kernel)
  exact ⟨(css_of_compiled "" lone _).1 declaring (by decide +kernel),
    (css_of_compiled "" plain _).2 (by decide +kernel) (by decide) (by decide +kernel)⟩

end Group

end StyleLayers
