import StyleLayers.Proofs.Rule.Indenting
import StyleLayers.Sheet.Layer

/-!
Layers and groups are written as rules are: a layer is the text of one at-rule, in which a group with
variants is a block for its list and any other group is its rules.
-/

namespace StyleLayers

namespace Rule

theorem cssAllAt_append (depth : Nat) (rs ss : List Rule) :
    cssAllAt depth (rs ++ ss) = cssAllAt depth rs ++ cssAllAt depth ss := by
  induction rs with
  | nil => exact String.empty_append.symm
  | cons r rs ih => rw [List.cons_append, cssAllAt, cssAllAt, ih, String.append_assoc]

end Rule

namespace Group

def asRules (g : Group) : List Rule :=
  if g.variants.names = [] then g.rules else [⟨g.variants.marker, [], g.rules⟩]

theorem asRules_nonempty (g : Group) (filled : g.rules ≠ []) : g.asRules ≠ [] := by
  rw [asRules]
  split
  · exact filled
  · exact List.cons_ne_nil _ _

theorem cssAllAt_asRules (depth : Nat) (g : Group) (filled : g.rules ≠ []) :
    Rule.cssAllAt depth g.asRules = g.cssAt depth := by
  rw [asRules, cssAt]
  by_cases unlisted : g.variants.names = []
  · rw [if_pos unlisted, if_pos unlisted]
  · rw [if_neg unlisted, if_neg unlisted, Rule.cssAllAt, Rule.cssAllAt, String.append_empty,
      Rule.cssAt_children depth g.variants.marker g.rules filled]

theorem cssAllAt_flatMap_asRules (depth : Nat) (groups : List Group)
    (filled : ∀ g ∈ groups, g.rules ≠ []) :
    Rule.cssAllAt depth (groups.flatMap asRules) = String.join (groups.map (cssAt depth)) := by
  induction groups with
  | nil => rfl
  | cons g groups ih =>
    obtain ⟨here, behind⟩ := List.forall_mem_cons.mp filled
    rw [List.flatMap_cons, Rule.cssAllAt_append, cssAllAt_asRules depth g here, ih behind,
      List.map_cons, String.join_cons]

end Group

namespace Layer

def block (layer : Layer) (groups : List Group) : Rule :=
  ⟨"@layer " ++ layer.name, [], groups.flatMap Group.asRules⟩

theorem css_eq_block (layer : Layer) (groups : List Group) (some : groups ≠ [])
    (filled : ∀ g ∈ groups, g.rules ≠ []) : layer.css groups = (layer.block groups).css := by
  have inside : groups.flatMap Group.asRules ≠ [] := by
    obtain ⟨g, others, rfl⟩ := List.exists_cons_of_ne_nil some
    rw [List.flatMap_cons]
    exact List.append_ne_nil_of_left_ne_nil
      (g.asRules_nonempty (filled g List.mem_cons_self)) _
  have notEmpty : groups.isEmpty = false := by simpa using some
  calc
    layer.css groups =
        blockCss 0 ("@layer " ++ layer.name) (String.join (groups.map (Group.cssAt 1))) := by
      rw [css, notEmpty, if_neg Bool.false_ne_true]
    _ = blockCss 0 ("@layer " ++ layer.name) (Rule.cssAllAt 1 (groups.flatMap Group.asRules)) := by
      rw [Group.cssAllAt_flatMap_asRules 1 groups filled]
    _ = (layer.block groups).css := (Rule.cssAt_children 0 _ _ inside).symm

theorem css_empty (layer : Layer) : layer.css [] = "" := rfl

end Layer

namespace Stylesheet

def blocksOf (s : Stylesheet) (layers : List Layer) : List Rule :=
  (layers.filter fun layer => s.groups layer ≠ []).map fun layer => layer.block (s.groups layer)

theorem css_layers (s : Stylesheet) (layers : List Layer)
    (filled : ∀ layer, ∀ g ∈ s.groups layer, g.rules ≠ []) :
    String.join (layers.map fun layer => layer.css (s.groups layer)) =
      Rule.cssAll (s.blocksOf layers) := by
  induction layers with
  | nil => rfl
  | cons layer layers ih =>
    rw [List.map_cons, String.join_cons, ih]
    by_cases none : s.groups layer = []
    · have dropped : s.blocksOf (layer :: layers) = s.blocksOf layers := by
        simp [blocksOf, none]
      rw [dropped, none, Layer.css_empty, String.empty_append]
    · have kept : s.blocksOf (layer :: layers) =
          layer.block (s.groups layer) :: s.blocksOf layers := by
        simp [blocksOf, none]
      rw [kept, Layer.css_eq_block layer (s.groups layer) none (filled layer)]
      rfl

/-- A layer whose groups all have rules is written as the one rule that it stands for. A stylesheet
is its three layers, one after another with nothing for a layer without groups, and so where all
groups have rules it is written as the rules that its layers stand for. -/
theorem layers_printed_as_rules :
    (∀ (layer : Layer) (groups : List Group), groups ≠ [] → (∀ g ∈ groups, g.rules ≠ []) →
        layer.css groups = (layer.block groups).css) ∧
      (∀ layer : Layer, layer.css [] = "") ∧
      ∀ s : Stylesheet,
        s.css = Layer.base.css s.base ++ Layer.components.css s.components ++
            Layer.utilities.css s.utilities ∧
          ((∀ layer, ∀ g ∈ s.groups layer, g.rules ≠ []) →
            s.css = Rule.cssAll (s.blocksOf [.base, .components, .utilities])) := by
  refine ⟨Layer.css_eq_block, Layer.css_empty, ?_⟩
  intro s
  constructor
  · rw [css, Layer.all, List.map_cons, List.map_cons, List.map_singleton, String.join_cons,
      String.join_cons, String.join_cons]
    simp [groups, String.append_assoc]
  · exact css_layers s Layer.all

theorem layers_printed_as_rules_utilities :
    let hovered : Group := ⟨[⟨".a", [⟨"top", "0"⟩], []⟩], ⟨["hover"], by decide, by decide⟩⟩
    let plain : Group := ⟨[⟨"@import x", [], []⟩, ⟨".b", [], [⟨".c", [], []⟩]⟩], .empty⟩
    let s : Stylesheet := ⟨[], [], [hovered, plain]⟩
    (∀ g ∈ [hovered, plain], g.rules ≠ []) ∧
      Layer.utilities.css [hovered, plain] = (Layer.utilities.block [hovered, plain]).css ∧
      (Layer.utilities.block [hovered, plain]).children.map Rule.selector =
        ["@variants hover", "@import x", ".b"] ∧
      s.css = Rule.cssAll [Layer.utilities.block [hovered, plain]] := by
  intro hovered plain s
  have filled : ∀ g ∈ [hovered, plain], g.rules ≠ [] := by simp [hovered, plain]
  have filledLayers : ∀ layer, ∀ g ∈ s.groups layer, g.rules ≠ [] := by
    intro layer
    cases layer with
    | base => exact List.forall_mem_nil _
    | components => exact List.forall_mem_nil _
    | utilities => exact filled
  obtain ⟨layers, _, sheets⟩ := layers_printed_as_rules
  exact ⟨filled, layers .utilities [hovered, plain] (List.cons_ne_nil _ _) filled,
    by decide +kernel, (sheets s).2 filledLayers⟩

end Stylesheet

end StyleLayers
