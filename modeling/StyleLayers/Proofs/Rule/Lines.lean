import StyleLayers.Proofs.Rule.Indenting
import StyleLayers.Proofs.Rule.Rewriting

/-!
The text of a rule line by line. A line is a statement, the opening of a block or a declaration, and
says which; a block ends where a line is indented less. So the text of a rule determines the rule,
and where in a longer text it ends.
-/

namespace StyleLayers

theorem append_cancel_first {c : Char} {v w s t : List Char} (front : c ∉ v) (front' : c ∉ w)
    (same : v ++ c :: s = w ++ c :: t) : v = w ∧ s = t := by
  rcases List.append_eq_append_iff.mp same with ⟨between, longer, rest⟩ | ⟨between, longer, rest⟩
  · cases between with
    | nil =>
      rw [List.append_nil] at longer
      exact ⟨longer.symm, (List.cons.inj rest).2⟩
    | cons d between =>
      rw [longer, (List.cons.inj rest).1] at front'
      exact absurd (by simp) front'
  · cases between with
    | nil =>
      rw [List.append_nil] at longer
      exact ⟨longer, (List.cons.inj rest).2.symm⟩
    | cons d between =>
      rw [longer, (List.cons.inj rest).1] at front
      exact absurd (by simp) front

/-- The property ends at the first colon of the line, and makes no at-rule of it. -/
def Declaration.Legible (d : Declaration) : Prop :=
  d.OneLine ∧ ':' ∉ d.property.toList ∧ AtRule.isPrelude d.property = false

instance (d : Declaration) : Decidable d.Legible :=
  inferInstanceAs (Decidable
    (d.OneLine ∧ ':' ∉ d.property.toList ∧ AtRule.isPrelude d.property = false))

/-- A line inside of a block, its indentation apart. -/
inductive Line where
  | statement (selector : String)
  | opening (selector : String)
  | declaration (d : Declaration)
  deriving DecidableEq, Repr

namespace Line

def text : Line → List Char
  | statement selector => selector.toList ++ [';']
  | opening selector => selector.toList ++ [' ', '\x7b']
  | declaration d => d.property.toList ++ ':' :: (' ' :: d.value.toList ++ [';'])

def Legible : Line → Prop
  | statement selector => OneLine selector ∧ AtRule.isPrelude selector = true
  | opening selector => OneLine selector
  | declaration d => d.Legible

theorem text_oneLine (l : Line) (legible : l.Legible) : '\n' ∉ l.text := by
  cases l with
  | statement selector => simpa [text, OneLine] using legible.1
  | opening selector => simpa [text, OneLine, Legible] using legible
  | declaration d =>
    obtain ⟨property, value⟩ := legible.1
    rw [OneLine] at property value
    simp [text, property, value]

theorem statement_ne_opening (s t : String) : (statement s).text ≠ (opening t).text := by
  intro same
  have last := congrArg List.getLast? same
  simp [text] at last

theorem opening_ne_declaration (s : String) (d : Declaration) :
    (opening s).text ≠ (declaration d).text := by
  intro same
  have last := congrArg List.getLast? same
  simp [text, List.getLast?_cons] at last

theorem statement_ne_declaration (s : String) (d : Declaration)
    (prelude : AtRule.isPrelude s = true) (plain : AtRule.isPrelude d.property = false) :
    (statement s).text ≠ (declaration d).text := by
  intro same
  obtain ⟨body, shape⟩ := (AtRule.isPrelude_iff s).mp prelude
  have first := congrArg List.head? same
  rw [text, text, shape] at first
  cases property : d.property.toList with
  | nil =>
    rw [property] at first
    cases first
  | cons c tail =>
    rw [property] at first
    cases first
    rw [(AtRule.isPrelude_iff d.property).mpr ⟨tail, property⟩] at plain
    cases plain

theorem text_injective (l m : Line) (legible : l.Legible) (legible' : m.Legible)
    (same : l.text = m.text) : l = m := by
  cases l with
  | statement s =>
    cases m with
    | statement t => rw [String.toList_inj.mp (List.append_cancel_right same)]
    | opening t => exact absurd same (statement_ne_opening s t)
    | declaration d => exact absurd same (statement_ne_declaration s d legible.2 legible'.2.2)
  | opening s =>
    cases m with
    | statement t => exact absurd same.symm (statement_ne_opening t s)
    | opening t => rw [String.toList_inj.mp (List.append_cancel_right same)]
    | declaration d => exact absurd same (opening_ne_declaration s d)
  | declaration d =>
    cases m with
    | statement t =>
      exact absurd same.symm (statement_ne_declaration t d legible'.2 legible.2.2)
    | opening t => exact absurd same.symm (opening_ne_declaration t d)
    | declaration e =>
      obtain ⟨property, value⟩ := append_cancel_first legible.2.1 legible'.2.1 same
      have values := List.append_cancel_right (List.cons.inj value).2
      rw [String.toList_inj] at property values
      cases d
      cases e
      simp_all

def written (depth : Nat) (l : Line) : List Char := (indent depth).toList ++ (l.text ++ ['\n'])

theorem written_cancel (depth : Nat) (l m : Line) (legible : l.Legible) (legible' : m.Legible)
    (rest rest' : List Char) (same : l.written depth ++ rest = m.written depth ++ rest') :
    l = m ∧ rest = rest' := by
  simp only [written, List.append_assoc, List.singleton_append] at same
  have lines := List.append_cancel_left same
  obtain ⟨texts, behind⟩ :=
    append_cancel_first (text_oneLine l legible) (text_oneLine m legible') lines
  exact ⟨text_injective l m legible legible' texts, behind⟩

end Line

def closingLine (depth : Nat) : List Char := (indent depth).toList ++ ['\x7d', '\n']

theorem closingLine_ne_written (depth : Nat) (l : Line) (rest rest' : List Char) :
    closingLine depth ++ rest ≠ l.written (depth + 1) ++ rest' := by
  intro same
  have further : (indent (depth + 1)).toList = (indent depth).toList ++ [' ', ' '] := by
    rw [indent, indent, String.toList_ofList, String.toList_ofList, Nat.mul_add]
    exact List.replicate_append_replicate.symm
  rw [closingLine, Line.written, further] at same
  simp only [List.append_assoc] at same
  -- A brace on one side, a space of the further indentation on the other.
  cases List.append_cancel_left same

theorem toList_declarationsCss (depth : Nat) (ds : List Declaration) :
    (declarationsCss depth ds).toList =
      ds.flatMap fun d => (Line.declaration d).written depth := by
  induction ds with
  | nil => rfl
  | cons d ds ih =>
    have first : (d.css depth).toList = (Line.declaration d).written depth := by
      simp [Declaration.css, Line.written, Line.text]
    have joined : declarationsCss depth (d :: ds) = d.css depth ++ declarationsCss depth ds := by
      simp [declarationsCss, String.join_cons]
    rw [joined, String.toList_append, first, ih, List.flatMap_cons]

def NoDeclaration (depth : Nat) (cs : List Char) : Prop :=
  ∀ d : Declaration, d.Legible → ∀ rest, cs ≠ (Line.declaration d).written depth ++ rest

theorem declarations_cancel (depth : Nat) (ds es : List Declaration)
    (legible : ∀ d ∈ ds, d.Legible) (legible' : ∀ e ∈ es, e.Legible) (rest rest' : List Char)
    (ends : NoDeclaration depth rest) (ends' : NoDeclaration depth rest')
    (same : (declarationsCss depth ds).toList ++ rest =
      (declarationsCss depth es).toList ++ rest') : ds = es ∧ rest = rest' := by
  rw [toList_declarationsCss, toList_declarationsCss] at same
  -- Neither list can be over first: what follows it would start with a declaration.
  induction ds generalizing es with
  | nil =>
    cases es with
    | nil => exact ⟨rfl, same⟩
    | cons e es =>
      rw [List.flatMap_cons, List.append_assoc] at same
      exact absurd same (ends e (legible' e List.mem_cons_self) _)
  | cons d ds ih =>
    obtain ⟨here, behind⟩ := List.forall_mem_cons.mp legible
    cases es with
    | nil =>
      rw [List.flatMap_cons, List.append_assoc] at same
      exact absurd same.symm (ends' d here _)
    | cons e es =>
      obtain ⟨here', behind'⟩ := List.forall_mem_cons.mp legible'
      rw [List.flatMap_cons, List.flatMap_cons, List.append_assoc, List.append_assoc] at same
      obtain ⟨line, others⟩ := Line.written_cancel depth (.declaration d) (.declaration e)
        here here' _ _ same
      obtain ⟨declarations, after⟩ := ih es behind behind' others
      rw [Line.declaration.inj line, declarations]
      exact ⟨rfl, after⟩

namespace Rule

mutual

/-- No string of the rule or of the rules below it has a line break in it, and every property can
be told from the rest of its line. -/
def Legible : Rule → Prop
  | ⟨selector, declarations, children⟩ =>
    StyleLayers.OneLine selector ∧ (∀ d ∈ declarations, d.Legible) ∧ AllLegible children

def AllLegible : List Rule → Prop
  | [] => True
  | r :: rs => Legible r ∧ AllLegible rs

end

def isBare (r : Rule) : Bool :=
  AtRule.isPrelude r.selector && r.declarations.isEmpty && r.children.isEmpty

theorem isBare_eq_true (r : Rule) : r.isBare = true ↔
    AtRule.isPrelude r.selector = true ∧ r.declarations = [] ∧ r.children = [] := by
  simp [isBare, and_assoc]

theorem eq_ofSelector (r : Rule) (bare : r.isBare = true) : r = ofSelector r.selector := by
  obtain ⟨_, noDeclarations, noRules⟩ := (isBare_eq_true r).mp bare
  cases r
  simp_all [ofSelector]

def firstLine (r : Rule) : Line :=
  if r.isBare then .statement r.selector else .opening r.selector

def behindFirst (depth : Nat) (r : Rule) : List Char :=
  if r.isBare then []
  else (declarationsCss (depth + 1) r.declarations).toList ++
    ((cssAllAt (depth + 1) r.children).toList ++ closingLine depth)

theorem toList_cssAt (depth : Nat) (r : Rule) :
    (r.cssAt depth).toList = r.firstLine.written depth ++ r.behindFirst depth := by
  obtain ⟨selector, declarations, children⟩ := r
  rw [cssAt, firstLine, behindFirst]
  by_cases bare : isBare ⟨selector, declarations, children⟩ = true
  · rw [if_pos bare, if_pos bare]
    rw [isBare] at bare
    rw [if_pos bare]
    simp [statementCss, Line.written, Line.text]
  · rw [if_neg bare, if_neg bare]
    rw [isBare] at bare
    rw [if_neg bare]
    simp [blockCss, Line.written, Line.text, closingLine]

theorem toList_cssAllAt_cons (depth : Nat) (r : Rule) (rs : List Rule) (rest : List Char) :
    (cssAllAt depth (r :: rs)).toList ++ rest = r.firstLine.written depth ++
      (r.behindFirst depth ++ ((cssAllAt depth rs).toList ++ rest)) := by
  rw [cssAllAt, String.toList_append, toList_cssAt, List.append_assoc, List.append_assoc]

theorem firstLine_legible (r : Rule) (legible : r.Legible) : r.firstLine.Legible := by
  obtain ⟨selector, declarations, children⟩ := r
  rw [Legible] at legible
  rw [firstLine]
  split
  · next bare => exact ⟨legible.1, ((isBare_eq_true _).mp bare).1⟩
  · exact legible.1

theorem firstLine_ne_declaration (r : Rule) (d : Declaration) : r.firstLine ≠ .declaration d := by
  rw [firstLine]
  split
  · exact Line.noConfusion
  · exact Line.noConfusion

theorem firstLine_inj (r s : Rule) (same : r.firstLine = s.firstLine) :
    r.selector = s.selector ∧ r.isBare = s.isBare := by
  rw [firstLine, firstLine] at same
  cases bare : r.isBare with
  | true =>
    cases bare' : s.isBare with
    | true =>
      rw [bare, bare', if_pos rfl, if_pos rfl] at same
      exact ⟨Line.statement.inj same, rfl⟩
    | false =>
      rw [bare, bare', if_pos rfl, if_neg Bool.false_ne_true] at same
      cases same
  | false =>
    cases bare' : s.isBare with
    | true =>
      rw [bare, bare', if_pos rfl, if_neg Bool.false_ne_true] at same
      cases same
    | false =>
      rw [bare, bare', if_neg Bool.false_ne_true, if_neg Bool.false_ne_true] at same
      exact ⟨Line.opening.inj same, rfl⟩

theorem noDeclaration_children (depth : Nat) (rs : List Rule) (legible : AllLegible rs)
    (rest : List Char) :
    NoDeclaration (depth + 1) ((cssAllAt (depth + 1) rs).toList ++ (closingLine depth ++ rest)) := by
  intro d legibleLine rest' same
  cases rs with
  | nil => exact closingLine_ne_written depth _ rest rest' same
  | cons r rs =>
    rw [AllLegible] at legible
    rw [toList_cssAllAt_cons] at same
    have lines := Line.written_cancel (depth + 1) _ (.declaration d)
      (firstLine_legible r legible.1) legibleLine _ _ same
    exact firstLine_ne_declaration r d lines.1

mutual

theorem cssAt_cancel (depth : Nat) : ∀ (r s : Rule) (rest rest' : List Char), r.Legible →
    s.Legible → (r.cssAt depth).toList ++ rest = (s.cssAt depth).toList ++ rest' →
    r = s ∧ rest = rest'
  | ⟨selector, ds, rs⟩, ⟨selector', es, ss⟩, rest, rest', legible, legible', same => by
    rw [toList_cssAt, toList_cssAt, List.append_assoc, List.append_assoc] at same
    obtain ⟨line, behind⟩ := Line.written_cancel depth _ _ (firstLine_legible _ legible)
      (firstLine_legible _ legible') _ _ same
    obtain ⟨selectors, kinds⟩ := firstLine_inj _ _ line
    change selector = selector' at selectors
    subst selectors
    rw [behindFirst, behindFirst] at behind
    -- The first lines agree, so both rules are statements or both are blocks.
    by_cases bare : isBare ⟨selector, ds, rs⟩ = true
    · have bare' := kinds.symm.trans bare
      rw [if_pos bare, if_pos bare'] at behind
      exact ⟨(eq_ofSelector _ bare).trans (eq_ofSelector _ bare').symm, behind⟩
    · have bare' : ¬isBare ⟨selector, es, ss⟩ = true := kinds ▸ bare
      rw [Legible] at legible legible'
      rw [if_neg bare, if_neg bare'] at behind
      simp only [List.append_assoc] at behind
      obtain ⟨declarations, below⟩ := declarations_cancel (depth + 1) ds es legible.2.1
        legible'.2.1 _ _ (noDeclaration_children depth rs legible.2.2 rest)
        (noDeclaration_children depth ss legible'.2.2 rest') behind
      obtain ⟨children, after⟩ :=
        cssAllAt_cancel depth rs ss rest rest' legible.2.2 legible'.2.2 below
      rw [declarations, children]
      exact ⟨rfl, after⟩

theorem cssAllAt_cancel (depth : Nat) : ∀ (rs ss : List Rule) (rest rest' : List Char),
    AllLegible rs → AllLegible ss →
    (cssAllAt (depth + 1) rs).toList ++ (closingLine depth ++ rest) =
      (cssAllAt (depth + 1) ss).toList ++ (closingLine depth ++ rest') →
    rs = ss ∧ rest = rest'
  | [], [], rest, rest', _, _, same => ⟨rfl, List.append_cancel_left same⟩
  | [], s :: ss, rest, rest', _, _, same => by
    rw [toList_cssAllAt_cons] at same
    exact absurd same (closingLine_ne_written depth _ _ _)
  | r :: rs, [], rest, rest', _, _, same => by
    rw [toList_cssAllAt_cons] at same
    exact absurd same.symm (closingLine_ne_written depth _ _ _)
  | r :: rs, s :: ss, rest, rest', legible, legible', same => by
    rw [AllLegible] at legible legible'
    rw [cssAllAt, cssAllAt, String.toList_append, String.toList_append, List.append_assoc,
      List.append_assoc] at same
    obtain ⟨first, others⟩ := cssAt_cancel (depth + 1) r s _ _ legible.1 legible'.1 same
    obtain ⟨rules, after⟩ := cssAllAt_cancel depth rs ss rest rest' legible.2 legible'.2 others
    rw [first, rules]
    exact ⟨rfl, after⟩

end

/-- Rules whose properties can be told from their values have the same text only where they are the
same rule. -/
theorem css_eq_iff (r s : Rule) (legible : r.Legible) (legible' : s.Legible) :
    r.css = s.css ↔ r = s := by
  constructor
  · intro same
    have texts := congrArg (fun css : String => css.toList ++ []) same
    exact (cssAt_cancel 0 r s [] [] legible legible' texts).1
  · intro same
    rw [same]

theorem css_eq_iff_nested :
    let r : Rule := ⟨"@media print", [],
      [⟨"  .a", [⟨"content", "; \x7d"⟩], []⟩, ⟨"@import x", [], []⟩]⟩
    let s : Rule := ⟨"@media print", [],
      [⟨"  .a", [⟨"content", "; \x7d"⟩], [⟨"@import x", [], []⟩]⟩]⟩
    r.Legible ∧ s.Legible ∧ r.css ≠ s.css := by
  intro r s
  have legible : r.Legible := by
    simp only [r, Legible, AllLegible]
    decide
  have legible' : s.Legible := by
    simp only [s, Legible, AllLegible]
    decide
  have different : r ≠ s := by simp [r, s]
  exact ⟨legible, legible', mt (css_eq_iff r s legible legible').mp different⟩

end Rule

end StyleLayers
