import StyleLayers.Proofs.Selector.Balance

/-!
Nesting lists of selectors distributes over their parts, and under selectors that are nested
themselves it makes no difference which of the two nestings is done first.
-/

namespace StyleLayers.Selector

open Css

def partMarks : List Char :=
  [' ', '.', '#', ':', '>', '+', '~', '*', '&', '_', '-', '(', ')', ',']

def isPartChar (c : Char) : Bool := isAsciiLetter c || isAsciiDigit c || decide (c ∈ partMarks)

/-- How many parentheses are open behind a text with `depth` of them open in front of it; nothing
where one closes that is not open. -/
def depthBehind : Nat → List Char → Option Nat
  | depth, [] => some depth
  | depth, '(' :: rest => depthBehind (depth + 1) rest
  | 0, ')' :: _ => none
  | depth + 1, ')' :: rest => depthBehind depth rest
  | depth, _ :: rest => depthBehind depth rest

/-- Wherever `c` stands in the text, what is in front of it has the property. -/
def InFrontOf (c : Char) (property : List Char → Prop) (cs : List Char) : Prop :=
  ∀ before after, cs = before ++ c :: after → property before

theorem inFrontOf_iff (c : Char) (property : List Char → Prop) (cs : List Char) :
    (∀ i < cs.length, cs[i]? = some c → property (cs.take i)) ↔ InFrontOf c property cs := by
  constructor
  · rintro indexed before after rfl
    have here := indexed before.length (by simp) (by simp)
    rwa [List.take_left] at here
  · intro inFront i below found
    obtain ⟨_, same⟩ := List.getElem?_eq_some_iff.mp found
    apply inFront (cs.take i) (cs.drop (i + 1))
    rw [← same, List.getElem_cons_drop, List.take_append_drop]

instance (c : Char) (property : List Char → Prop) [DecidablePred property] (cs : List Char) :
    Decidable (InFrontOf c property cs) :=
  decidable_of_iff _ (inFrontOf_iff c property cs)

def OpensFunction (before : List Char) : Prop := ∃ name ∈ functions, ':' :: name <:+ before

instance : DecidablePred OpensFunction := fun before =>
  inferInstanceAs (Decidable (∃ name ∈ functions, ':' :: name <:+ before))

/-- Every comma of the text is inside of parentheses, `depth` of them open in front of it. -/
def CommasInside (depth : Nat) (cs : List Char) : Prop :=
  InFrontOf ',' (fun before => depthBehind depth before ≠ some 0) cs

instance (depth : Nat) (cs : List Char) : Decidable (CommasInside depth cs) :=
  inferInstanceAs (Decidable (InFrontOf ',' (fun before => depthBehind depth before ≠ some 0) cs))

/-- One selector of a list: its parentheses belong to functional pseudo-classes, and its commas
stand inside of them. -/
structure BalancedPart where
  text : String
  nonempty : text ≠ ""
  noSpaceFirst : text.toList.head? ≠ some ' '
  noSpaceLast : text.toList.getLast? ≠ some ' '
  alphabet : ∀ c ∈ text.toList, isPartChar c = true
  opened : InFrontOf '(' OpensFunction text.toList
  balanced : depthBehind 0 text.toList = some 0
  commasInside : CommasInside 0 text.toList

def BalancedPart.under (outer inner : BalancedPart) : String :=
  if '&' ∈ inner.text.toList then
    String.ofList
      (inner.text.toList.flatMap fun c => if c = '&' then outer.text.toList else [c])
  else outer.text ++ " " ++ inner.text

def listed (ps : List BalancedPart) : String := ", ".intercalate (ps.map BalancedPart.text)

theorem depthBehind_other (depth : Nat) (c : Char) (rest : List Char) (noOpening : c ≠ '(')
    (noClosing : c ≠ ')') : depthBehind depth (c :: rest) = depthBehind depth rest := by
  rw [depthBehind]
  · exact noOpening
  · intro _ closing
    exact absurd closing noClosing
  · intro _ _ closing
    exact absurd closing noClosing

theorem opened_cons (c : Char) (rest : List Char)
    (opened : InFrontOf '(' OpensFunction (c :: rest)) :
    (∃ name ∈ functions, ∃ after, c = ':' ∧ rest = name ++ '(' :: after) ∨
      InFrontOf '(' OpensFunction rest := by
  by_contra neither
  rw [not_or] at neither
  obtain ⟨noFunction, unopened⟩ := neither
  apply unopened
  rintro before after rfl
  obtain ⟨name, known, suffix⟩ := opened (c :: before) after rfl
  rcases List.suffix_cons_iff.mp suffix with whole | behind
  · cases whole
    exact absurd ⟨before, known, after, rfl, rfl⟩ noFunction
  · exact ⟨name, known, behind⟩

theorem opened_behind (front after : List Char)
    (opened : InFrontOf '(' OpensFunction (front ++ '(' :: after)) :
    InFrontOf '(' OpensFunction after := by
  rintro before behind rfl
  obtain ⟨name, known, suffix⟩ := opened (front ++ '(' :: before) behind (by simp)
  have noParenthesis : '(' ∉ ':' :: name := by
    obtain ⟨word, rfl, _⟩ := function_word name known
    simp [word.notMem '(' (by decide)]
  refine ⟨name, known, ?_⟩
  rcases List.suffix_or_suffix_of_suffix suffix (List.suffix_append front ('(' :: before)) with
    short | long
  · rcases List.suffix_cons_iff.mp short with whole | within
    · rw [whole] at noParenthesis
      exact absurd List.mem_cons_self noParenthesis
    · exact within
  · exact absurd (long.subset List.mem_cons_self) noParenthesis

theorem depthBehind_function (depth : Nat) (name rest : List Char) (known : name ∈ functions) :
    depthBehind depth (':' :: (name ++ '(' :: rest)) = depthBehind (depth + 1) rest := by
  simp only [functions, List.mem_cons, List.not_mem_nil, or_false] at known
  rcases known with rfl | rfl | rfl | rfl <;> rfl

theorem tame_partChar (c : Char) (inAlphabet : isPartChar c = true) (noComma : c ≠ ',')
    (noOpening : c ≠ '(') (noClosing : c ≠ ')') : c ∉ wildChars := by
  have wild : ∀ d ∈ wildChars, isPartChar d = true → d = ',' ∨ d = '(' ∨ d = ')' := by decide
  intro member
  rcases wild c member inAlphabet with comma | opening | closing
  · exact noComma comma
  · exact noOpening opening
  · exact noClosing closing

theorem commasInside_tail {depth deeper : Nat} (front : List Char) {rest : List Char}
    (level : ∀ before, depthBehind depth (front ++ before) = depthBehind deeper before)
    (inside : CommasInside depth (front ++ rest)) : CommasInside deeper rest := by
  rintro before after rfl
  have whole : depthBehind depth (front ++ before) ≠ some 0 :=
    inside (front ++ before) after (by simp)
  rwa [level] at whole

theorem balances_of_depth : ∀ (w : List Char) (depth : Nat), (∀ c ∈ w, isPartChar c = true) →
    InFrontOf '(' OpensFunction w → CommasInside depth w → depthBehind depth w = some 0 →
    Balances depth w
  | [], depth, _, _, _, balanced => by
    cases balanced
    exact .nil
  | c :: w, depth, alphabet, opened, inside, balanced => by
    obtain ⟨here, behind⟩ := List.forall_mem_cons.mp alphabet
    rcases opened_cons c w opened with ⟨name, known, after, rfl, rfl⟩ | openedBehind
    · have level (before : List Char) :
          depthBehind depth (':' :: (name ++ ['(']) ++ before) =
            depthBehind (depth + 1) before := by
        simpa using depthBehind_function depth name before known
      have shape : ':' :: (name ++ '(' :: after) = ':' :: (name ++ ['(']) ++ after := by simp
      rw [depthBehind_function depth name after known] at balanced
      rw [shape] at inside
      exact .function known (balances_of_depth after (depth + 1)
        (fun d member => behind d (by simp [member])) (opened_behind (':' :: name) after opened)
        (commasInside_tail _ level inside) balanced)
    · have below (deeper : Nat)
          (level : ∀ before, depthBehind depth (c :: before) = depthBehind deeper before) :
          Balances deeper w :=
        balances_of_depth w deeper behind openedBehind
          (commasInside_tail [c] level inside) ((level w).symm.trans balanced)
      by_cases opening : c = '('
      · subst opening
        obtain ⟨name, _, suffix⟩ := opened [] w rfl
        cases List.suffix_nil.mp suffix
      by_cases closing : c = ')'
      · subst closing
        cases depth with
        | zero => cases balanced
        | succ depth => exact .closing (below depth fun _ => rfl)
      by_cases comma : c = ','
      · subst comma
        cases depth with
        | zero => exact absurd rfl (inside [] w rfl)
        | succ depth => exact .comma (below (depth + 1) fun _ => rfl)
      exact .other (tame_partChar c here comma opening closing)
        (below depth fun before => depthBehind_other depth c before opening closing)
termination_by w => w.length

theorem partChar_visible (c : Char) (inAlphabet : isPartChar c = true) (noSpace : c ≠ ' ') :
    Text.isBlank c = false := by
  have marks : ∀ d ∈ partMarks, d ≠ ' ' → Text.isBlank d = false := by decide
  simp only [isPartChar, Bool.or_eq_true, decide_eq_true_eq] at inAlphabet
  rcases inAlphabet with (letter | digit) | mark
  · exact wordPart_visible c (by simp [isWordPart, isWordStart, isLetter, letter])
  · exact wordPart_visible c (by simp [isWordPart, digit])
  · exact marks c mark noSpace

namespace BalancedPart

def chars (p : BalancedPart) : List Char := p.text.toList

theorem staysWhole (p : BalancedPart) : StaysWhole p.chars := by
  apply staysWhole_of_spaces
  · exact mt String.toList_eq_nil_iff.mp p.nonempty
  · exact balances_of_depth p.chars 0 p.alphabet p.opened p.commasInside p.balanced
  · exact fun c member => partChar_visible c (p.alphabet c member)
  · exact p.noSpaceFirst
  · exact p.noSpaceLast

theorem toList_under (outer inner : BalancedPart) :
    (under outer inner).toList = nestedPart outer.chars inner.chars := by
  have nonempty := visible_ne_nil outer.staysWhole.starts
  rw [under, nestedPart, if_neg nonempty, apply_ite String.toList, String.toList_ofList,
    String.toList_append, String.toList_append, List.append_assoc]
  rfl

end BalancedPart

theorem toList_listed (ps : List BalancedPart) :
    (listed ps).toList = listText (ps.map BalancedPart.chars) := by
  rw [listed, ← listText_toList, List.map_map]
  rfl

def pairs (outers inners : List (List Char)) : List (List Char) :=
  outers.flatMap fun o => inners.map (nestedPart o)

theorem pairs_whole (outers inners : List (List Char)) (wholeOuters : ∀ o ∈ outers, StaysWhole o)
    (wholeInners : ∀ i ∈ inners, StaysWhole i) : ∀ w ∈ pairs outers inners, StaysWhole w := by
  intro w member
  obtain ⟨o, outside, nested⟩ := List.mem_flatMap.mp member
  obtain ⟨i, inside, rfl⟩ := List.mem_map.mp nested
  exact (wholeOuters o outside).nestedPart (wholeInners i inside)

theorem pairs_nonempty (outers inners : List (List Char)) (someOuter : outers ≠ [])
    (someInner : inners ≠ []) : pairs outers inners ≠ [] := by
  obtain ⟨o, os, rfl⟩ := List.exists_cons_of_ne_nil someOuter
  simp [pairs, someInner]

theorem nestedOf_listText (outers inners : List (List Char))
    (wholeOuters : ∀ o ∈ outers, StaysWhole o) (wholeInners : ∀ i ∈ inners, StaysWhole i)
    (someOuter : outers ≠ []) (someInner : inners ≠ []) :
    nestedOf (listText outers) (listText inners) = listText (pairs outers inners) := by
  obtain ⟨i, is, rfl⟩ := List.exists_cons_of_ne_nil someInner
  obtain ⟨o, os, rfl⟩ := List.exists_cons_of_ne_nil someOuter
  rw [nestedOf, outerParts, partsOf_listText _ wholeInners, partsOf_listText _ wholeOuters]
  rfl

theorem filled_filled (outer middle inner : List Char) :
    filled (filled outer middle) inner = filled outer (filled middle inner) := by
  induction inner with
  | nil => rfl
  | cons c inner ih =>
      by_cases placeholder : c = '&'
      · subst placeholder
        rw [filled_placeholder, filled_placeholder, filled_append, ih]
      · rw [filled_other _ inner c placeholder, filled_other _ inner c placeholder,
          filled_other _ _ c placeholder, ih]

theorem filled_nonempty (outer inner : List Char) (outerNonempty : outer ≠ [])
    (innerNonempty : inner ≠ []) : filled outer inner ≠ [] := by
  obtain ⟨c, tail, rfl⟩ := List.exists_cons_of_ne_nil innerNonempty
  by_cases placeholder : c = '&'
  · subst placeholder
    simp [filled_placeholder, outerNonempty]
  · simp [filled_other outer tail c placeholder]

theorem mem_filled (outer inner : List Char) (placeholder : '&' ∈ outer) (inside : '&' ∈ inner) :
    '&' ∈ filled outer inner :=
  List.mem_flatMap.mpr ⟨'&', inside, by simpa using placeholder⟩

theorem nestedPart_nestedPart (outer middle inner : List Char) (outerNonempty : outer ≠ [])
    (middleNonempty : middle ≠ []) (placed : '&' ∈ middle ∨ '&' ∉ inner) :
    nestedPart (nestedPart outer middle) inner = nestedPart outer (nestedPart middle inner) := by
  by_cases inside : '&' ∈ inner
  · have between : '&' ∈ middle := placed.resolve_right fun none => none inside
    have below := mem_filled middle inner between inside
    simp only [nestedPart, inside, between, below, if_true]
    exact filled_filled outer middle inner
  · by_cases between : '&' ∈ middle
    · have nonempty := filled_nonempty outer middle outerNonempty middleNonempty
      have same := filled_same outer inner inside
      simp [nestedPart, inside, between, middleNonempty, nonempty, filled_append,
        filled_other, same]
    · simp [nestedPart, inside, between, outerNonempty, middleNonempty]

theorem pairs_pairs (outers middles inners : List (List Char))
    (wholeOuters : ∀ o ∈ outers, StaysWhole o) (wholeMiddles : ∀ m ∈ middles, StaysWhole m)
    (placed : (∀ m ∈ middles, '&' ∈ m) ∨ ∀ i ∈ inners, '&' ∉ i) :
    pairs (pairs outers middles) inners = pairs outers (pairs middles inners) := by
  unfold pairs
  rw [List.flatMap_assoc]
  refine List.flatMap_congr fun o outside => ?_
  rw [List.flatMap_map, List.map_flatMap]
  refine List.flatMap_congr fun m between => ?_
  rw [List.map_map]
  refine List.map_congr_left fun i inside => ?_
  exact nestedPart_nestedPart o m i (visible_ne_nil (wholeOuters o outside).starts)
    (visible_ne_nil (wholeMiddles m between).starts)
    (placed.imp (fun each => each m between) fun none => none i inside)

theorem nestedOf_nestedOf (outers middles inners : List (List Char))
    (wholeOuters : ∀ o ∈ outers, StaysWhole o) (wholeMiddles : ∀ m ∈ middles, StaysWhole m)
    (wholeInners : ∀ i ∈ inners, StaysWhole i) (someOuter : outers ≠ [])
    (someMiddle : middles ≠ []) (someInner : inners ≠ [])
    (placed : (∀ m ∈ middles, '&' ∈ m) ∨ ∀ i ∈ inners, '&' ∉ i) :
    nestedOf (nestedOf (listText outers) (listText middles)) (listText inners) =
      nestedOf (listText outers) (nestedOf (listText middles) (listText inners)) := by
  have wholeFirst := pairs_whole outers middles wholeOuters wholeMiddles
  have wholeLast := pairs_whole middles inners wholeMiddles wholeInners
  have someFirst := pairs_nonempty outers middles someOuter someMiddle
  have someLast := pairs_nonempty middles inners someMiddle someInner
  rw [nestedOf_listText outers middles wholeOuters wholeMiddles someOuter someMiddle,
    nestedOf_listText middles inners wholeMiddles wholeInners someMiddle someInner,
    nestedOf_listText _ inners wholeFirst wholeInners someFirst someInner,
    nestedOf_listText outers _ wholeOuters wholeLast someOuter someLast,
    pairs_pairs outers middles inners wholeOuters wholeMiddles placed]

theorem chars_whole (ps : List BalancedPart) :
    ∀ w ∈ ps.map BalancedPart.chars, StaysWhole w := by
  intro w member
  obtain ⟨p, _, rfl⟩ := List.mem_map.mp member
  exact p.staysWhole

theorem ofList_pairs (ps ks : List BalancedPart) :
    (pairs (ps.map BalancedPart.chars) (ks.map BalancedPart.chars)).map String.ofList =
      ps.flatMap fun p => ks.map fun k => p.under k := by
  rw [pairs, List.flatMap_map, List.map_flatMap]
  refine List.flatMap_congr fun p _ => ?_
  rw [List.map_map, List.map_map]
  refine List.map_congr_left fun k _ => ?_
  change String.ofList (nestedPart p.chars k.chars) = p.under k
  rw [← BalancedPart.toList_under, String.ofList_toList]

/-- A nested list splits into every inner part under every outer one. Of three lists nested in each
other it makes no difference which two are nested first, if every middle part has the place of the
outer one or no inner part has one. -/
theorem nested_balanced (ps ks ls : List BalancedPart) (someOuter : ps ≠ []) (someMiddle : ks ≠ [])
    (someInner : ls ≠ []) :
    parts (nested (listed ps) (listed ks)) = (ps.flatMap fun p => ks.map fun k => p.under k) ∧
      (((∀ k ∈ ks, '&' ∈ k.text.toList) ∨ ∀ l ∈ ls, '&' ∉ l.text.toList) →
        nested (nested (listed ps) (listed ks)) (listed ls) =
          nested (listed ps) (nested (listed ks) (listed ls))) := by
  have someOuters : ps.map BalancedPart.chars ≠ [] := by simpa using someOuter
  have someMiddles : ks.map BalancedPart.chars ≠ [] := by simpa using someMiddle
  have someInners : ls.map BalancedPart.chars ≠ [] := by simpa using someInner
  simp only [parts, nested, String.toList_ofList, toList_listed]
  constructor
  · rw [nestedOf_listText _ _ (chars_whole ps) (chars_whole ks) someOuters someMiddles,
      partsOf_listText _ (pairs_whole _ _ (chars_whole ps) (chars_whole ks)), ofList_pairs]
  · intro placed
    rw [nestedOf_nestedOf _ _ _ (chars_whole ps) (chars_whole ks) (chars_whole ls) someOuters
      someMiddles someInners (by simpa [BalancedPart.chars] using placed)]

theorem nested_balanced_functions :
    parts (nested ":is(.a, .b) > .c, .d" "&:not(&, .e), & + &") =
        [":is(.a, .b) > .c:not(:is(.a, .b) > .c, .e)", ":is(.a, .b) > .c + :is(.a, .b) > .c",
          ".d:not(.d, .e)", ".d + .d"] ∧
      nested (nested ":is(.a, .b) > .c, .d" "&:not(&, .e), & + &") ".f:has(> &), .g" =
        nested ":is(.a, .b) > .c, .d" (nested "&:not(&, .e), & + &" ".f:has(> &), .g") := by
  have law := nested_balanced
    [⟨":is(.a, .b) > .c", by decide, by decide, by decide, by decide, by decide, by decide,
        by decide⟩,
      ⟨".d", by decide, by decide, by decide, by decide, by decide, by decide, by decide⟩]
    [⟨"&:not(&, .e)", by decide, by decide, by decide, by decide, by decide, by decide,
        by decide⟩,
      ⟨"& + &", by decide, by decide, by decide, by decide, by decide, by decide, by decide⟩]
    [⟨".f:has(> &)", by decide, by decide, by decide, by decide, by decide, by decide, by decide⟩,
      ⟨".g", by decide, by decide, by decide, by decide, by decide, by decide, by decide⟩]
    (by decide) (by decide) (by decide)
  exact ⟨law.1, law.2 (Or.inl (by decide))⟩

end StyleLayers.Selector
