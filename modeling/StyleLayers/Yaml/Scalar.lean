import StyleLayers.Yaml.Token

/-!
The texts of scalars. In plain and quoted scalars a single line break is folded into a space and
further breaks are kept; block scalars keep their lines or fold them.
-/

namespace StyleLayers.Yaml

/-- White space since the last character of a scalar. After a line break, blanks no longer count. -/
structure Spacing where
  /-- Last first. -/
  blanks : List Char
  broken : Bool
  /-- The first line break, unless a backslash took it away. -/
  first : Option Char
  /-- Further line breaks, last first. -/
  others : List Char

namespace Spacing

def empty : Spacing := ⟨[], false, none, []⟩

def joined : Spacing := ⟨[], true, none, []⟩

def isEmpty (s : Spacing) : Bool := s.blanks.isEmpty && !s.broken

def add (s : Spacing) (c : Char) : Spacing :=
  if isBreak c then
    if s.broken then { s with others := c :: s.others } else ⟨[], true, some c, []⟩
  else if s.broken then s
  else { s with blanks := c :: s.blanks }

def text (s : Spacing) : List Char :=
  if s.broken then
    if s.first = some '\n' then if s.others = [] then [' '] else s.others.reverse
    else s.first.toList ++ s.others.reverse
  else s.blanks.reverse

def after (s : Spacing) (read : List Char) : List Char := s.text.reverse ++ read

end Spacing

def readSingleQuoted (read : List Char) (spacing : Spacing) : Source → Option (String × Source)
  | [] => none
  | l :: rest =>
    if Source.isMarker (l :: rest) then none
    else if isSpacing l.char then readSingleQuoted read (spacing.add l.char) rest
    else if l.char = '\'' then
      match rest with
      | m :: after =>
        if m.char = '\'' then readSingleQuoted ('\'' :: spacing.after read) .empty after
        else some (String.ofList (spacing.after read).reverse, rest)
      | [] => some (String.ofList (spacing.after read).reverse, rest)
    else readSingleQuoted (l.char :: spacing.after read) .empty rest

def simpleEscapes : List (Char × Char) :=
  [('0', '\x00'), ('a', '\x07'), ('b', '\x08'), ('t', '\t'), ('\t', '\t'), ('n', '\n'),
    ('v', '\x0b'), ('f', '\x0c'), ('r', '\r'), ('e', '\x1b'), (' ', ' '), ('"', '"'), ('/', '/'),
    ('\\', '\\'), ('N', '\u0085'), ('_', '\u00a0'), ('L', '\u2028'), ('P', '\u2029')]

def hexEscapes : List (Char × Nat) := [('x', 2), ('u', 4), ('U', 8)]

inductive Escape where
  | outside
  | started
  /-- How many digits are still to come, and the value so far. -/
  | digits (left value : Nat)

def readDoubleQuoted (read : List Char) (spacing : Spacing) (escape : Escape) :
    Source → Option (String × Source)
  | [] => none
  | l :: rest =>
    match escape with
    | .started =>
      if isBreak l.char then readDoubleQuoted read .joined .outside rest
      else match simpleEscapes.lookup l.char with
        | some c => readDoubleQuoted (c :: read) .empty .outside rest
        | none => match hexEscapes.lookup l.char with
          | some n => readDoubleQuoted read .empty (.digits n 0) rest
          | none => none
    | .digits left value =>
      match hexValue l.char with
      | none => none
      | some d =>
        let value := 16 * value + d
        if 1 < left then readDoubleQuoted read .empty (.digits (left - 1) value) rest
        else if value.isValidChar then
          readDoubleQuoted (Char.ofNat value :: read) .empty .outside rest
        else none
    | .outside =>
      if Source.isMarker (l :: rest) then none
      else if isSpacing l.char then readDoubleQuoted read (spacing.add l.char) .outside rest
      else if l.char = '"' then some (String.ofList (spacing.after read).reverse, rest)
      else if l.char = '\\' then readDoubleQuoted (spacing.after read) .empty .started rest
      else readDoubleQuoted (l.char :: spacing.after read) .empty .outside rest

def isFlowMark (c : Char) : Bool := c = ',' || c = '[' || c = ']' || c = '\x7b' || c = '\x7d'

def endsPlain (inFlow : Bool) (c : Char) (rest : Source) : Bool :=
  (c = ':' && rest.endsWord) || (inFlow && isFlowMark c)

/-- Whether a plain scalar that has white space behind it ends in front of the next character. -/
def endsAfterSpacing (inFlow : Bool) (least : Int) (s : Source) : Bool :=
  s.startsWith (· = '#') || s.isMarker ||
    (!inFlow && s.head?.any fun l => (l.column : Int) < least)

/-- A plain scalar with its rest, and whether line breaks follow it. Its further lines have to be
indented to column `least`, and not by tabs. -/
def readPlain (inFlow : Bool) (least : Int) (read : List Char) (spacing : Spacing) :
    Source → Option (String × Bool × Source)
  | [] => some (String.ofList read.reverse, spacing.broken, [])
  | l :: rest =>
    if isSpacing l.char then
      if l.char = '\t' ∧ spacing.broken ∧ (l.column : Int) < least then none
      else readPlain inFlow least read (spacing.add l.char) rest
    else if !spacing.isEmpty && endsAfterSpacing inFlow least (l :: rest) then
      some (String.ofList read.reverse, spacing.broken, l :: rest)
    else if inFlow && l.char = ':' && Source.startsWith (fun c => c = '?' || isFlowMark c) rest then
      none
    else if endsPlain inFlow l.char rest then
      some (String.ofList read.reverse, spacing.broken, l :: rest)
    else readPlain inFlow least (l.char :: spacing.after read) .empty rest

inductive Chomping where
  | strip
  | clip
  | keep
  deriving DecidableEq, Repr

structure BlockHeader where
  chomping : Chomping
  /-- The indentation, beyond that of the surroundings, when it is given. -/
  indentation : Option Nat

def chompingOf (c : Char) : Option Chomping :=
  if c = '+' then some .keep else if c = '-' then some .strip else none

/-- A digit from one to nine; zero is no indentation. -/
def readIndentation : Source → Option (Option Nat × Source)
  | l :: rest =>
    if l.char = '0' then none
    else if l.char.isDigit then some (some (l.char.toNat - '0'.toNat), rest)
    else some (none, l :: rest)
  | [] => some (none, [])

def readChomping : Source → Option Chomping × Source
  | l :: rest => match chompingOf l.char with
    | some c => (some c, rest)
    | none => (none, l :: rest)
  | [] => (none, [])

/-- Both indicators are optional, in either order. -/
def readBlockHeader (s : Source) : Option (BlockHeader × Source) := do
  let (early, rest) := readChomping s
  let (indentation, rest) ← readIndentation rest
  let (late, rest) := if early.isSome ∨ indentation.isNone then (none, rest) else readChomping rest
  let rest ← rest.afterLine?
  some (⟨(early.or late).getD .clip, indentation⟩, rest)

/-- Line breaks in front of a line of a block scalar, with the spaces of empty lines. Gives the
widest column reached, the breaks and the rest, which is at the indentation of the next line.
Without a given indentation all spaces belong to it. -/
def readBlockBreaks (indentation : Option Nat) (widest : Nat) (breaks : List Char) :
    Source → Option (Nat × List Char × Source)
  | [] => some (widest, breaks, [])
  | l :: rest =>
    let inside := indentation.all (l.column < ·)
    if l.char = ' ' ∧ inside then readBlockBreaks indentation widest breaks rest
    else
      let widest := max widest l.column
      if l.char = '\t' ∧ inside then none
      else if isBreak l.char then readBlockBreaks indentation widest (breaks ++ [l.char]) rest
      else some (widest, breaks, l :: rest)

theorem readBlockBreaks_length_le {indentation : Option Nat} {widest : Nat} {breaks : List Char}
    {s : Source} {r : Nat × List Char × Source}
    (h : readBlockBreaks indentation widest breaks s = some r) : r.2.2.length ≤ s.length := by
  fun_induction readBlockBreaks indentation widest breaks s with
  | case1 =>
    cases h
    exact Nat.le_refl _
  | case2 _ _ _ _ _ _ ih => exact Nat.le_succ_of_le (ih h)
  | case3 => cases h
  | case4 _ _ _ _ _ _ _ _ _ ih => exact Nat.le_succ_of_le (ih h)
  | case5 =>
    cases h
    exact Nat.le_refl _

structure BlockLines where
  /-- Last first. -/
  text : List Char
  /-- The break after the last line. -/
  lastBreak : List Char
  /-- The breaks of empty lines after that. -/
  emptyLines : List Char
  /-- Whether the last line starts with a blank; such lines are not folded. -/
  indented : Bool

namespace BlockLines

def beforeLine (folded : Bool) (b : BlockLines) (nextIndented : Bool) : List Char :=
  let between :=
    if folded ∧ b.lastBreak = ['\n'] ∧ !b.indented ∧ !nextIndented then
      if b.emptyLines = [] then [' '] else b.emptyLines
    else b.lastBreak ++ b.emptyLines
  between.reverse ++ b.text

def chomped (chomping : Chomping) (b : BlockLines) : List Char :=
  match chomping with
  | .strip => b.text.reverse
  | .clip => b.text.reverse ++ b.lastBreak
  | .keep => b.text.reverse ++ b.lastBreak ++ b.emptyLines

end BlockLines

def readBlockLines (folded : Bool) (indentation : Nat) (b : BlockLines) (s : Source) :
    Option (BlockLines × Source) :=
  match s with
  | [] => some (b, [])
  | l :: rest =>
    if l.column ≠ indentation then some (b, l :: rest)
    else
      let nextIndented := isBlank l.char
      let line := (l :: rest).takeWhile fun m => !isBreak m.char
      let after := (l :: rest).dropWhile fun m => !isBreak m.char
      let text := (line.map Located.char).reverse ++ b.beforeLine folded nextIndented
      match _ : readBlockBreaks (some indentation) 0 [] (after.drop 1) with
      | none => none
      | some r =>
        readBlockLines folded indentation
          ⟨text, (after.take 1).map Located.char, r.2.1, nextIndented⟩ r.2.2
termination_by s.length
decreasing_by
  rename_i hbreaks
  have h₁ := readBlockBreaks_length_le hbreaks
  have h₂ : after.length ≤ (l :: rest).length := (List.dropWhile_suffix _).length_le
  simp only [List.length_drop] at h₁
  simp only [List.length_cons] at h₂ ⊢
  omega

/-- What follows the indicator of a block scalar inside a block at column `outer`. Without a given
indentation the first line that is not empty sets it, or a wider empty line before. -/
def readBlock (folded : Bool) (outer : Int) (s : Source) : Option (String × Source) := do
  let (header, rest) ← readBlockHeader s
  let given := header.indentation.map fun n => (max outer 0).toNat + n
  let (widest, breaks, rest) ← readBlockBreaks given 0 [] rest
  let indentation := given.getD (max (max widest (outer + 1).toNat) 1)
  let (b, rest) ← readBlockLines folded indentation ⟨[], [], breaks, false⟩ rest
  some (String.ofList (b.chomped header.chomping), rest)

end StyleLayers.Yaml
