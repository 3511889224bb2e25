import StyleLayers.Proofs.Css.Boundary
import StyleLayers.Selector.Scan

/-!
Selector lists as syntax trees, with the text of each. Class and id names are any text, written
escaped; functional pseudo-classes take selector lists again.
-/

namespace StyleLayers.Selector

open Css

/-- A letter: an ASCII one, or any character beyond ASCII that is not white space. -/
def isLetter (c : Char) : Bool := isAsciiLetter c || (!isAscii c && !Text.isBlank c)

def isWordStart (c : Char) : Bool := isLetter c || c = '_'

def isWordPart (c : Char) : Bool := isWordStart c || isAsciiDigit c || c = '-'

/-- An ordinary name: a letter or `_`, then letters, digits, `_` and `-`. -/
structure Word where
  first : Char
  others : List Char
  starts : isWordStart first = true
  continues : ∀ c ∈ others, isWordPart c = true

/-- Any text but the empty one, as the name of a class or an id. -/
structure Label where
  chars : List Char
  nonempty : chars ≠ []

/-- Text that can stand between double quotes as it is. -/
structure Quotable where
  chars : List Char
  plain : ∀ c ∈ chars, c ≠ '"' ∧ c ≠ '\\' ∧ isNewline c = false

def Word.chars (w : Word) : List Char := w.first :: w.others

def Word.string (w : Word) : String := String.ofList w.chars

inductive Element where
  | any
  | named (name : Word)

def Element.text : Element → List Char
  | any => ['*']
  | named name => name.chars

inductive Combinator where
  | descendant
  | child
  | next
  | later
  deriving DecidableEq, Repr

def Combinator.text : Combinator → List Char
  | descendant => [' ']
  | child => [' ', '>', ' ']
  | next => [' ', '+', ' ']
  | later => [' ', '~', ' ']

mutual

inductive Simple where
  | ofClass (name : Label)
  | ofId (name : Label)
  | pseudoClass (name : Word)
  | pseudoElement (name : Word)
  /-- A functional pseudo-class; `url` would not be one. -/
  | function (name : Word) (notUrl : isUrlName name.chars = false) (arguments : Series)
  | hasAttribute (name : Word) (value : Quotable)

inductive Compound where
  | element (e : Element)
  | simple (s : Simple)
  | also (c : Compound) (s : Simple)

inductive Complex where
  | one (c : Compound)
  | combined (x : Complex) (k : Combinator) (c : Compound)

inductive Series where
  | one (x : Complex)
  | more (x : Complex) (rest : Series)

end

mutual

def Simple.textWith (added : List Char) : Simple → List Char
  | .ofClass name => '.' :: (added ++ escaped name.chars)
  | .ofId name => '#' :: escaped name.chars
  | .pseudoClass name => ':' :: name.chars
  | .pseudoElement name => ':' :: ':' :: name.chars
  | .function name _ arguments => ':' :: (name.chars ++ '(' :: (arguments.textWith added ++ [')']))
  | .hasAttribute name value => '[' :: (name.chars ++ '=' :: '"' :: (value.chars ++ ['"', ']']))

def Compound.textWith (added : List Char) : Compound → List Char
  | .element e => e.text
  | .simple s => s.textWith added
  | .also c s => c.textWith added ++ s.textWith added

def Complex.textWith (added : List Char) : Complex → List Char
  | .one c => c.textWith added
  | .combined x k c => x.textWith added ++ (k.text ++ c.textWith added)

def Series.textWith (added : List Char) : Series → List Char
  | .one x => x.textWith added
  | .more x rest => x.textWith added ++ ',' :: ' ' :: rest.textWith added

end

def Simple.text (s : Simple) : List Char := s.textWith []

def Compound.text (c : Compound) : List Char := c.textWith []

def Complex.text (x : Complex) : List Char := x.textWith []

def Series.text (l : Series) : List Char := l.textWith []

def Series.parts : Series → List Complex
  | .one x => [x]
  | .more x rest => x :: rest.parts

theorem wordStart_nameStart (c : Char) (start : isWordStart c = true) : isNameStart c = true := by
  simp only [isWordStart, isLetter, isNameStart, Bool.or_eq_true, Bool.and_eq_true] at start ⊢
  tauto

theorem wordPart_nameChar (c : Char) (part : isWordPart c = true) : isNameChar c = true := by
  simp only [isWordPart, isNameChar, Bool.or_eq_true] at part ⊢
  rcases part with (start | digit) | hyphen
  · exact Or.inl (Or.inl (wordStart_nameStart c start))
  · exact Or.inl (Or.inr digit)
  · exact Or.inr hyphen

theorem wordStart_visible (c : Char) (start : isWordStart c = true) : Text.isBlank c = false := by
  by_contra blank
  rw [Bool.not_eq_false] at blank
  simp only [isWordStart, isLetter, Bool.or_eq_true, Bool.and_eq_true, Bool.not_eq_true',
    decide_eq_true_eq, isAsciiLetter_iff] at start
  rcases start with (letter | ⟨_, visible⟩) | rfl
  · have low := blank_ascii c (by simp only [isAscii, decide_eq_true_eq]; omega) blank
    omega
  · rw [visible] at blank
    cases blank
  · exact absurd blank (by decide)

theorem wordStart_wordPart (c : Char) (start : isWordStart c = true) : isWordPart c = true := by
  simp [isWordPart, start]

theorem wordPart_visible (c : Char) (part : isWordPart c = true) : Text.isBlank c = false := by
  simp only [isWordPart, Bool.or_eq_true, decide_eq_true_eq] at part
  rcases part with (start | digit) | rfl
  · exact wordStart_visible c start
  · by_contra blank
    rw [isAsciiDigit_iff] at digit
    have low := blank_ascii c (by simp only [isAscii, decide_eq_true_eq]; omega)
      (by simpa using blank)
    omega
  · decide

theorem wordPart_ne (c d : Char) (part : isWordPart c = true) (outside : isWordPart d = false) :
    c ≠ d := by
  rintro rfl
  rw [part] at outside
  cases outside

namespace Word

theorem parts (w : Word) : ∀ c ∈ w.chars, isWordPart c = true := by
  intro c member
  rcases List.mem_cons.mp member with rfl | member
  · exact wordStart_wordPart _ w.starts
  · exact w.continues c member

theorem notMem (w : Word) (c : Char) (outside : isWordPart c = false) : c ∉ w.chars := by
  intro member
  exact wordPart_ne c c (w.parts c member) outside rfl

theorem nameChars (w : Word) : ∀ c ∈ w.chars, isNameChar c = true := fun c member =>
  wordPart_nameChar c (w.parts c member)

theorem nulReplaced_chars (w : Word) : w.chars.map nulReplaced = w.chars :=
  map_nulReplaced w.chars (w.notMem '\x00' (by decide))

theorem startsIdent (w : Word) (rest : List Char) : startsIdent (w.chars ++ rest) = true :=
  opensName_startsIdent _ ⟨w.first, w.others ++ rest, rfl, Or.inl (wordStart_nameStart _ w.starts)⟩

theorem readName (w : Word) (rest : List Char) (stops : StopsName rest) :
    readName (w.chars ++ rest) = (w.chars, rest) := by
  rw [readName_nameChars w.chars rest w.nameChars stops, w.nulReplaced_chars]

theorem lexemes (w : Word) (rest : List Char) (stops : StopsName rest)
    (noArguments : rest.head? ≠ some '(') :
    lexemes (w.chars ++ rest) =
      ⟨.ident (String.ofList w.chars), w.chars⟩ :: Css.lexemes rest := by
  apply lexemes_name w.chars w.chars rest (by simp [Word.chars]) (w.startsIdent rest)
    (w.readName rest stops) noArguments
  intro tail shape
  have start := w.starts
  rw [Word.chars, List.cons_append, List.cons.injEq] at shape
  rw [shape.1] at start
  exact absurd start (by decide)

end Word

end StyleLayers.Selector
