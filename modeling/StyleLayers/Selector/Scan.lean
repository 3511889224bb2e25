import StyleLayers.Css.Lexer
import StyleLayers.Text.Blank

/-!
What the lexemes of a selector mean for rewriting it: which are the points in front of class names,
and which are the commas that separate the selectors of a list. Parentheses are looked into, square
and curly brackets are passed over.
-/

namespace StyleLayers.Selector

open Css

inductive Role where
  | classPoint
  | listComma
  | plain
  deriving DecidableEq, Repr

/-- How many parentheses are open, and which closings a passed over block waits for, innermost
first. -/
structure Nesting where
  depth : Nat
  passed : List Bracket
  deriving DecidableEq, Repr

def Nesting.outermost : Nesting := ⟨0, []⟩

def openedBracket : Token → Option Bracket
  | .opening b => some b
  | .function _ => some .round
  | _ => none

/-- Inside a passed over block only the closing that is waited for counts, and new openings. -/
def passOver (passed : List Bracket) (t : Token) : List Bracket :=
  match openedBracket t with
  | some b => b :: passed
  | none => match passed with
    | b :: outer => if t = .closing b then outer else passed
    | [] => []

def roleOf (n : Nesting) (t : Token) : Role :=
  if n.passed ≠ [] then .plain
  else match t with
    | .delim c => if c = '.' then .classPoint else .plain
    | .comma => if n.depth = 0 then .listComma else .plain
    | _ => .plain

def nestingAfter (n : Nesting) (t : Token) : Nesting :=
  if n.passed ≠ [] then { n with passed := passOver n.passed t }
  else match openedBracket t with
    | some .round => { n with depth := n.depth + 1 }
    | some b => { n with passed := [b] }
    | none => match t with
      | .closing .round => { n with depth := n.depth - 1 }
      | _ => n

structure Piece where
  role : Role
  text : List Char
  deriving DecidableEq, Repr

def pieces (n : Nesting) : List Lexeme → List Piece
  | [] => []
  | l :: rest => ⟨roleOf n l.token, l.text⟩ :: pieces (nestingAfter n l.token) rest

def scan (cs : List Char) : List Piece := pieces .outermost (lexemes cs)

theorem flatMap_text_pieces (n : Nesting) (ls : List Lexeme) :
    (pieces n ls).flatMap Piece.text = ls.flatMap Lexeme.text := by
  induction ls generalizing n with
  | nil => rfl
  | cons l ls ih => simp [pieces, ih]

theorem flatMap_text_scan (cs : List Char) : (scan cs).flatMap Piece.text = cs := by
  rw [scan, flatMap_text_pieces, flatMap_text_lexemes]

def textsBetweenCommas : List Piece → List (List Char)
  | [] => [[]]
  | p :: rest =>
    if p.role = .listComma then [] :: textsBetweenCommas rest
    else match textsBetweenCommas rest with
      | [] => [p.text]
      | text :: texts => (p.text ++ text) :: texts

/-- The selectors of a list, trimmed; empty ones are dropped. -/
def partsOf (cs : List Char) : List (List Char) :=
  ((textsBetweenCommas (scan cs)).map Text.trim).filter (· ≠ [])

def parts (selector : String) : List String := (partsOf selector.toList).map String.ofList

def prefixedPiece (name : List Char) (p : Piece) : List Char :=
  if p.role = .classPoint then p.text ++ name else p.text

def prefixedOf (name cs : List Char) : List Char := (scan cs).flatMap (prefixedPiece name)

def prefixed (name selector : String) : String :=
  String.ofList (prefixedOf name.toList selector.toList)

end StyleLayers.Selector
