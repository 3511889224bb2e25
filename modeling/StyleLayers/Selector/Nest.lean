import StyleLayers.Selector.Scan

/-!
A selector nested under another: every `&` of the inner one stands for the outer one, and without
any `&` the inner one follows the outer one after a space.
-/

namespace StyleLayers.Selector

def filled (outer inner : List Char) : List Char :=
  inner.flatMap fun c => if c = '&' then outer else [c]

def nestedPart (outer inner : List Char) : List Char :=
  if '&' ∈ inner then filled outer inner
  else if outer = [] then inner
  else outer ++ ' ' :: inner

/-- The parts of the outer list, a single empty one standing for none. -/
def outerParts (outer : List Char) : List (List Char) :=
  match partsOf outer with
  | [] => [[]]
  | ps => ps

def listText (ps : List (List Char)) : List Char := [',', ' '].intercalate ps

/-- Lists distribute over each other, the outer one first. An empty inner list leaves the outer
selector as it is. -/
def nestedOf (outer inner : List Char) : List Char :=
  match partsOf inner with
  | [] => outer
  | inners => listText ((outerParts outer).flatMap fun o => inners.map (nestedPart o))

def nested (outer inner : String) : String :=
  String.ofList (nestedOf outer.toList inner.toList)

def withinOf (scope cs : List Char) : List Char :=
  listText ((partsOf cs).map fun p => scope ++ ' ' :: p)

def within (scope selector : String) : String :=
  String.ofList (withinOf scope.toList selector.toList)

end StyleLayers.Selector
