import StyleLayers.Json.Value

/-!
Paths into a tree value. Dots separate keys; a key in square brackets is taken whole, without a pair
of quotes around it. Empty keys do not count.
-/

namespace StyleLayers.Path

def isQuotedBy (quote : Char) (cs : List Char) : Bool :=
  2 ≤ cs.length && cs.head? == some quote && cs.getLast? == some quote

def unquoted (cs : List Char) : List Char :=
  if isQuotedBy '"' cs || isQuotedBy '\'' cs then (cs.drop 1).dropLast else cs

def afterDot : List Char → List Char
  | '.' :: rest => rest
  | cs => cs

def endsPlainKey (c : Char) : Bool := c = '.' || c = '['

theorem afterDot_length_le (cs : List Char) : (afterDot cs).length ≤ cs.length := by
  unfold afterDot
  split
  · simp
  · exact Nat.le_refl _

def rawKeys : List Char → List (List Char)
  | [] => []
  | c :: rest =>
    if c = '[' then
      unquoted (rest.takeWhile (· ≠ ']')) :: rawKeys (afterDot ((rest.dropWhile (· ≠ ']')).drop 1))
    else if c = '.' then [] :: rawKeys rest
    else
      (c :: rest.takeWhile fun d => !endsPlainKey d) ::
        rawKeys (afterDot (rest.dropWhile fun d => !endsPlainKey d))
termination_by cs => cs.length
decreasing_by
  · have h₁ := afterDot_length_le ((rest.dropWhile (· ≠ ']')).drop 1)
    have h₂ : (rest.dropWhile (· ≠ ']')).length ≤ rest.length :=
      (List.dropWhile_suffix _).length_le
    simp only [List.length_drop] at h₁
    simp only [List.length_cons]
    omega
  · simp
  · have h₁ := afterDot_length_le (rest.dropWhile fun d => !endsPlainKey d)
    have h₂ : (rest.dropWhile fun d => !endsPlainKey d).length ≤ rest.length :=
      (List.dropWhile_suffix _).length_le
    simp only [List.length_cons]
    omega

def keysOf (cs : List Char) : List (List Char) := (rawKeys cs).filter (· ≠ [])

def keys (path : String) : List String := (keysOf path.toList).map String.ofList

/-- A key as a position: decimal digits, with or without a plus sign. -/
def position? (key : String) : Option Nat :=
  let digits := match key.toList with
    | '+' :: ds => ds
    | ds => ds
  if digits ≠ [] ∧ digits.all Char.isDigit then
    some (digits.foldl (fun n c => 10 * n + (c.toNat - '0'.toNat)) 0)
  else none

end StyleLayers.Path

namespace StyleLayers.Value

/-- One step down: into a mapping by its key, into an array by position. -/
def child? (v : Value) (key : String) : Option Value :=
  match v with
  | .object entries => entries.lookup key
  | .array items => (Path.position? key).bind (items[·]?)
  | _ => none

def descend? (v : Value) : List String → Option Value
  | [] => some v
  | key :: keys => (v.child? key).bind (descend? · keys)

def at? (v : Value) (path : String) : Option Value := v.descend? (Path.keys path)

end StyleLayers.Value
