import StyleLayers.Yaml.Schema

/-!
The value of a YAML text. Anchors get numbers in the order of the text, and an alias means the last
node with the number that its name has where it stands.
-/

namespace StyleLayers.Yaml

/-- A node whose anchors and aliases are numbers. -/
inductive Linked where
  | scalar (tag : Option Tag) (text : String) (plain : Bool)
  | sequence (tag : Option Tag) (items : List Linked)
  | mapping (tag : Option Tag) (entries : List (Linked × Linked))
  | reference (number : Nat)
  deriving Repr

abbrev AnchorNumbers := List (String × Nat)

/-- A linked node, the numbers that hold after it, and its numbered parts in the order of the
text. -/
structure Linking (α : Type) where
  linked : α
  numbers : AnchorNumbers
  numbered : List (Nat × Linked)

namespace Node

/-- A name gets the number of names so far, also when it is given a second time. -/
def setAnchor (numbers : AnchorNumbers) (name : String) : AnchorNumbers :=
  if (numbers.lookup name).isSome then
    numbers.map fun entry => if entry.1 = name then (name, numbers.length) else entry
  else numbers ++ [(name, numbers.length)]

def startAnchor (numbers : AnchorNumbers) (p : Properties) : AnchorNumbers :=
  match p.anchor with
  | some name => setAnchor numbers name
  | none => numbers

def numberedAs (numbers : AnchorNumbers) (p : Properties) (node : Linked) : List (Nat × Linked) :=
  if p.anchor.isSome then [(numbers.length, node)] else []

mutual

def link (numbers : AnchorNumbers) : Node → Option (Linking Linked)
  | scalar p text plain =>
    let node := Linked.scalar p.tag text plain
    some ⟨node, startAnchor numbers p, numberedAs numbers p node⟩
  | sequence p items => do
    let inner ← linkAll (startAnchor numbers p) items
    let node := Linked.sequence p.tag inner.linked
    some ⟨node, inner.numbers, numberedAs numbers p node ++ inner.numbered⟩
  | mapping p entries => do
    let inner ← linkEntries (startAnchor numbers p) entries
    let node := Linked.mapping p.tag inner.linked
    some ⟨node, inner.numbers, numberedAs numbers p node ++ inner.numbered⟩
  | reference name => do
    let number ← numbers.lookup name
    some ⟨.reference number, numbers, []⟩

def linkAll (numbers : AnchorNumbers) : List Node → Option (Linking (List Linked))
  | [] => some ⟨[], numbers, []⟩
  | n :: ns => do
    let first ← link numbers n
    let rest ← linkAll first.numbers ns
    some ⟨first.linked :: rest.linked, rest.numbers, first.numbered ++ rest.numbered⟩

def linkEntries (numbers : AnchorNumbers) :
    List (Node × Node) → Option (Linking (List (Linked × Linked)))
  | [] => some ⟨[], numbers, []⟩
  | (k, v) :: rest => do
    let key ← link numbers k
    let value ← link key.numbers v
    let rest ← linkEntries value.numbers rest
    some ⟨(key.linked, value.linked) :: rest.linked, rest.numbers,
      key.numbered ++ value.numbered ++ rest.numbered⟩

end

end Node

namespace Linked

mutual

/-- The number of places of the text where a node or a collection starts or ends. -/
def size : Linked → Nat
  | scalar _ _ _ => 1
  | reference _ => 1
  | sequence _ items => 2 + sizeAll items
  | mapping _ entries => 2 + sizeEntries entries

def sizeAll : List Linked → Nat
  | [] => 0
  | n :: ns => size n + sizeAll ns

def sizeEntries : List (Linked × Linked) → Nat
  | [] => 0
  | (k, v) :: rest => size k + size v + sizeEntries rest

end

/-- Nodes by number; of several with one number the last. -/
abbrev Table := List (Nat × Linked)

def find (table : Table) (number : Nat) : Option Linked := table.reverse.lookup number

def isAlias : Linked → Bool
  | reference _ => true
  | _ => false

abbrev Following := StateT Nat Option

def follow (table : Table) (number : Nat) : Following Linked := do
  let left ← get
  if left = 0 then failure
  set (left - 1)
  match find table number with
  | some node => pure node
  | none => failure

def keyOf (table : Table) : Linked → Following String
  | scalar _ text _ => pure text
  | reference number => do
    match ← follow table number with
    | scalar _ text _ => pure text
    | _ => failure
  | _ => failure

/-- An alias comes before the node that it means. -/
def rank : Linked → Nat
  | reference _ => 1
  | _ => 0

theorem rank_lt_two (node : Linked) : node.rank < 2 := by
  cases node <;> simp [rank]

theorem rank_eq_zero {node : Linked} (h : node.isAlias = false) : node.rank = 0 := by
  cases node <;> simp_all [rank, isAlias]

mutual

def value (table : Table) (depth : Nat) (node : Linked) : Following Value :=
  match node with
  | reference number => do
    let target ← follow table number
    if _ : target.isAlias = false then value table depth target else failure
  | scalar tag text plain => StateT.lift (Schema.scalar tag text plain)
  | sequence tag items =>
    match depth with
    | 0 => failure
    | depth + 1 => do
      if tag.any Tag.isLocal then failure
      return .array (← valueAll table depth items)
  | mapping tag entries =>
    match depth with
    | 0 => failure
    | depth + 1 => do
      if tag.any Tag.isLocal then failure
      return .object (← valueEntries table depth [] entries)
termination_by (depth, node.rank, 0)
decreasing_by
  · rw [rank_eq_zero ‹_›]
    exact .right _ (.left _ _ Nat.zero_lt_one)
  · exact .left _ _ (Nat.lt_succ_self _)
  · exact .left _ _ (Nat.lt_succ_self _)

def valueAll (table : Table) (depth : Nat) (nodes : List Linked) : Following (List Value) :=
  match nodes with
  | [] => pure []
  | n :: ns => do
    let v ← value table depth n
    let vs ← valueAll table depth ns
    return v :: vs
termination_by (depth, 2, nodes.length)
decreasing_by
  · exact .right _ (.left _ _ (rank_lt_two n))
  · exact .right _ (.right _ (Nat.lt_succ_self _))

def valueEntries (table : Table) (depth : Nat) (done : Entries)
    (entries : List (Linked × Linked)) : Following Entries :=
  match entries with
  | [] => pure done
  | (k, n) :: rest => do
    let key ← keyOf table k
    let v ← value table depth n
    valueEntries table depth (Entries.insert key v done) rest
termination_by (depth, 2, entries.length)
decreasing_by
  · exact .right _ (.left _ _ (rank_lt_two n))
  · exact .right _ (.right _ (Nat.lt_succ_self _))

end

end Linked

def nestingLimit : Nat := 128

/-- Aliases may be followed a hundred times for every place of the text. -/
def followingLimit (node : Linked) : Nat := 100 * node.size

def valueOf (node : Node) : Option Value := do
  let linking ← node.link []
  let run := linking.linked.value linking.numbered nestingLimit
  (run (followingLimit linking.linked)).map Prod.fst

/-- The value that a text denotes, or nothing for a text that is malformed, holds more than one
document, or says something that a tree value cannot say. -/
def read? (text : String) : Option Value := do
  let tokens ← tokens? text
  match ← Node.ofTokens? tokens with
  | none => some .null
  | some node => valueOf node

end StyleLayers.Yaml
