import StyleLayers.Json.Token

/-!
Reading a value from the tokens of a JSON text. The reader keeps the containers that are open,
innermost first, and what may come next; a text nests at most as deep as its limit says.
-/

namespace StyleLayers.Json

/-- A container that is still open, with what it holds so far. -/
inductive Container where
  | array (items : List Value)
  | object (entries : Entries)
  /-- A mapping whose entry `key` waits for its value. -/
  | entry (entries : Entries) (key : String)

inductive Expected where
  | value
  /-- The first item of an array, or its end. -/
  | firstItem
  /-- The first key of a mapping, or its end. -/
  | firstKey
  | key
  | colon
  /-- A comma or the end of the innermost container. -/
  | more
  /-- Nothing: the value is complete. -/
  | nothing (value : Value)

structure Reader where
  opened : List Container
  expected : Expected

namespace Reader

def place (opened : List Container) (v : Value) : Option Reader :=
  match opened with
  | [] => some ⟨[], .nothing v⟩
  | .array items :: outer => some ⟨.array (items ++ [v]) :: outer, .more⟩
  | .entry entries key :: outer => some ⟨.object (entries.insert key v) :: outer, .more⟩
  | .object _ :: _ => none

def close (opened : List Container) : Token → Option Reader
  | .closeArray => match opened with
    | .array items :: outer => place outer (.array items)
    | _ => none
  | .closeObject => match opened with
    | .object entries :: outer => place outer (.object entries)
    | _ => none
  | _ => none

def startValue (limit : Nat) (opened : List Container) : Token → Option Reader
  | .scalar v => place opened v
  | .openArray =>
    if opened.length < limit then some ⟨.array [] :: opened, .firstItem⟩ else none
  | .openObject =>
    if opened.length < limit then some ⟨.object [] :: opened, .firstKey⟩ else none
  | _ => none

def startKey (opened : List Container) : Token → Option Reader
  | .scalar (.string key) => match opened with
    | .object entries :: outer => some ⟨.entry entries key :: outer, .colon⟩
    | _ => none
  | _ => none

def step (limit : Nat) (r : Reader) (t : Token) : Option Reader :=
  match r.expected with
  | .value => startValue limit r.opened t
  | .firstItem => match t with
    | .closeArray => close r.opened t
    | _ => startValue limit r.opened t
  | .firstKey => match t with
    | .closeObject => close r.opened t
    | _ => startKey r.opened t
  | .key => startKey r.opened t
  | .colon => match t with
    | .colon => some ⟨r.opened, .value⟩
    | _ => none
  | .more => match t with
    | .comma => match r.opened with
      | .array _ :: _ => some ⟨r.opened, .value⟩
      | .object _ :: _ => some ⟨r.opened, .key⟩
      | _ => none
    | _ => close r.opened t
  | .nothing _ => none

end Reader

def read? (limit : Nat) (text : String) : Option Value := do
  let tokens ← Token.tokens text.toList
  let r ← tokens.foldlM (Reader.step limit) ⟨[], .value⟩
  match r.expected with
  | .nothing v => some v
  | _ => none

def nestingLimit : Nat := 127

end StyleLayers.Json
