import StyleLayers.Yaml.Layout

/-!
The node that the tokens of a document describe: scalars, sequences, mappings and aliases, with the
anchors and tags that stand before them.
-/

namespace StyleLayers.Yaml

structure Properties where
  anchor : Option String := none
  tag : Option Tag := none
  deriving DecidableEq, Repr

inductive Node where
  | scalar (properties : Properties) (text : String) (plain : Bool)
  | sequence (properties : Properties) (items : List Node)
  | mapping (properties : Properties) (entries : List (Node × Node))
  | reference (name : String)
  deriving Repr

namespace Node

def empty : Node := scalar {} "" true

abbrev Handles := List (String × Tag)

def defaultHandles : Handles := [("!", .nonSpecific), ("!!", Tag.coreStart)]

def tagOf (handles : Handles) (handle : String) (suffix : Tag) : Option Tag :=
  if handle = "" then some suffix else (handles.lookup handle).map (· ++ suffix)

def readProperties (handles : Handles) : List Token → Option (Properties × List Token)
  | .anchor a :: .tag h s :: rest => do some (⟨some a, some (← tagOf handles h s)⟩, rest)
  | .tag h s :: .anchor a :: rest => do some (⟨some a, some (← tagOf handles h s)⟩, rest)
  | .anchor a :: rest => some (⟨some a, none⟩, rest)
  | .tag h s :: rest => do some (⟨none, some (← tagOf handles h s)⟩, rest)
  | rest => some ({}, rest)

def startsWithAny (marks : List Token) : List Token → Bool
  | t :: _ => t ∈ marks
  | [] => false

def afterComma : List Token → Option (List Token)
  | .flowEntry :: rest => some rest
  | _ => none

mutual

/-- A node and the tokens after it. The first argument bounds how many tokens are looked at. -/
def read (handles : Handles) (inBlock indentless : Bool) :
    Nat → List Token → Option (Node × List Token)
  | 0, _ => none
  | _ + 1, .reference name :: rest => some (reference name, rest)
  | fuel + 1, tokens => do
    let (p, tokens) ← readProperties handles tokens
    match tokens, inBlock, indentless with
    | .scalar text plain :: rest, _, _ => some (scalar p text plain, rest)
    | .flowSequenceStart :: rest, _, _ =>
      let (items, rest) ← readFlowItems handles true fuel rest
      some (sequence p items, rest)
    | .flowMappingStart :: rest, _, _ =>
      let (entries, rest) ← readFlowEntries handles true fuel rest
      some (mapping p entries, rest)
    | .blockSequenceStart :: rest, true, _ =>
      let (items, rest) ← readBlockItems handles fuel rest
      some (sequence p items, rest)
    | .blockMappingStart :: rest, true, _ =>
      let (entries, rest) ← readBlockEntries handles fuel rest
      some (mapping p entries, rest)
    | .blockEntry :: _, _, true =>
      let (items, rest) ← readIndentlessItems handles fuel tokens
      some (sequence p items, rest)
    | _, _, _ => if p = {} then none else some (scalar p "" true, tokens)

def readOptional (handles : Handles) (inBlock indentless : Bool) (ends : List Token) :
    Nat → List Token → Option (Node × List Token)
  | 0, _ => none
  | fuel + 1, tokens =>
    if startsWithAny ends tokens then some (empty, tokens)
    else read handles inBlock indentless fuel tokens

def readBlockItems (handles : Handles) : Nat → List Token → Option (List Node × List Token)
  | 0, _ => none
  | _ + 1, .blockEnd :: rest => some ([], rest)
  | fuel + 1, .blockEntry :: rest => do
    let (item, rest) ← readOptional handles true false [.blockEntry, .blockEnd] fuel rest
    let (items, rest) ← readBlockItems handles fuel rest
    some (item :: items, rest)
  | _ + 1, _ => none

def readIndentlessItems (handles : Handles) : Nat → List Token → Option (List Node × List Token)
  | 0, _ => none
  | fuel + 1, .blockEntry :: rest => do
    let (item, rest) ←
      readOptional handles true false [.blockEntry, .key, .value, .blockEnd] fuel rest
    let (items, rest) ← readIndentlessItems handles fuel rest
    some (item :: items, rest)
  | _ + 1, tokens => some ([], tokens)

def readValue (handles : Handles) (inBlock : Bool) (ends : List Token) :
    Nat → List Token → Option (Node × List Token)
  | 0, _ => none
  | fuel + 1, .value :: rest => readOptional handles inBlock inBlock ends fuel rest
  | _ + 1, tokens => some (empty, tokens)

def readBlockEntries (handles : Handles) :
    Nat → List Token → Option (List (Node × Node) × List Token)
  | 0, _ => none
  | _ + 1, .blockEnd :: rest => some ([], rest)
  | fuel + 1, .key :: rest => do
    let ends := [.key, .value, .blockEnd]
    let (key, rest) ← readOptional handles true true ends fuel rest
    let (value, rest) ← readValue handles true ends fuel rest
    let (entries, rest) ← readBlockEntries handles fuel rest
    some ((key, value) :: entries, rest)
  | _ + 1, _ => none

/-- A marked key in a flow sequence is a mapping of one entry. A token that stands where the key is
missing is left out. -/
def readFlowPair (handles : Handles) : Nat → List Token → Option (Node × List Token)
  | 0, _ => none
  | fuel + 1, tokens => do
    let (key, rest) ←
      if startsWithAny [.value, .flowEntry, .flowSequenceEnd] tokens then
        some (empty, tokens.drop 1)
      else read handles false false fuel tokens
    let (value, rest) ← readValue handles false [.flowEntry, .flowSequenceEnd] fuel rest
    some (mapping {} [(key, value)], rest)

def readFlowItem (handles : Handles) : Nat → List Token → Option (Node × List Token)
  | 0, _ => none
  | fuel + 1, .key :: rest => readFlowPair handles fuel rest
  | fuel + 1, tokens => read handles false false fuel tokens

def readFlowItems (handles : Handles) (first : Bool) :
    Nat → List Token → Option (List Node × List Token)
  | 0, _ => none
  | _ + 1, .flowSequenceEnd :: rest => some ([], rest)
  | fuel + 1, tokens => do
    let tokens ← if first then some tokens else afterComma tokens
    match tokens with
    | .flowSequenceEnd :: rest => some ([], rest)
    | _ =>
      let (item, rest) ← readFlowItem handles fuel tokens
      let (items, rest) ← readFlowItems handles false fuel rest
      some (item :: items, rest)

def readFlowEntry (handles : Handles) : Nat → List Token → Option ((Node × Node) × List Token)
  | 0, _ => none
  | fuel + 1, .key :: rest => do
    let (key, rest) ←
      readOptional handles false false [.value, .flowEntry, .flowMappingEnd] fuel rest
    let (value, rest) ← readValue handles false [.flowEntry, .flowMappingEnd] fuel rest
    some ((key, value), rest)
  | fuel + 1, tokens => do
    let (key, rest) ← read handles false false fuel tokens
    some ((key, empty), rest)

def readFlowEntries (handles : Handles) (first : Bool) :
    Nat → List Token → Option (List (Node × Node) × List Token)
  | 0, _ => none
  | _ + 1, .flowMappingEnd :: rest => some ([], rest)
  | fuel + 1, tokens => do
    let tokens ← if first then some tokens else afterComma tokens
    match tokens with
    | .flowMappingEnd :: rest => some ([], rest)
    | _ =>
      let (entry, rest) ← readFlowEntry handles fuel tokens
      let (entries, rest) ← readFlowEntries handles false fuel rest
      some (entry :: entries, rest)

end

/-- Every token is looked at by at most three readers before it is taken. -/
def bound (tokens : List Token) : Nat := 4 * tokens.length + 4

structure Directives where
  version : Bool := false
  handles : Handles := []

/-- Directives up to the start of the document. The version has to be 1.1 or 1.2 and given once, and
each handle is declared at most once. -/
def readDirectives (d : Directives) : List Token → Option (Directives × List Token)
  | .versionDirective major minor :: rest =>
    if !d.version ∧ major = 1 ∧ (minor = 1 ∨ minor = 2) then
      readDirectives { d with version := true } rest
    else none
  | .tagDirective handle start :: rest =>
    if (d.handles.lookup handle).isSome then none
    else readDirectives { d with handles := d.handles ++ [(handle, start)] } rest
  | .documentStart :: rest => some ({ d with handles := d.handles ++ defaultHandles }, rest)
  | _ => none

def startsExplicitly : List Token → Bool
  | .versionDirective _ _ :: _ => true
  | .tagDirective _ _ :: _ => true
  | .documentStart :: _ => true
  | _ => false

def startsNode : List Token → Bool
  | [] => false
  | .documentEnd :: _ => false
  | tokens => !startsExplicitly tokens

def readDocument (tokens : List Token) : Option (Node × List Token) :=
  if startsExplicitly tokens then do
    let (d, rest) ← readDirectives {} tokens
    if startsNode rest then read d.handles true false (bound rest) rest
    else some (empty, rest)
  else read defaultHandles true false (bound tokens) tokens

def isDocumentEnd (t : Token) : Bool := t = .documentEnd

def ofTokens? : List Token → Option (Option Node)
  | [] => some none
  | tokens => do
    let (node, rest) ← readDocument tokens
    if rest.all isDocumentEnd then some (some node) else none

end Node

end StyleLayers.Yaml
