import StyleLayers.Yaml.Scalar

/-!
Tokens of a whole text. Block collections are opened and closed by indentation, and a token that
turns out to be followed by a colon becomes a key after the fact.
-/

namespace StyleLayers.Yaml

structure PossibleKey where
  /-- The number of tokens before it. -/
  place : Nat
  start : Located
  /-- Whether it has to be a key, as the only thing that can stand at its column. -/
  required : Bool

structure Layout where
  rest : Source
  tokens : Array Token
  key : Option PossibleKey
  /-- The possible keys around the open flow collections, innermost first. -/
  outerKeys : List (Option PossibleKey)
  keyAllowed : Bool
  /-- The column of the innermost block collection. -/
  column : Int
  outerColumns : List Int

namespace Layout

def start (s : Source) : Layout := ⟨s, #[], none, [], true, -1, []⟩

def inFlow (s : Layout) : Bool := !s.outerKeys.isEmpty

def emit (s : Layout) (t : Token) : Layout := { s with tokens := s.tokens.push t }

def moveTo (s : Layout) (rest : Source) : Layout := { s with rest }

def allowKey (s : Layout) (allowed : Bool) : Layout := { s with keyAllowed := allowed }

/-- Gives up the possible key; fails when it is required. -/
def dropKey (s : Layout) : Option Layout :=
  if s.key.any PossibleKey.required then none else some { s with key := none }

def saveKey (s : Layout) (l : Located) : Option Layout :=
  if s.keyAllowed then do
    let s ← s.dropKey
    some { s with key := some ⟨s.tokens.size, l, !s.inFlow && s.column == l.column⟩ }
  else some s

/-- A key stands on one line, at most 1024 bytes before its colon. -/
def isStale (here : Located) (k : PossibleKey) : Bool :=
  k.start.line < here.line || k.start.offset + 1024 < here.offset

def withoutStale (here : Located) : Option PossibleKey → Option (Option PossibleKey)
  | some k => if isStale here k then if k.required then none else some none else some (some k)
  | none => some none

def dropStale (s : Layout) (here : Located) : Option Layout := do
  some { s with
    key := ← withoutStale here s.key
    outerKeys := ← s.outerKeys.mapM (withoutStale here) }

def closeFrom (column : Int) (s : Layout) : List Int → Layout
  | [] => { s with outerColumns := [] }
  | outer :: outers =>
    if column < s.column then closeFrom column { s.emit .blockEnd with column := outer } outers
    else { s with outerColumns := outer :: outers }

def closeTo (s : Layout) (column : Int) : Layout :=
  if s.inFlow then s else closeFrom column s s.outerColumns

/-- Opens a block collection at a column, unless one is open there. Its token goes to `place`. -/
def openAt (s : Layout) (column : Int) (place : Nat) (t : Token) : Layout :=
  if !s.inFlow && s.column < column then
    { s with
      tokens := s.tokens.insertIdxIfInBounds place t
      column := column
      outerColumns := s.column :: s.outerColumns }
  else s

def openHere (s : Layout) (l : Located) (t : Token) : Option Layout :=
  if s.inFlow then some s
  else if s.keyAllowed then some (s.openAt l.column s.tokens.size t)
  else none

/-- White space and comments. Outside flow collections a line break allows a key, and tabs only
count as white space where no key can start. -/
def skipSpacing (inFlow allowed inComment : Bool) : Source → Bool × Source
  | [] => (allowed, [])
  | l :: rest =>
    if isBreak l.char then skipSpacing inFlow (allowed || !inFlow) false rest
    else if inComment then skipSpacing inFlow allowed true rest
    else if l.char = ' ' || (l.char = '\t' && (inFlow || !allowed)) ||
        (l.char = '\uFEFF' && l.column = 0) then
      skipSpacing inFlow allowed false rest
    else if l.char = '#' then skipSpacing inFlow allowed true rest
    else (allowed, l :: rest)

def skip (s : Layout) : Layout :=
  let (allowed, rest) := skipSpacing s.inFlow s.keyAllowed false s.rest
  { s with rest, keyAllowed := allowed }

/-- Directives and the markers of documents close everything. -/
def closeAll (s : Layout) : Option Layout := do
  some ((← (s.closeTo (-1)).dropKey).allowKey false)

def directive (s : Layout) (rest : Source) : Option Layout := do
  let s ← s.closeAll
  let (t, rest) ← readDirective rest
  some ((s.emit t).moveTo rest)

def marker (s : Layout) (t : Token) : Option Layout := do
  let s ← s.closeAll
  some ((s.emit t).moveTo (s.rest.drop 3))

def openFlow (s : Layout) (l : Located) (rest : Source) (t : Token) : Option Layout := do
  let s ← s.saveKey l
  some ({ s with key := none, outerKeys := s.key :: s.outerKeys, keyAllowed := true }.emit t
    |>.moveTo rest)

def closeFlow (s : Layout) (rest : Source) (t : Token) : Option Layout := do
  let s ← s.dropKey
  let s := match s.outerKeys with
    | [] => s
    | key :: outer => { s with key, outerKeys := outer }
  some (((s.allowKey false).emit t).moveTo rest)

def flowEntry (s : Layout) (rest : Source) : Option Layout := do
  let s ← s.dropKey
  some (((s.allowKey true).emit .flowEntry).moveTo rest)

def blockEntry (s : Layout) (l : Located) (rest : Source) : Option Layout := do
  let s ← s.openHere l .blockSequenceStart
  let s ← s.dropKey
  some (((s.allowKey true).emit .blockEntry).moveTo rest)

def explicitKey (s : Layout) (l : Located) (rest : Source) : Option Layout := do
  let s ← s.openHere l .blockMappingStart
  let s ← s.dropKey
  some (((s.allowKey !s.inFlow).emit .key).moveTo rest)

/-- The value of the possible key, which thereby is one, or of a key that has been marked. -/
def value (s : Layout) (l : Located) (rest : Source) : Option Layout :=
  match s.key with
  | some k =>
    let s := { s with tokens := s.tokens.insertIdxIfInBounds k.place .key, key := none }
    let s := s.openAt k.start.column k.place .blockMappingStart
    some (((s.allowKey false).emit .value).moveTo rest)
  | none => do
    let s ← s.openHere l .blockMappingStart
    some (((s.allowKey !s.inFlow).emit .value).moveTo rest)

def named (s : Layout) (l : Located) (rest : Source) (t : String → Token) : Option Layout := do
  let s ← s.saveKey l
  let (name, rest) ← readName rest
  some (((s.allowKey false).emit (t name)).moveTo rest)

def tag (s : Layout) (l : Located) : Option Layout := do
  let s ← s.saveKey l
  let (t, rest) ← readTag s.inFlow s.rest
  some (((s.allowKey false).emit t).moveTo rest)

def block (s : Layout) (rest : Source) (folded : Bool) : Option Layout := do
  let s ← s.dropKey
  let (text, rest) ← readBlock folded s.column rest
  some (((s.allowKey true).emit (.scalar text false)).moveTo rest)

def quoted (s : Layout) (l : Located) (read : Option (String × Source)) : Option Layout := do
  let s ← s.saveKey l
  let (text, rest) ← read
  some (((s.allowKey false).emit (.scalar text false)).moveTo rest)

def plain (s : Layout) (l : Located) : Option Layout := do
  let s ← s.saveKey l
  let (text, broken, rest) ← readPlain s.inFlow (s.column + 1) [] .empty s.rest
  some (((s.allowKey broken).emit (.scalar text true)).moveTo rest)

def isIndicator (c : Char) : Bool := c ∈ "-?:,[]\x7b\x7d#&*!|>'\"%@`".toList

def startsPlain (inFlow : Bool) (c : Char) (rest : Source) : Bool :=
  (!isIndicator c && !isBlank c) || (c = '-' && !rest.startsWith isBlank) ||
    (!inFlow && (c = '?' || c = ':') && !rest.endsWord)

def next (s : Layout) (l : Located) (rest : Source) : Option Layout :=
  let c := l.char
  let flowOrEnd := s.inFlow || rest.endsWord
  if l.column = 0 ∧ c = '%' then s.directive rest
  else if Source.isMarkerOf '-' s.rest then s.marker .documentStart
  else if Source.isMarkerOf '.' s.rest then s.marker .documentEnd
  else if c = '[' then s.openFlow l rest .flowSequenceStart
  else if c = '\x7b' then s.openFlow l rest .flowMappingStart
  else if c = ']' then s.closeFlow rest .flowSequenceEnd
  else if c = '\x7d' then s.closeFlow rest .flowMappingEnd
  else if c = ',' then s.flowEntry rest
  else if c = '-' ∧ rest.endsWord then s.blockEntry l rest
  else if c = '?' ∧ flowOrEnd then s.explicitKey l rest
  else if c = ':' ∧ flowOrEnd then s.value l rest
  else if c = '*' then s.named l rest .reference
  else if c = '&' then s.named l rest .anchor
  else if c = '!' then s.tag l
  else if c = '|' ∧ !s.inFlow then s.block rest false
  else if c = '>' ∧ !s.inFlow then s.block rest true
  else if c = '\'' then s.quoted l (readSingleQuoted [] .empty rest)
  else if c = '"' then s.quoted l (readDoubleQuoted [] .empty .outside rest)
  else if startsPlain s.inFlow c rest then s.plain l
  else none

/-- Reads token after token, at most as many as the first argument says. -/
def run : Nat → Layout → Option (Array Token)
  | 0, _ => none
  | fuel + 1, s =>
    let here := s.skip
    match here.rest with
    | [] => do some (← (here.closeTo (-1)).dropKey).tokens
    | l :: rest => do
      let ready ← here.dropStale l
      run fuel (← (ready.closeTo l.column).next l rest)

end Layout

/-- Each token that is read takes at least one character. -/
def tokens? (text : String) : Option (List Token) := do
  let source ← Source.ofText? text.toList
  let tokens ← (Layout.start source).run (source.length + 1)
  some tokens.toList

end StyleLayers.Yaml
