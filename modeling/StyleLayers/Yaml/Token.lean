import StyleLayers.Yaml.Source
import StyleLayers.Yaml.Tag

/-!
The tokens of YAML text, and the reading of those that stand on one line: directives, anchors and
tags.
-/

namespace StyleLayers.Yaml

inductive Token where
  | versionDirective (major minor : Nat)
  | tagDirective (handle : String) (start : Tag)
  | documentStart
  | documentEnd
  | blockSequenceStart
  | blockMappingStart
  | blockEnd
  | flowSequenceStart
  | flowSequenceEnd
  | flowMappingStart
  | flowMappingEnd
  | blockEntry
  | flowEntry
  | key
  | value
  | reference (name : String)
  | anchor (name : String)
  | tag (handle : String) (suffix : Tag)
  | scalar (text : String) (plain : Bool)
  deriving DecidableEq, Repr

def isWordChar (c : Char) : Bool := c.isAlphanum || c = '_' || c = '-'

def readName (s : Source) : Option (String × Source) :=
  let (name, rest) := s.spanChars isWordChar
  if name ≠ [] ∧ (rest.endsWord ∨ rest.startsWith fun c => c ∈ "?:,]\x7d%@`".toList) then
    some (String.ofList name, rest)
  else none

def digitsValue (ds : List Char) : Nat := ds.foldl (fun n c => 10 * n + (c.toNat - '0'.toNat)) 0

def readVersionPart (s : Source) : Option (Nat × Source) :=
  let (ds, rest) := s.spanChars Char.isDigit
  if ds ≠ [] ∧ ds.length ≤ 9 then some (digitsValue ds, rest) else none

def dropBlanks (s : Source) : Source := s.dropWhile fun l => isBlank l.char

def readVersion (s : Source) : Option (Token × Source) := do
  let (major, rest) ← readVersionPart (dropBlanks s)
  match rest with
  | l :: rest =>
    if l.char = '.' then
      let (minor, rest) ← readVersionPart rest
      some (.versionDirective major minor, rest)
    else none
  | [] => none

/-- A `!`, a word and, if it is there, another `!`. -/
def readHandle : Source → Option (String × Source)
  | l :: rest =>
    if l.char = '!' then
      let (word, rest) := Source.spanChars isWordChar rest
      match rest with
      | m :: after =>
        if m.char = '!' then some (String.ofList ('!' :: word ++ ['!']), after)
        else some (String.ofList ('!' :: word), rest)
      | [] => some (String.ofList ('!' :: word), rest)
    else none
  | [] => none

def hexValue (c : Char) : Option Nat :=
  let n := c.toNat
  if c.isDigit then some (n - '0'.toNat)
  else if 'a'.toNat ≤ n ∧ n ≤ 'f'.toNat then some (n - 'a'.toNat + 10)
  else if 'A'.toNat ≤ n ∧ n ≤ 'F'.toNat then some (n - 'A'.toNat + 10)
  else none

def isUriChar (verbatim : Bool) (c : Char) : Bool :=
  isWordChar c || c ∈ ";/?:@&=+$.!~*'()".toList || (verbatim && c ∈ ",[]".toList)

/-- The bytes of a tag with its percent escapes resolved, last first in `read`. `pending` says how
many bytes of a character are still to come. -/
def readUri (verbatim : Bool) (read : Tag) (pending : Nat) : Source → Option (Tag × Source)
  | p :: h :: l :: rest =>
    if p.char = '%' then
      match hexValue h.char, hexValue l.char with
      | some high, some low =>
        let byte := UInt8.ofNat (16 * high + low)
        match Tag.pendingAfter pending byte with
        | some pending => readUri verbatim (byte :: read) pending rest
        | none => none
      | _, _ => none
    else if pending ≠ 0 then none
    else if isUriChar verbatim p.char then
      readUri verbatim (p.char.toUInt8 :: read) 0 (h :: l :: rest)
    else some (read.reverse, p :: h :: l :: rest)
  | p :: rest =>
    if p.char = '%' ∨ pending ≠ 0 then none
    else if isUriChar verbatim p.char then readUri verbatim (p.char.toUInt8 :: read) 0 rest
    else some (read.reverse, p :: rest)
  | [] => if pending ≠ 0 then none else some (read.reverse, [])

def isFullHandle (handle : String) : Bool :=
  2 ≤ handle.length && handle.toList.getLast? == some '!'

/-- A tag is verbatim between `!<` and `>`, or has a handle of its own, or the handle `!`. A lone
`!` is a tag by itself. -/
def readTagText (s : Source) : Option (Token × Source) :=
  match s with
  | _ :: l :: rest =>
    if l.char = '<' then do
      let (uri, rest) ← readUri true [] 0 rest
      match rest with
      | m :: rest =>
        if uri ≠ [] ∧ m.char = '>' then some (.tag "" (Tag.untilNul uri), rest) else none
      | [] => none
    else withHandle s
  | _ => withHandle s
where
  withHandle (s : Source) : Option (Token × Source) := do
    let (handle, rest) ← readHandle s
    let (uri, rest) ← readUri false [] 0 rest
    if isFullHandle handle then
      if uri = [] then none else some (.tag handle (Tag.untilNul uri), rest)
    else
      let suffix := Tag.untilNul (Tag.ofText (String.ofList (handle.toList.drop 1)) ++ uri)
      if suffix = [] then some (.tag "" .nonSpecific, rest) else some (.tag "!" suffix, rest)

def readTag (inFlow : Bool) (s : Source) : Option (Token × Source) := do
  let (t, rest) ← readTagText s
  if rest.endsWord ∨ (inFlow ∧ rest.startsWith (· = ',')) then some (t, rest) else none

def readTagDirective (s : Source) : Option (Token × Source) := do
  let (handle, rest) ← readHandle (dropBlanks s)
  if (isFullHandle handle ∨ handle = "!") ∧ rest.startsWith isBlank then
    let (uri, rest) ← readUri true [] 0 (dropBlanks rest)
    if uri ≠ [] ∧ rest.endsWord then some (.tagDirective handle (Tag.untilNul uri), rest) else none
  else none

def readDirective (s : Source) : Option (Token × Source) := do
  let (name, rest) := s.spanChars isWordChar
  if !rest.endsWord then none
  let (t, rest) ←
    if name = "YAML".toList then readVersion rest
    else if name = "TAG".toList then readTagDirective rest
    else none
  let rest ← rest.afterLine?
  some (t, rest)

end StyleLayers.Yaml
