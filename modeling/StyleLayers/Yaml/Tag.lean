/-!
Tags of nodes, byte by byte: percent escapes can put bytes into a tag that are no UTF-8 text.
-/

namespace StyleLayers.Yaml

abbrev Tag := List UInt8

namespace Tag

def ofText (s : String) : Tag := s.toUTF8.toList

def coreStart : Tag := ofText "tag:yaml.org,2002:"

def core (name : String) : Tag := coreStart ++ ofText name

/-- A tag ends in front of a NUL byte. -/
def untilNul (t : Tag) : Tag := t.takeWhile (· ≠ 0)

/-- The tag `!` alone. Every local tag starts with it. -/
def nonSpecific : Tag := ofText "!"

def isText (t : Tag) : Bool := ByteArray.validateUTF8 ⟨t.toArray⟩

def startsLocally (t : Tag) : Bool := t.head? == some '!'.toUInt8

/-- A local tag asks for a type of its own. One that is no text names none and does not count. -/
def isLocal (t : Tag) : Bool := t.startsLocally && t.isText

def announced (byte : UInt8) : Option Nat :=
  if byte < 0x80 then some 0
  else if byte < 0xC0 then none
  else if byte < 0xE0 then some 1
  else if byte < 0xF0 then some 2
  else if byte < 0xF8 then some 3
  else none

/-- How many bytes of a character are to come after `byte`, when `pending` were to come before. -/
def pendingAfter (pending : Nat) (byte : UInt8) : Option Nat :=
  match pending with
  | 0 => announced byte
  | more + 1 => if 0x80 ≤ byte ∧ byte < 0xC0 then some more else none

end Tag

end StyleLayers.Yaml
