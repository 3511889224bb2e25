import StyleLayers.Text.Blank
import StyleLayers.Json.Value

/-!
Variant lists: names of the modifiers that a group of rules is generated for, in order, without
empty names and without repetitions.
-/

namespace StyleLayers

structure Variants where
  names : List String
  nodup : names.Nodup
  empty_notMem : "" ∉ names
  deriving DecidableEq, Repr

namespace Variants

def empty : Variants := ⟨[], List.nodup_nil, List.not_mem_nil⟩

instance : Inhabited Variants := ⟨empty⟩

instance : Membership String Variants := ⟨fun l name => name ∈ l.names⟩

instance (name : String) (l : Variants) : Decidable (name ∈ l) :=
  inferInstanceAs (Decidable (name ∈ l.names))

theorem mem_iff {name : String} {l : Variants} : name ∈ l ↔ name ∈ l.names := Iff.rfl

theorem ext {l m : Variants} (h : l.names = m.names) : l = m := by
  cases l
  cases m
  simp_all

def Accepts (l : Variants) (name : String) : Prop := name ≠ "" ∧ name ∉ l

instance (l : Variants) (name : String) : Decidable (l.Accepts name) :=
  inferInstanceAs (Decidable (name ≠ "" ∧ name ∉ l))

theorem nodup_insertion {before after : List String} {name : String}
    (h : (before ++ after).Nodup) (absent : name ∉ before ++ after) :
    (before ++ name :: after).Nodup := by
  rw [List.nodup_append] at h ⊢
  simp only [List.mem_append, not_or] at absent
  refine ⟨h.1, List.nodup_cons.2 ⟨absent.2, h.2.1⟩, ?_⟩
  intro a ha b hb
  rcases List.mem_cons.1 hb with rfl | hb
  · rintro rfl
    exact absent.1 ha
  · exact h.2.2 a ha b hb

def insertAt (l : Variants) (i : Nat) (name : String) (h : l.Accepts name) : Variants where
  names := l.names.take i ++ name :: l.names.drop i
  nodup := nodup_insertion (by simpa using l.nodup) (by simpa [mem_iff] using h.2)
  empty_notMem := by
    intro mem
    rcases List.mem_append.1 mem with mem | mem
    · exact l.empty_notMem (List.mem_of_mem_take mem)
    · rcases List.mem_cons.1 mem with mem | mem
      · exact h.1 mem.symm
      · exact l.empty_notMem (List.mem_of_mem_drop mem)

def push (l : Variants) (name : String) : Variants :=
  if h : l.Accepts name then l.insertAt l.names.length name h else l

def pushAll (l : Variants) (names : List String) : Variants := names.foldl push l

def ofList (names : List String) : Variants := empty.pushAll names

def insertAllAt (l : Variants) (i : Nat) : List String → Variants
  | [] => l
  | name :: names =>
    if h : l.Accepts name then (l.insertAt i name h).insertAllAt (i + 1) names
    else l.insertAllAt i names

def without (l : Variants) (names : List String) : Variants where
  names := l.names.filter (· ∉ names)
  nodup := l.nodup.filter _
  empty_notMem mem := l.empty_notMem (List.mem_filter.1 mem).1

def position? (l : Variants) (name : String) : Option Nat := l.names.idxOf? name

def parse (text : String) : Variants :=
  ofList ((text.toList.splitOn ',').map fun piece => String.ofList (Text.trim piece))

/-- The strings of an array; no names for any other value. -/
def ofValue : Value → Variants
  | .array items => ofList (items.filterMap Value.string?)
  | _ => empty

def toValue (l : Variants) : Value := .array (l.names.map .string)

def params (l : Variants) : String := ", ".intercalate l.names

def marker (l : Variants) : String :=
  if l.names = [] then "@variants" else "@variants " ++ l.params

end Variants

end StyleLayers
