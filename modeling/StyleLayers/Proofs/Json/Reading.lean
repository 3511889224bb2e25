import StyleLayers.Json.Reader
import StyleLayers.Proofs.Json.Keys

/-!
Values read from JSON text have no key twice: a key that comes again in a mapping sets the entry
that it has.
-/

namespace StyleLayers.Json

namespace Token

def Distinct (t : Token) : Prop := ∀ v, t = scalar v → v.UniqueKeys

def AllDistinct (read : Option (List Token)) : Prop := ∀ ts, read = some ts → ∀ t ∈ ts, t.Distinct

theorem allDistinct_none : AllDistinct none := by
  intro ts impossible
  cases impossible

theorem allDistinct_map_cons (t : Token) (read : Option (List Token)) (first : t.Distinct)
    (rest : AllDistinct read) : AllDistinct (read.map (t :: ·)) := by
  intro ts found other member
  obtain ⟨others, behind, rfl⟩ := Option.map_eq_some_iff.mp found
  rcases List.mem_cons.mp member with rfl | member
  · exact first
  · exact rest others behind other member

theorem allDistinct_bind {α : Type} (x : Option α) (f : α → Option (List Token))
    (each : ∀ a, x = some a → AllDistinct (f a)) : AllDistinct (x.bind f) := by
  intro ts found
  obtain ⟨a, chosen, found⟩ := Option.bind_eq_some_iff.mp found
  exact each a chosen ts found

theorem ofMark_distinct (c : Char) (t : Token) (mark : ofMark c = some t) : t.Distinct := by
  rintro v rfl
  unfold ofMark at mark
  repeat' split at mark
  all_goals cases mark

theorem ofWord_distinct (cs : List Char) (t : Token) (word : ofWord cs = some t) :
    t.Distinct := by
  rintro v rfl
  unfold ofWord at word
  repeat' split at word
  · cases word
    trivial
  · cases word
    trivial
  · cases word
    trivial
  · obtain ⟨n, _, same⟩ := Option.map_eq_some_iff.mp word
    cases same
    trivial

theorem string_distinct (text : String) : (scalar (.string text)).Distinct := by
  intro v same
  cases same
  trivial

mutual

theorem tokens_distinct (cs : List Char) : AllDistinct (tokens cs) := by
  unfold tokens
  split
  · intro ts found t member
    cases found
    cases member
  · next c rest =>
    split
    · exact tokens_distinct rest
    · split
      · exact afterQuote_distinct [] rest
      · split
        · next t mark =>
          exact allDistinct_map_cons t _ (ofMark_distinct c t mark) (tokens_distinct rest)
        · exact inWord_distinct [c] rest
termination_by cs.length

theorem inWord_distinct (read cs : List Char) : AllDistinct (inWord read cs) := by
  unfold inWord
  split
  · intro ts found t member
    obtain ⟨w, word, rfl⟩ := Option.map_eq_some_iff.mp found
    rw [List.mem_singleton.mp member]
    exact ofWord_distinct _ w word
  · next c rest =>
    split
    · apply allDistinct_bind
      intro w word
      exact allDistinct_map_cons w _ (ofWord_distinct _ w word) (tokens_distinct rest)
    · split
      · apply allDistinct_bind
        intro w word
        exact allDistinct_map_cons w _ (ofWord_distinct _ w word) (afterQuote_distinct [] rest)
      · split
        · next t mark =>
          apply allDistinct_bind
          intro w word
          have behind := allDistinct_map_cons t _ (ofMark_distinct c t mark) (tokens_distinct rest)
          have both := allDistinct_map_cons w _ (ofWord_distinct _ w word) behind
          rwa [Option.map_map] at both
        · exact inWord_distinct (c :: read) rest
termination_by cs.length

theorem afterQuote_distinct (read cs : List Char) : AllDistinct (afterQuote read cs) := by
  unfold afterQuote
  split
  · next rest => exact allDistinct_map_cons _ _ (string_distinct _) (tokens_distinct rest)
  · next a b c d rest =>
    split
    · exact allDistinct_none
    · split
      · split
        · split
          · exact allDistinct_none
          · split
            · exact afterQuote_distinct _ _
            · exact allDistinct_none
        · exact allDistinct_none
      · split
        · exact allDistinct_none
        · exact afterQuote_distinct _ rest
  · apply allDistinct_bind
    intro escaped _
    exact afterQuote_distinct _ _
  · split
    · exact allDistinct_none
    · exact afterQuote_distinct _ _
  · exact allDistinct_none
termination_by cs.length

end

end Token

def Container.Distinct : Container → Prop
  | .array items => ∀ v ∈ items, v.UniqueKeys
  | .object entries => (Value.object entries).UniqueKeys
  | .entry entries _ => (Value.object entries).UniqueKeys

namespace Reader

structure Distinct (r : Reader) : Prop where
  opened : ∀ container ∈ r.opened, container.Distinct
  complete : ∀ v, r.expected = .nothing v → v.UniqueKeys

theorem distinct_cons (container : Container) (outer : List Container) (expected : Expected)
    (first : container.Distinct) (rest : ∀ other ∈ outer, other.Distinct)
    (unfinished : ∀ v, expected ≠ .nothing v) : Distinct ⟨container :: outer, expected⟩ := by
  constructor
  · exact List.forall_mem_cons.mpr ⟨first, rest⟩
  · intro v impossible
    exact absurd impossible (unfinished v)

theorem place_distinct (opened : List Container) (v : Value) (r : Reader)
    (distinct : ∀ container ∈ opened, container.Distinct) (unique : v.UniqueKeys)
    (placed : place opened v = some r) : r.Distinct := by
  rcases opened with _ | ⟨_ | _ | _, outer⟩
  · cases placed
    constructor
    · exact distinct
    · intro other same
      cases same
      exact unique
  all_goals obtain ⟨first, rest⟩ := List.forall_mem_cons.mp distinct
  · next items =>
    cases placed
    apply distinct_cons
    · intro item member
      rcases List.mem_append.mp member with earlier | last
      · exact first item earlier
      · rwa [List.mem_singleton.mp last]
    · exact rest
    · exact nofun
  · cases placed
  · next entries key =>
    cases placed
    apply distinct_cons
    · exact Value.uniqueKeys_insert entries key v first unique
    · exact rest
    · exact nofun

theorem close_distinct (opened : List Container) (t : Token) (r : Reader)
    (distinct : ∀ container ∈ opened, container.Distinct) (closed : close opened t = some r) :
    r.Distinct := by
  unfold close at closed
  split at closed
  · split at closed
    · next items outer =>
      obtain ⟨first, rest⟩ := List.forall_mem_cons.mp distinct
      have unique : (Value.array items).UniqueKeys := (Value.uniqueKeysItems_iff items).mpr first
      exact place_distinct outer _ r rest unique closed
    · cases closed
  · split at closed
    · next entries outer =>
      obtain ⟨first, rest⟩ := List.forall_mem_cons.mp distinct
      exact place_distinct outer _ r rest first closed
    · cases closed
  · cases closed

theorem startValue_distinct (limit : Nat) (opened : List Container) (t : Token) (r : Reader)
    (distinct : ∀ container ∈ opened, container.Distinct) (scalar : t.Distinct)
    (started : startValue limit opened t = some r) : r.Distinct := by
  unfold startValue at started
  split at started
  · next v => exact place_distinct opened v r distinct (scalar v rfl) started
  · split at started
    · cases started
      exact distinct_cons _ _ _ nofun distinct nofun
    · cases started
  · split at started
    · cases started
      exact distinct_cons _ _ _ ⟨List.nodup_nil, trivial⟩ distinct nofun
    · cases started
  · cases started

theorem startKey_distinct (opened : List Container) (t : Token) (r : Reader)
    (distinct : ∀ container ∈ opened, container.Distinct)
    (started : startKey opened t = some r) : r.Distinct := by
  unfold startKey at started
  split at started
  · split at started
    · cases started
      obtain ⟨first, rest⟩ := List.forall_mem_cons.mp distinct
      exact distinct_cons _ _ _ first rest nofun
    · cases started
  · cases started

theorem step_distinct (limit : Nat) (r next : Reader) (t : Token) (distinct : r.Distinct)
    (scalar : t.Distinct) (stepped : step limit r t = some next) : next.Distinct := by
  have inside := distinct.opened
  unfold step at stepped
  split at stepped
  · exact startValue_distinct limit r.opened t next inside scalar stepped
  · split at stepped
    · exact close_distinct r.opened _ next inside stepped
    · exact startValue_distinct limit r.opened t next inside scalar stepped
  · split at stepped
    · exact close_distinct r.opened _ next inside stepped
    · exact startKey_distinct r.opened t next inside stepped
  · exact startKey_distinct r.opened t next inside stepped
  · split at stepped
    · cases stepped
      exact ⟨inside, nofun⟩
    · cases stepped
  · split at stepped
    · split at stepped
      · cases stepped
        exact ⟨inside, nofun⟩
      · cases stepped
        exact ⟨inside, nofun⟩
      · cases stepped
    · exact close_distinct r.opened t next inside stepped
  · cases stepped

theorem run_distinct (limit : Nat) (tokens : List Token) (r last : Reader)
    (scalars : ∀ t ∈ tokens, t.Distinct) (distinct : r.Distinct)
    (ran : tokens.foldlM (step limit) r = some last) : last.Distinct := by
  induction tokens generalizing r with
  | nil =>
    cases ran
    exact distinct
  | cons t rest ih =>
    rw [List.foldlM_cons] at ran
    obtain ⟨next, stepped, ran⟩ := Option.bind_eq_some_iff.mp ran
    obtain ⟨first, later⟩ := List.forall_mem_cons.mp scalars
    exact ih next later (step_distinct limit r next t distinct first stepped) ran

end Reader

theorem read?_uniqueKeys (limit : Nat) (text : String) (v : Value)
    (readable : read? limit text = some v) : v.UniqueKeys := by
  obtain ⟨tokens, split, readable⟩ := Option.bind_eq_some_iff.mp readable
  obtain ⟨r, ran, readable⟩ := Option.bind_eq_some_iff.mp readable
  have scalars := Token.tokens_distinct text.toList tokens split
  have start : Reader.Distinct ⟨[], .value⟩ := by
    constructor
    · intro container impossible
      cases impossible
    · intro v impossible
      cases impossible
  have distinct := Reader.run_distinct limit tokens _ r scalars start ran
  cases shape : r.expected with
  | nothing w =>
    rw [shape] at readable
    cases readable
    exact distinct.complete v shape
  | _ =>
    rw [shape] at readable
    cases readable

end StyleLayers.Json
