import StyleLayers.Proofs.Variant.Inserting

/-!
Variant lists as bare lists of names, and the ways to build and to change them. Nothing in a bare
list keeps names apart; still every list that comes about is a variant list, since each way to
build or to change one looks for what is there already.
-/

namespace StyleLayers

namespace Names

def pushed (names : List String) (name : String) : Bool × List String :=
  if name = "" ∨ name ∈ names then (false, names) else (true, names ++ [name])

def pushedAll (names given : List String) : List String :=
  given.foldl (fun names name => (pushed names name).2) names

def collected (given : List String) : List String := pushedAll [] given

def insertedFrom (names : List String) (place : Nat) : List String → List String
  | [] => names
  | name :: rest =>
    if name = "" ∨ name ∈ names then insertedFrom names place rest
    else insertedFrom (names.insertIdx place name) (place + 1) rest

/-- A place beyond the end is the end. -/
def insertedAt (names : List String) (place : Nat) (given : List String) : List String :=
  insertedFrom names (min place names.length) given

def edited (names : List String) : VariantEdit → List String
  | .without given => names.filter (· ∉ given)
  | .extend given => pushedAll names given
  | .before given anchor => insertedAt names ((anchor.bind (names.idxOf? ·)).getD 0) given
  | .after given anchor =>
    insertedAt names (((anchor.bind (names.idxOf? ·)).map (· + 1)).getD names.length) given

def read (text : String) : List String :=
  collected ((text.toList.splitOn ',').map fun piece => String.ofList (Text.trim piece))

def written (names : List String) : String := ", ".intercalate names

end Names

namespace Variants

inductive Origin where
  | nothing
  | text (params : String)
  | value (v : Value)
  | strings (given : List String)

inductive Change where
  | push (name : String)
  | edit (e : VariantEdit)
  /-- Writes the list as text and reads it again. -/
  | reread

def Origin.names : Origin → List String
  | nothing => []
  | text params => Names.read params
  | value (.array items) => Names.collected (items.filterMap Value.string?)
  | value _ => []
  | strings given => Names.collected given

def Origin.list : Origin → Variants
  | nothing => .empty
  | text params => parse params
  | value v => ofValue v
  | strings given => ofList given

def Change.onNames (names : List String) : Change → List String
  | push name => (Names.pushed names name).2
  | edit e => Names.edited names e
  | reread => Names.read (Names.written names)

def Change.onList (l : Variants) : Change → Variants
  | push name => l.push name
  | edit e => e.apply l
  | reread => parse l.params

theorem not_accepts_iff (l : Variants) (name : String) :
    ¬l.Accepts name ↔ name = "" ∨ name ∈ l.names := by
  rw [Accepts, mem_iff, ← not_or, not_not]

theorem pushed_names (l : Variants) (name : String) :
    Names.pushed l.names name = (decide (l.Accepts name), (l.push name).names) := by
  unfold Names.pushed push
  by_cases accepted : l.Accepts name
  · have added : (l.insertAt l.names.length name accepted).names = l.names ++ [name] := by
      simp [insertAt]
    rw [if_neg fun refused => (not_accepts_iff l name).mpr refused accepted, dif_pos accepted,
      added, decide_eq_true accepted]
  · rw [if_pos ((not_accepts_iff l name).mp accepted), dif_neg accepted,
      decide_eq_false accepted]

theorem pushedAll_names (l : Variants) (given : List String) :
    Names.pushedAll l.names given = (l.pushAll given).names := by
  induction given generalizing l with
  | nil => rfl
  | cons name rest ih =>
    have first : Names.pushedAll l.names (name :: rest) =
        Names.pushedAll (Names.pushed l.names name).2 rest := rfl
    rw [first, pushed_names, ih]
    rfl

theorem collected_names (given : List String) : Names.collected given = (ofList given).names :=
  pushedAll_names empty given

theorem insertIdx_between {α : Type} (xs : List α) (i : Nat) (x : α) (inside : i ≤ xs.length) :
    xs.insertIdx i x = xs.take i ++ x :: xs.drop i := by
  induction i generalizing xs with
  | zero => simp
  | succ i ih =>
    cases xs with
    | nil => cases inside
    | cons y ys => simp [ih ys (Nat.le_of_succ_le_succ inside)]

theorem insertedFrom_names (l : Variants) (place : Nat) (given : List String)
    (inside : place ≤ l.names.length) :
    Names.insertedFrom l.names place given = (l.insertAllAt place given).names := by
  induction given generalizing l place with
  | nil => rfl
  | cons name rest ih =>
    rw [Names.insertedFrom, insertAllAt]
    by_cases accepted : l.Accepts name
    · have added : l.names.insertIdx place name = (l.insertAt place name accepted).names :=
        insertIdx_between l.names place name inside
      have further : place + 1 ≤ (l.insertAt place name accepted).names.length := by
        rw [← added, List.length_insertIdx_of_le_length inside]
        exact Nat.succ_le_succ inside
      rw [if_neg fun refused => (not_accepts_iff l name).mpr refused accepted, dif_pos accepted,
        added, ih _ _ further]
    · rw [if_pos ((not_accepts_iff l name).mp accepted), dif_neg accepted, ih l place inside]

theorem insertedAt_names (l : Variants) (place : Nat) (given : List String)
    (inside : place ≤ l.names.length) :
    Names.insertedAt l.names place given = (l.insertAllAt place given).names := by
  rw [Names.insertedAt, Nat.min_eq_left inside, insertedFrom_names l place given inside]

theorem position?_lt (l : Variants) (name : String) (i : Nat) (found : l.position? name = some i) :
    i < l.names.length :=
  (List.getElem?_eq_some_iff.mp ((l.position?_eq_some_iff name i).mp found)).1

theorem edited_names (l : Variants) (e : VariantEdit) :
    Names.edited l.names e = (e.apply l).names := by
  have anchored (anchor : Option String) :
      ∀ i ∈ anchor.bind l.position?, i + 1 ≤ l.names.length := by
    intro i found
    obtain ⟨name, _, position⟩ := Option.bind_eq_some_iff.mp found
    exact l.position?_lt name i position
  cases e with
  | without given => rfl
  | extend given => exact pushedAll_names l given
  | before given anchor =>
    apply insertedAt_names
    change (anchor.bind l.position?).getD 0 ≤ l.names.length
    cases found : anchor.bind l.position? with
    | none => exact Nat.zero_le _
    | some i => exact Nat.le_of_succ_le (anchored anchor i found)
  | after given anchor =>
    apply insertedAt_names
    change ((anchor.bind l.position?).map (· + 1)).getD l.names.length ≤ l.names.length
    cases found : anchor.bind l.position? with
    | none => exact Nat.le_refl _
    | some i => exact anchored anchor i found

theorem read_names (text : String) : Names.read text = (parse text).names := collected_names _

theorem Origin.names_eq (origin : Origin) : origin.names = origin.list.names := by
  cases origin with
  | nothing => rfl
  | text params => exact read_names params
  | strings given => exact collected_names given
  | value v =>
    cases v with
    | array items => exact collected_names _
    | _ => rfl

theorem Change.onNames_names (l : Variants) (change : Change) :
    change.onNames l.names = (change.onList l).names := by
  cases change with
  | push name => exact congrArg Prod.snd (l.pushed_names name)
  | edit e => exact edited_names l e
  | reread => exact read_names l.params

theorem foldl_onNames (l : Variants) (changes : List Change) :
    changes.foldl Change.onNames l.names = (changes.foldl Change.onList l).names := by
  induction changes generalizing l with
  | nil => rfl
  | cons change rest ih => rw [List.foldl_cons, List.foldl_cons, Change.onNames_names, ih]

theorem collected_eq (given : List String) :
    Names.collected given = (given.filter (· ≠ "")).eraseDups := by
  have added := names_insertAllAt empty [] [] given rfl
  rw [collected_names, ofList, pushAll_eq_insertAllAt]
  simpa [fresh, empty] using added

/-- However a list of names is built and then changed, no name is empty and none is there twice; a
name is added exactly when it is said to be, and then behind all others; and of given names those
that are not empty are kept, each where it is given first. -/
theorem changed_names_stay_distinct :
    (∀ (origin : Origin) (changes : List Change),
        let names := changes.foldl Change.onNames origin.names
        names.Nodup ∧ "" ∉ names ∧ names = (changes.foldl Change.onList origin.list).names) ∧
      (∀ (l : Variants) (name : String),
        Names.pushed l.names name = (decide (l.Accepts name), (l.push name).names)) ∧
      (∀ (names : List String) (name : String),
        ((Names.pushed names name).1 = true ↔
          name ∉ names ∧ name ∈ (Names.pushed names name).2) ∧
        ((Names.pushed names name).1 = true →
          (Names.pushed names name).2.getLast? = some name ∧
            ∀ i < names.length, (Names.pushed names name).2[i]? = names[i]?) ∧
        ((Names.pushed names name).1 = false → (Names.pushed names name).2 = names)) ∧
      ∀ given, (Origin.strings given).names = (given.filter (· ≠ "")).eraseDups := by
  refine ⟨fun origin changes => ?_, pushed_names, fun names name => ?_, collected_eq⟩
  · intro names
    have list : names = (changes.foldl Change.onList origin.list).names := by
      rw [← foldl_onNames, ← origin.names_eq]
    rw [list]
    exact ⟨Variants.nodup _, Variants.empty_notMem _, rfl⟩
  · unfold Names.pushed
    by_cases refused : name = "" ∨ name ∈ names
    · rw [if_pos refused]
      simp
    · rw [if_neg refused]
      have absent : name ∉ names := fun member => refused (Or.inr member)
      refine ⟨by simp [absent], fun _ => ⟨List.getLast?_concat, fun i inside => ?_⟩, by simp⟩
      exact List.getElem?_append_left inside

theorem changed_names_stay_distinct_read :
    let names := (Origin.text " hover,, focus ,hover").names
    (Names.pushed names "first").1 = true ∧
      (Names.pushed names "first").2.getLast? = some "first" ∧
      (1 < names.length ∧ (Names.pushed names "first").2[1]? = names[1]?) ∧
      (Names.pushed names "hover").1 = false ∧ (Names.pushed names "hover").2 = names := by
  intro names
  obtain ⟨_, added, _⟩ := changed_names_stay_distinct.2.2.1 names "first"
  obtain ⟨_, _, refused⟩ := changed_names_stay_distinct.2.2.1 names "hover"
  have taken : (Names.pushed names "first").1 = true := by decide +kernel
  have there : (Names.pushed names "hover").1 = false := by decide +kernel
  have second : 1 < names.length := by decide +kernel
  exact ⟨taken, (added taken).1, ⟨second, (added taken).2 1 second⟩, there, refused there⟩

end Variants

end StyleLayers
