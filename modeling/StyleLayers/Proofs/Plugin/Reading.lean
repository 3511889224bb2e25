import StyleLayers.Plugin.Script
import StyleLayers.Proofs.Plugin.Building

/-!
What handlers make of the answers that they get. A handler can be free of certain answers in all of
its calls, or in those for the base; scripts are free of the answers that they only report.
-/

namespace StyleLayers

/-- A question whose answers styles are made of. -/
def Query.IsStyling : Query → Prop
  | theme _ => True
  | themeD _ _ => True
  | variants _ => True
  | prefixed _ => True
  | escaped _ => True
  | config _ => False
  | configD _ _ => False
  | enables _ => False

namespace Handler

/-- What the handler adds it makes of theme values, variants, class prefixes and escapes; other
answers make no difference to its calls. -/
inductive Styled {α : Type} : Handler α → Prop
  | done (result : α) : Styled (done result)
  | add (call : Call) (next : Handler α) (later : Styled next) : Styled (add call next)
  | read (query : Query) (next : query.Answer → Handler α) (styling : query.IsStyling)
    (later : ∀ answer, Styled (next answer)) : Styled (ask query next)
  | idle (query : Query) (next : query.Answer → Handler α) (later : ∀ answer, Styled (next answer))
    (unused : ∀ (c : Config) (first second : query.Answer),
      (next first).calls c = (next second).calls c) : Styled (ask query next)

/-- The styles that the handler adds to the base, the same whatever it reads. -/
inductive AddsBase {α : Type} : Handler α → List Styles → Prop
  | done (result : α) : AddsBase (done result) []
  | base (styles : Styles) (next : Handler α) (rest : List Styles) (later : AddsBase next rest) :
    AddsBase (add (.base styles) next) (styles :: rest)
  | other (call : Call) (next : Handler α) (rest : List Styles) (elsewhere : call.layer ≠ .base)
    (later : AddsBase next rest) : AddsBase (add call next) rest
  | ask (query : Query) (next : query.Answer → Handler α) (rest : List Styles)
    (later : ∀ answer, AddsBase (next answer) rest) : AddsBase (ask query next) rest

variable {α β γ : Type}

theorem Styled.bind {h : Handler α} {f : α → Handler β} (styled : h.Styled)
    (later : ∀ a, (f a).Styled)
    (unused : ∀ (c : Config) (a b : α), (f a).calls c = (f b).calls c) : (h >>= f).Styled := by
  induction styled with
  | done result => exact later result
  | add call next _ ih => exact .add call _ ih
  | read query next styling _ ih => exact .read query _ styling ih
  | idle query next _ same ih =>
    refine .idle query _ ih fun c first second => ?_
    calc (next first >>= f).calls c
        = (next first).calls c ++ (f ((next first).result c)).calls c := calls_bind c _ f
      _ = (next second).calls c ++ (f ((next second).result c)).calls c := by
          rw [same c first second, unused c _ ((next second).result c)]
      _ = (next second >>= f).calls c := (calls_bind c _ f).symm

theorem Styled.mapM {f : α → Handler β} (each : ∀ x, (f x).Styled) (xs : List α) :
    (xs.mapM f).Styled := by
  induction xs with
  | nil => exact .done []
  | cons x xs ih =>
    rw [List.mapM_cons]
    apply (each x).bind
    · intro b
      exact ih.bind (fun bs => .done (b :: bs)) fun _ _ _ => rfl
    · intro c first second
      rw [calls_bind, calls_bind]
      rfl

theorem Styled.mapM_bind (f : α → Handler β) (xs : List α)
    (each : ∀ x (k : β → Handler γ), (∀ b, (k b).Styled) → (f x >>= k).Styled)
    (k : List β → Handler γ) (later : ∀ bs, (k bs).Styled) : (xs.mapM f >>= k).Styled := by
  induction xs generalizing k with
  | nil => exact later []
  | cons x xs ih =>
    rw [List.mapM_cons, bind_assoc]
    apply each
    intro b
    rw [bind_assoc]
    apply ih
    intro bs
    exact later (b :: bs)

theorem AddsBase.bind {h : Handler α} {f : α → Handler β} {ss ts : List Styles}
    (adds : h.AddsBase ss) (later : ∀ a, (f a).AddsBase ts) : (h >>= f).AddsBase (ss ++ ts) := by
  induction adds with
  | done result => exact later result
  | base styles next rest _ ih => exact .base styles _ _ ih
  | other call next rest elsewhere _ ih => exact .other call _ _ elsewhere ih
  | ask query next rest _ ih => exact .ask query _ _ ih

theorem AddsBase.mapM {f : α → Handler β} {base : α → List Styles}
    (each : ∀ x, (f x).AddsBase (base x)) (xs : List α) :
    (xs.mapM f).AddsBase (xs.flatMap base) := by
  induction xs with
  | nil => exact .done []
  | cons x xs ih =>
    rw [List.mapM_cons, List.flatMap_cons]
    apply (each x).bind
    intro b
    have rest : Handler.AddsBase (do let bs ← xs.mapM f; pure (b :: bs)) (xs.flatMap base ++ []) :=
      ih.bind fun bs => .done (b :: bs)
    rwa [List.append_nil] at rest

def sectionRules (className property : String) : Option Value → Handler (List (String × Value))
  | some (.object scale) => scale.mapM fun entry => do
    let name ← escaped (className ++ "-" ++ entry.1)
    return ("." ++ name, .object [(property, entry.2)])
  | _ => pure []

def addSection (path : String) (rules : List (String × Value)) : Handler Unit := do
  let vs ← variants path
  addUtilities (.mapping (Entries.ofList rules)) ⟨vs, true, true⟩

theorem themeUtilities_eq (path className property : String) :
    themeUtilities path className property = (do
      let found ← theme path
      let rules ← sectionRules className property found
      addSection path rules) := by
  rw [themeUtilities]
  congr 1
  funext found
  rcases found with _ | (_ | _ | _ | _ | _ | scale) <;> rfl

theorem sectionRules_calls (c : Config) (className property : String) (found : Option Value) :
    (sectionRules className property found).calls c = [] := by
  unfold sectionRules
  split
  · rw [calls_mapM]
    exact List.flatMap_eq_nil_iff.mpr fun _ _ => rfl
  · rfl

theorem mapM_addsBase {f : α → Handler β} (each : ∀ x, (f x).AddsBase []) (xs : List α) :
    (xs.mapM f).AddsBase [] := by
  have given := AddsBase.mapM each xs
  rwa [List.flatMap_eq_nil_iff.mpr fun _ _ => rfl] at given

theorem sectionRules_addsBase (className property : String) (found : Option Value) :
    (sectionRules className property found).AddsBase [] := by
  unfold sectionRules
  split
  · exact mapM_addsBase (fun _ => .ask _ _ _ fun _ => .done _) _
  · exact .done []

theorem themeUtilities_styled (path className property : String) :
    (themeUtilities path className property).Styled := by
  have added (rules : List (String × Value)) : (addSection path rules).Styled :=
    .read _ _ trivial fun _ => .add _ _ (.done ())
  rw [themeUtilities_eq]
  refine .read _ _ trivial fun found => ?_
  change (sectionRules className property found >>= addSection path).Styled
  unfold sectionRules
  split
  · exact Styled.mapM_bind _ _ (fun _ _ later => .read (.escaped _) _ trivial fun _ => later _)
      _ added
  · exact added []

theorem themeUtilities_addsBase (path className property : String) :
    (themeUtilities path className property).AddsBase [] := by
  have added (rules : List (String × Value)) : (addSection path rules).AddsBase [] :=
    .ask _ _ _ fun _ => .other _ _ _ (by nofun) (.done ())
  rw [themeUtilities_eq]
  exact .ask _ _ _ fun found => (sectionRules_addsBase className property found).bind added

theorem themeUtilities_calls (c : Config) (path className property : String) :
    ∀ call ∈ (themeUtilities path className property).calls c, call.layer = .utilities := by
  have added (rules : List (String × Value)) :
      ∀ call ∈ (addSection path rules).calls c, call.layer = .utilities := by
    intro call member
    rw [List.mem_singleton.mp member]
    rfl
  rw [themeUtilities_eq, calls_bind, calls_bind, sectionRules_calls]
  exact added _

theorem themeRule_styled (selector : String) (pairs : List (String × String × Value)) :
    (themeRule selector pairs).Styled :=
  Styled.mapM_bind _ pairs (fun _ _ later => .read (.themeD _ _) _ trivial fun _ => later _) _
    fun _ => .read _ _ trivial fun _ => .add _ _ (.done ())

theorem themeRule_addsBase (selector : String) (pairs : List (String × String × Value)) :
    (themeRule selector pairs).AddsBase [] :=
  (mapM_addsBase (fun _ => .ask _ _ _ fun _ => .done _) pairs).bind fun _ =>
    .ask _ _ _ fun _ => .other _ _ _ (by nofun) (.done ())

end Handler

namespace Step

def baseStyles : Step → List Styles
  | addBase styles => [styles]
  | _ => []

theorem handler_styled (s : Step) : s.handler.Styled := by
  cases s with
  | addBase styles => exact .add _ _ (.done _)
  | addComponents styles source =>
    cases source with
    | given t => exact .add _ _ (.done _)
    | variantsOf key => exact .read _ _ trivial fun _ => .add _ _ (.done _)
  | addUtilities styles source =>
    cases source with
    | given t => exact .add _ _ (.done _)
    | variantsOf key => exact .read _ _ trivial fun _ => .add _ _ (.done _)
  | themeUtilities path className property =>
    exact (Handler.themeUtilities_styled path className property).bind (fun _ => .done _)
      fun _ _ _ => rfl
  | themeRule selector pairs =>
    exact (Handler.themeRule_styled selector pairs).bind (fun _ => .done _) fun _ _ _ => rfl
  | _ => exact .idle _ _ (fun _ => .done _) fun _ _ _ => rfl

theorem handler_addsBase (s : Step) : s.handler.AddsBase s.baseStyles := by
  cases s with
  | addBase styles => exact .base _ _ _ (.done _)
  | addComponents styles source =>
    cases source with
    | given t => exact .other _ _ _ (by nofun) (.done _)
    | variantsOf key => exact .ask _ _ _ fun _ => .other _ _ _ (by nofun) (.done _)
  | addUtilities styles source =>
    cases source with
    | given t => exact .other _ _ _ (by nofun) (.done _)
    | variantsOf key => exact .ask _ _ _ fun _ => .other _ _ _ (by nofun) (.done _)
  | themeUtilities path className property =>
    exact (Handler.themeUtilities_addsBase path className property).bind fun _ => .done _
  | themeRule selector pairs =>
    exact (Handler.themeRule_addsBase selector pairs).bind fun _ => .done _
  | _ => exact .ask _ _ _ fun _ => .done _

end Step

namespace Script

theorem plugin_styled (steps : List Step) : (plugin steps).Styled :=
  (Handler.Styled.mapM Step.handler_styled steps).bind (fun _ => .done ()) fun _ _ _ => rfl

theorem plugin_addsBase (steps : List Step) :
    (plugin steps).AddsBase (steps.flatMap Step.baseStyles) := by
  have given : (plugin steps).AddsBase (steps.flatMap Step.baseStyles ++ []) :=
    (Handler.AddsBase.mapM Step.handler_addsBase steps).bind fun _ => .done ()
  rwa [List.append_nil] at given

end Script

end StyleLayers
