import StyleLayers.Proofs.Config.Deciding
import StyleLayers.Proofs.Plugin.Reading
import StyleLayers.Proofs.Plugin.Settling

/-!
The sample scale registered more than once. All registrations read one configuration, in which the
size of the last is laid over the sizes of the others; apart from that each adds what it adds alone.
-/

namespace StyleLayers.ScaleOptions

def sizePath : List String := ["theme", "testPlugin", "md"]

theorem calls_valid (os : List ScaleOptions) : ∀ p ∈ os.map factory.call, p.Valid := by
  intro p member v brought
  obtain ⟨o, _, rfl⟩ := List.mem_map.mp member
  cases brought
  exact Or.inr ⟨_, rfl⟩

theorem config_congr (os others : List ScaleOptions) (user : Value) (c : Config)
    (same : (Run.settings (os.map factory.call)).overlaid user =
      (Run.settings (others.map factory.call)).overlaid user)
    (settled : Run.config (os.map factory.call) user = .ok c) :
    Run.config (others.map factory.call) user = .ok c := by
  obtain ⟨_, accepted, tree⟩ := (Run.config_eq_ok_iff _ user c).mp settled
  exact (Run.config_eq_ok_iff _ user c).mpr ⟨calls_valid others, accepted, same ▸ tree⟩

theorem settings_calls (o₁ o₂ : ScaleOptions) :
    Run.settings [factory.call o₁, factory.call o₂] = Run.settings [factory.call o₂] := rfl

theorem settings_call (o : ScaleOptions) :
    Run.settings [factory.call o] =
      Value.withLeaf (.string o.size) (Run.settings [factory.plain]) sizePath := rfl

theorem settings_call_overlaid (o₁ o₂ : ScaleOptions) (user : Value)
    (mapping : user.entries?.isSome) (decides : user.Decides sizePath) :
    (Run.settings [factory.call o₁]).overlaid user =
      (Run.settings [factory.call o₂]).overlaid user := by
  obtain ⟨entries, shape⟩ := Option.isSome_iff_exists.mp mapping
  obtain rfl := Value.eq_object user entries shape
  rw [settings_call, settings_call]
  exact Value.overrideLayer_withLeaf entries _ _ _ "theme" ["testPlugin", "md"] (by decide) decides
    rfl rfl

theorem invoke_call (c : Config) (o : ScaleOptions) (size : String) :
    Run.invoke c (Registration.numbered 0 [factory.call { o with size := size }]) =
      Run.invoke c (Registration.numbered 0 [factory.call o]) := rfl

theorem groups_lower (c : Config) (o : ScaleOptions) (l : Layer) (lower : l ≠ .utilities) :
    (Run.invoke c (Registration.numbered 0 [factory.call o])).stylesheet.groups l = [] := by
  have nothing : ((factory.call o).runOn c .empty).groups l = [] :=
    Handler.groups_elsewhere c o.handler .utilities l
      (Handler.themeUtilities_calls c "testPlugin" o.className "testProperty") lower
  rw [Run.groups_invoke, List.flatMap_singleton, nothing]

/-- Two registrations add what each adds alone when it is registered with the size of the second.
For the first that is what it adds alone in any case below the utilities, and there too if the sizes
agree or the user decides on one. -/
theorem groups_of_two_calls (o₁ o₂ : ScaleOptions) (user : Value) (both : Report)
    (ran : Run.run [factory.call o₁, factory.call o₂] user = .ok both) :
    ∃ resized first second, Run.run [factory.call { o₁ with size := o₂.size }] user = .ok resized ∧
      Run.run [factory.call o₁] user = .ok first ∧ Run.run [factory.call o₂] user = .ok second ∧
      (∀ l, both.stylesheet.groups l =
        resized.stylesheet.groups l ++ second.stylesheet.groups l) ∧
      ∀ l, l ≠ .utilities ∨ o₁.size = o₂.size ∨ user.entries?.isSome ∧ user.Decides sizePath →
        both.stylesheet.groups l = first.stylesheet.groups l ++ second.stylesheet.groups l := by
  obtain ⟨c, settled, rfl⟩ := (Run.run_eq_ok_iff _ user both).mp ran
  have settledSecond : Run.config [factory.call o₂] user = .ok c :=
    config_congr [o₁, o₂] [o₂] user c (congrArg (Value.overlaid · user) (settings_calls o₁ o₂))
      settled
  have settledResized : Run.config [factory.call { o₁ with size := o₂.size }] user = .ok c :=
    config_congr [o₂] [{ o₁ with size := o₂.size }] user c rfl settledSecond
  obtain ⟨first, ranFirst⟩ := Run.run_accepts [factory.call o₁] user (calls_valid [o₁])
    ((Run.config_eq_ok_iff _ user c).mp settled).2.1
  have apart := Run.groups_invoke_append c [factory.call o₁] [factory.call o₂]
  refine ⟨_, first, _,
    (Run.run_eq_ok_iff _ user _).mpr ⟨c, settledResized, invoke_call c o₁ o₂.size⟩, ranFirst,
    (Run.run_eq_ok_iff _ user _).mpr ⟨c, settledSecond, rfl⟩, apart, ?_⟩
  intro l unaffected
  obtain ⟨d, settledFirst, rfl⟩ := (Run.run_eq_ok_iff _ user first).mp ranFirst
  refine (apart l).trans (congrArg (· ++ _) ?_)
  rcases unaffected with lower | decided
  · rw [groups_lower c o₁ l lower, groups_lower d o₁ l lower]
  · have settledAlone : Run.config [factory.call o₁] user = .ok c := by
      rcases decided with same | ⟨mapping, decides⟩
      · rwa [← same] at settledResized
      · exact config_congr [o₂] [o₁] user c
          (settings_call_overlaid o₂ o₁ user mapping decides) settledSecond
    rw [settledAlone] at settledFirst
    cases settledFirst
    rfl

theorem groups_of_two_calls_set :
    let user : Value := .object [("prefix", .string "x-"),
      ("theme", .object [("testPlugin", .object [("md", .string "9px"), ("lg", .string "1em")])])]
    ∃ both first second,
      Run.run [factory.call ⟨"banana", "2rem"⟩, factory.call ⟨"apple", "3rem"⟩] user = .ok both ∧
        Run.run [factory.call ⟨"banana", "2rem"⟩] user = .ok first ∧
        Run.run [factory.call ⟨"apple", "3rem"⟩] user = .ok second ∧
        (∀ l, both.stylesheet.groups l =
          first.stylesheet.groups l ++ second.stylesheet.groups l) := by
  intro user
  have decided : user.entries?.isSome ∧ user.Decides sizePath := ⟨rfl, Or.inr rfl⟩
  obtain ⟨both, ran⟩ := Run.run_accepts
    [factory.call ⟨"banana", "2rem"⟩, factory.call ⟨"apple", "3rem"⟩] user
    (calls_valid [⟨"banana", "2rem"⟩, ⟨"apple", "3rem"⟩]) (Or.inr ⟨_, rfl⟩)
  obtain ⟨_, first, second, _, ranFirst, ranSecond, _, apart⟩ :=
    groups_of_two_calls _ _ user both ran
  exact ⟨both, first, second, ran, ranFirst, ranSecond, fun l => apart l (Or.inr (Or.inr decided))⟩

/-- Where nobody else sets the size, the second registration sets it for the first. -/
theorem size_of_second_for_first :
    let heads (os : List ScaleOptions) :=
      (Run.run (os.map factory.call) (.object [])).toOption.map fun report =>
        (report.stylesheet.utilities.flatMap Group.rules).map Rule.head
    let step (selector size : String) : Head := ⟨selector, [⟨"test-property", size⟩]⟩
    heads [⟨"banana", "2rem"⟩] = some [step ".banana-sm" "1rem", step ".banana-md" "2rem"] ∧
      heads [⟨"banana", "2rem"⟩, ⟨"apple", "3rem"⟩] = some [step ".banana-sm" "1rem",
        step ".banana-md" "3rem", step ".apple-sm" "1rem", step ".apple-md" "3rem"] ∧
      ¬∀ (o₁ o₂ : ScaleOptions) (user : Value) (both : Report),
        Run.run [factory.call o₁, factory.call o₂] user = .ok both →
          ∃ first second, Run.run [factory.call o₁] user = .ok first ∧
            Run.run [factory.call o₂] user = .ok second ∧
            ∀ l, both.stylesheet.groups l =
              first.stylesheet.groups l ++ second.stylesheet.groups l := by
  intro heads step
  have alone : heads [⟨"banana", "2rem"⟩] =
      some [step ".banana-sm" "1rem", step ".banana-md" "2rem"] := by
    decide +kernel
  have together : heads [⟨"banana", "2rem"⟩, ⟨"apple", "3rem"⟩] =
      some [step ".banana-sm" "1rem", step ".banana-md" "3rem", step ".apple-sm" "1rem",
        step ".apple-md" "3rem"] := by
    decide +kernel
  refine ⟨alone, together, ?_⟩
  intro apart
  obtain ⟨both, ran⟩ := Run.run_accepts
    [factory.call ⟨"banana", "2rem"⟩, factory.call ⟨"apple", "3rem"⟩] (.object [])
    (calls_valid [⟨"banana", "2rem"⟩, ⟨"apple", "3rem"⟩]) (Or.inr ⟨_, rfl⟩)
  obtain ⟨first, second, ranFirst, _, groups⟩ := apart _ _ _ both ran
  have utilities : both.stylesheet.utilities =
      first.stylesheet.utilities ++ second.stylesheet.utilities := groups .utilities
  simp only [heads, List.map_cons, List.map_nil, ran, ranFirst, Except.toOption, Option.map_some,
    Option.some.injEq, utilities, List.flatMap_append, List.map_append] at alone together
  rw [alone] at together
  exact absurd together (by simp [step])

end StyleLayers.ScaleOptions
