import StyleLayers.Proofs.Config.Apart
import StyleLayers.Proofs.Config.Deciding
import StyleLayers.Proofs.Config.Joining

/-!
A fallback for a theme value that is missing. It is what the theme would have at the path if the
fallback had been configured there.
-/

namespace StyleLayers

namespace Value

/-- The value below a path of keys, in mappings of one entry each. -/
def single (v : Value) : List String → Value
  | [] => v
  | key :: keys => .object [(key, single v keys)]

theorem child?_of_entry (v u : Value) (key : String) (found : v.entry? key = some u) :
    v.child? key = some u := by
  cases v with
  | object entries => exact found
  | _ => cases found

/-- What an array has at a position does not show through a mapping that is laid over it. -/
theorem child?_overAny (below : Option Value) (upper : Entries) (key : String) :
    (overAny below (.object upper)).child? key = entry? (overAny below (.object upper)) key := by
  obtain ⟨entries, shape⟩ := overAny_object below upper
  rw [shape]
  rfl

theorem descend?_overAny_single (below : Option Value) (v : Value) (keys : List String)
    (absent : below.bind (descend? · keys) = none) :
    (overAny below (single v keys)).descend? keys = some v := by
  induction keys generalizing below with
  | nil =>
    cases below with
    | none => rfl
    | some u => cases absent
  | cons key keys ih =>
    have inside : (below.bind fun u => u.entry? key).bind (descend? · keys) = none := by
      cases below with
      | none => rfl
      | some u =>
        cases found : u.entry? key with
        | none =>
          rw [Option.bind_some, found]
          rfl
        | some w =>
          have missing : (u.child? key).bind (descend? · keys) = none := absent
          rw [child?_of_entry u w key found] at missing
          rw [Option.bind_some, found]
          exact missing
    have distinct : (Entries.keys [(key, single v keys)]).Nodup := by simp
    rw [single, descend?, child?_overAny, entry?_overAny below _ distinct, Entries.get?_cons,
      if_pos rfl]
    exact ih _ inside

theorem withEdits_nodup (below : Value) (layer : Entries) (distinct : layer.keys.Nodup) :
    (Entries.keys (withEdits below layer)).Nodup := by
  rw [withEdits]
  split
  · exact Entries.insert_nodup "variants" _ layer distinct
  · exact distinct

theorem entry?_overrideLayer (below : Value) (layer : Entries) (distinct : layer.keys.Nodup)
    (key : String) (other : key ≠ "variants") :
    entry? (below.overrideLayer layer) key =
      match layer.get? key with
      | some v => some (overAny (below.entry? key) v)
      | none => below.entry? key := by
  rw [← get?_withEdits below layer key other]
  exact entry?_overAny (some below) _ (withEdits_nodup below layer distinct) key

end Value

namespace Config

theorem resolve_nodup (layers : List Value) (c : Config) (resolved : resolve layers = .ok c) :
    ∃ entries : Entries, c.root = .object entries ∧ entries.keys.Nodup := by
  obtain ⟨_, tree⟩ := (resolve_eq_ok_iff layers c).mp resolved
  obtain ⟨entries, laid, kept⟩ := Value.foldl_overlaid_object layers []
  exact ⟨entries, tree.symm.trans laid, kept List.nodup_nil⟩

theorem resolve_pair (first second : Entries) :
    resolve [.object first, .object second] =
      .ok ⟨((Value.object []).overrideLayer first).overrideLayer second⟩ := rfl

theorem theme_overrideLayer (entries : Entries) (distinct : entries.keys.Nodup) (theme : Value) :
    Value.entry? (((Value.object []).overrideLayer entries).overrideLayer [("theme", theme)])
        "theme" = some (Value.overAny (entries.get? "theme") theme) := by
  have below : Value.entry? ((Value.object []).overrideLayer entries) "theme" =
      entries.get? "theme" := by
    rw [Value.entry?_overrideLayer _ entries distinct "theme" (by decide)]
    cases entries.get? "theme" with
    | none => rfl
    | some v => rfl
  rw [Value.entry?_overrideLayer _ _ (by simp) "theme" (by decide), below, Entries.get?_cons,
    if_pos rfl]

/-- A fallback for a missing theme value counts as if it were configured at the path. -/
theorem themeD_as_configured (layers : List Value) (c : Config) (resolved : resolve layers = .ok c)
    (keys : List String) (plain : ∀ key ∈ keys, Path.IsPlainKey key) (fallback : Value)
    (absent : c.theme? (".".intercalate keys) = none) :
    ∃ d, resolve [c.root, .object [("theme", .single fallback keys)]] = .ok d ∧
      d.theme? (".".intercalate keys) = some (c.themeD (".".intercalate keys) fallback) := by
  obtain ⟨entries, shape, distinct⟩ := resolve_nodup layers c resolved
  have path : Path.keys (".".intercalate keys) = keys := Path.keys_joined keys plain
  have missing : (entries.get? "theme").bind (Value.descend? · keys) = none := by
    rw [theme?, path, shape] at absent
    exact Option.map_eq_none_iff.mp absent
  have fallen : c.themeD (".".intercalate keys) fallback = Theme.normalizeAt keys fallback := by
    rw [themeD, absent, path, Option.getD_none]
  rw [shape, resolve_pair]
  refine ⟨_, rfl, ?_⟩
  rw [theme?, path, theme_overrideLayer entries distinct, Option.bind_some,
    Value.descend?_overAny_single _ fallback keys missing, fallen, Option.map_some]

theorem themeD_as_configured_joined :
    let theme : Value := .object [("boxShadow", .array [.string "none"])]
    let layers : List Value := [.null, .object [("prefix", .string "a"), ("theme", theme)]]
    let fallback : Value := .array [.string "0 0 1px", .string "0 1px"]
    (∀ key ∈ ["boxShadow", "md"], Path.IsPlainKey key) ∧
      ∃ c, resolve layers = .ok c ∧ c.theme? "boxShadow.md" = none ∧
        ∃ d, resolve [c.root, .object [("theme", .single fallback ["boxShadow", "md"])]] = .ok d ∧
          d.theme? "boxShadow.md" = some (.string "0 0 1px, 0 1px") := by
  intro theme layers fallback
  have plain : ∀ key ∈ ["boxShadow", "md"], Path.IsPlainKey key := by decide
  have path : Path.keys "boxShadow.md" = ["boxShadow", "md"] := Path.keys_joined _ plain
  have resolved : resolve layers = .ok ⟨.object [("prefix", .string "a"), ("theme", theme)]⟩ := rfl
  have absent : theme? ⟨.object [("prefix", .string "a"), ("theme", theme)]⟩ "boxShadow.md" =
      none := by
    rw [theme?, path]
    rfl
  obtain ⟨d, laid, read⟩ := themeD_as_configured layers _ resolved _ plain fallback absent
  refine ⟨plain, _, resolved, absent, d, laid, read.trans ?_⟩
  change some (themeD _ "boxShadow.md" fallback) = _
  rw [themeD, absent, path]
  rfl

end Config

end StyleLayers
