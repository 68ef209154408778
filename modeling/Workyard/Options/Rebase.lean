import Workyard.Json.Basic
import Workyard.Path.Fragment

/-!
# Rebasing options

Option values that are paths are relative to the project they stand in. Rebasing makes them
relative to the workspace: below a path key every string, also in nested lists, is joined to
the base, while objects are entered key by key.
-/

namespace Workyard.Options

set_option autoImplicit false

def pathKeys : List String :=
  ["output", "outputPath", "index", "main", "tsConfig", "polyfills", "babelConfig",
    "postcssConfig", "styles", "scripts", "assets", "additionalEntryPoints", "input", "replace",
    "with", "webpackConfig"]

/-- The path keys together with further ones, each once. -/
def pathKeysWith (extra : List String) : List String :=
  extra.foldl (fun keys k => if k ∈ keys then keys else keys ++ [k]) pathKeys

mutual

/-- A value whose nearest key is a path key when `here` holds. -/
def rebaseValue (keys : List String) (base : String) (here : Bool) : Json → Json
  | .string s => if here then .string (Path.joinFragments [base, s]) else .string s
  | .array vs => .array (rebaseItems keys base here vs)
  | .object ms => .object (rebase keys base ms)
  | v => v

def rebaseItems (keys : List String) (base : String) (here : Bool) : List Json → List Json
  | [] => []
  | v :: vs => rebaseValue keys base here v :: rebaseItems keys base here vs

def rebase (keys : List String) (base : String) : List (String × Json) → List (String × Json)
  | [] => []
  | (k, v) :: ms => (k, rebaseValue keys base (decide (k ∈ keys)) v) :: rebase keys base ms

end

theorem mem_pathKeysWith {extra : List String} {k : String} :
    k ∈ pathKeysWith extra ↔ k ∈ pathKeys ∨ k ∈ extra := by
  have step : ∀ (extra keys : List String),
      k ∈ extra.foldl (fun keys k => if k ∈ keys then keys else keys ++ [k]) keys ↔
        k ∈ keys ∨ k ∈ extra := by
    intro extra
    induction extra with
    | nil => simp
    | cons e extra ih =>
      intro keys
      simp only [List.foldl_cons, ih, List.mem_cons]
      by_cases h : e ∈ keys
      · simp only [h, if_true]
        constructor
        · rintro (hk | hk)
          · exact .inl hk
          · exact .inr (.inr hk)
        · rintro (hk | rfl | hk)
          · exact .inl hk
          · exact .inl h
          · exact .inr hk
      · simp only [h, if_false, List.mem_append, List.mem_singleton, or_assoc]
  exact step extra pathKeys

theorem keys_rebase (keys : List String) (base : String) (ms : Json.Members) :
    (rebase keys base ms).map Prod.fst = ms.map Prod.fst := by
  induction ms with
  | nil => rfl
  | cons m ms ih => simp [rebase, ih]

end Workyard.Options
