import Workyard.Options.Rebase
import Workyard.Proofs.Path.Fragments

/-!
# Rebasing twice

Options that are rebased onto a relative base and then onto another one are rebased onto the two
bases joined. Rebasing does not look at the paths that it changes, so that each of them is joined
twice under the same keys.
-/

namespace Workyard.Options

set_option autoImplicit false

open Workyard.Path (IsRelative joinFragments joinFragments_assoc)

variable {a : String}

mutual

theorem rebaseValue_joined (keys : List String) (h : IsRelative a) (b : String) (here : Bool) :
    ∀ v : Json, rebaseValue keys b here (rebaseValue keys a here v) =
      rebaseValue keys (joinFragments [b, a]) here v
  | .null => by simp [rebaseValue]
  | .bool _ => by simp [rebaseValue]
  | .number _ => by simp [rebaseValue]
  | .string s => by cases here <;> simp [rebaseValue, joinFragments_assoc h]
  | .array vs => by
    rw [rebaseValue, rebaseValue, rebaseValue, rebaseItems_joined keys h b here vs]
  | .object ms => by
    rw [rebaseValue, rebaseValue, rebaseValue, rebaseMembers_joined keys h b ms]

theorem rebaseItems_joined (keys : List String) (h : IsRelative a) (b : String) (here : Bool) :
    ∀ vs : List Json, rebaseItems keys b here (rebaseItems keys a here vs) =
      rebaseItems keys (joinFragments [b, a]) here vs
  | [] => by simp [rebaseItems]
  | v :: vs => by
    rw [rebaseItems, rebaseItems, rebaseItems, rebaseValue_joined keys h b here v,
      rebaseItems_joined keys h b here vs]

theorem rebaseMembers_joined (keys : List String) (h : IsRelative a) (b : String) :
    ∀ ms : List (String × Json), rebase keys b (rebase keys a ms) =
      rebase keys (joinFragments [b, a]) ms
  | [] => by simp [rebase]
  | (k, v) :: ms => by
    rw [rebase, rebase, rebase, rebaseValue_joined keys h b _ v, rebaseMembers_joined keys h b ms]

end

/-- Whatever further keys are path keys, and whatever the options and the outer base. -/
theorem rebase_rebase (h : IsRelative a) (extra : List String) (b : String) (ms : Json.Members) :
    rebase (pathKeysWith extra) b (rebase (pathKeysWith extra) a ms) =
      rebase (pathKeysWith extra) (joinFragments [b, a]) ms :=
  rebaseMembers_joined (pathKeysWith extra) h b ms

/-- A base that climbs above an absolute one, and paths that climb above both. -/
theorem rebase_rebase_climbing :
    IsRelative "../x\\" ∧
      rebase (pathKeysWith ["entry"]) "/w" (rebase (pathKeysWith ["entry"]) "../x\\"
        [("entry", .array [.string "../../../m.ts", .object [("input", .string "p/..")]]),
          ("main", .string ".."), ("port", .string "..")]) =
      rebase (pathKeysWith ["entry"]) (joinFragments ["/w", "../x\\"])
        [("entry", .array [.string "../../../m.ts", .object [("input", .string "p/..")]]),
          ("main", .string ".."), ("port", .string "..")] := by
  have h : IsRelative "../x\\" := by simp [IsRelative]
  exact ⟨h, rebase_rebase h ["entry"] "/w" _⟩

end Workyard.Options
