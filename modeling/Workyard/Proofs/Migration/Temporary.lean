import Workyard.Migration.Apply
import Workyard.Proofs.Disk.Directories

/-!
# Temporary names

A file is staged beside its place, under a longer name. Two files that are staged at one place
have one place themselves, and what is above a staged file is above its path.
-/

namespace Workyard.Migration

set_option autoImplicit false

open Disk

variable {d : Disk} {p q r : FilePath}

theorem lastSegment_temporaryOf (p : FilePath) :
    (temporaryOf p).lastSegment = p.lastSegment ++ ".conduit.tmp".toList :=
  FilePath.lastSegment_extended (by decide) p

theorem temporaryOf_endsInName (p : FilePath) : (temporaryOf p).EndsInName := by
  have hlength : 12 ≤ (temporaryOf p).lastSegment.length := by
    rw [lastSegment_temporaryOf, List.length_append,
      show ".conduit.tmp".toList.length = 12 from by decide]
    omega
  refine ⟨?_, ?_, ?_⟩ <;> intro h <;> simp [h] at hlength

theorem reaches_temporaryOf_iff (hp : p.text ≠ "") : d.Reaches (temporaryOf p) ↔ d.Reaches p :=
  reaches_extended_iff hp (by decide)

theorem reaches_temporaryOf (h : d.Reaches p) : d.Reaches (temporaryOf p) :=
  (reaches_temporaryOf_iff (locate_eq_ok_iff.mp h).1).mpr h

theorem place_temporaryOf (hp : p.text ≠ "") :
    d.place (temporaryOf p) =
      d.above p ++ [String.ofList (p.lastSegment ++ ".conduit.tmp".toList)] := by
  rw [place_of_endsInName (temporaryOf_endsInName p), lastSegment_temporaryOf]
  exact congrArg (· ++ _) (above_extended hp (by decide))

theorem place_temporaryOf_inj (hp : p.EndsInName) (hq : q.EndsInName) :
    d.place (temporaryOf p) = d.place (temporaryOf q) ↔ d.place p = d.place q := by
  rw [place_temporaryOf (FilePath.text_ne_of_endsInName hp),
    place_temporaryOf (FilePath.text_ne_of_endsInName hq), place_of_endsInName hp,
    place_of_endsInName hq]
  simp [List.append_singleton_inj, String.append_left_inj]

/-- What is above the temporary name of a file is above its path. -/
theorem isAbove_of_temporaryOf (hp : p.EndsInName) (h : r.IsAbove (temporaryOf p)) :
    r.IsAbove p := by
  have hparent : (temporaryOf p).parent? = p.parent? :=
    FilePath.parent?_extended hp (temporaryOf_endsInName p) (by decide)
  cases h with
  | parent hr => exact .parent (hparent ▸ hr)
  | further hq hr => exact .further (hparent ▸ hq) hr

end Workyard.Migration
