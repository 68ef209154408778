import Mathlib.Data.List.Induction
import Mathlib.Data.List.Nodup
import Mathlib.Data.List.Perm.Basic
import Workyard.Project.Grouping
import Workyard.Proofs.Json.Members

/-!
# Groups as a partition

Where a target stands depends on its own label alone. So the groups of a project are told by the
labels in the order in which they first occur, each with the names of the targets that carry it,
and every question about the groups is one about the targets.
-/

namespace Workyard

set_option autoImplicit false

open Text

variable {t : Target} {targets : List Target} {l n : String}

namespace Grouping

/-- The labels in the order in which they first occur. -/
def labelsOf (targets : List Target) : List String :=
  (targets.filterMap Target.label?).eraseDups

/-- All places of a grouping, with the labelled ones first. -/
def places (targets : List Target) : List Place :=
  (labelsOf targets).map .named ++ [.ungrouped]

end Grouping

end Workyard
