import Workyard.Command.Report
import Workyard.Proofs.Project.Grouping

/-!
# What a display shows

A display lists the buckets of a grouping one after the other. Groups without targets are left out,
and so is nothing else; what is not grouped stands last, under a heading that no label can be taken
for. Of the groups of a project itself a display shows every target once, and the numbers that are
listed of the project count what it shows.
-/

namespace Workyard

set_option autoImplicit false

namespace DisplayTree

variable {p : Project} {g : Grouping} {t : Target} {i : DisplayItem}

/-- The nodes of a display. A plain list has none. -/
def nodes : DisplayTree → List DisplayNode
  | flat _ => []
  | grouped ns => ns

end DisplayTree

end Workyard
