import Mathlib.Data.List.Sort
import Workyard.Proofs.Workspace.Spelling
import Workyard.Webpack.Renderer

/-!
# Templates that a directory brings

The templates of a directory are told by their locations below it, all files at any depth with the
extension of templates. They are read in the order of the bytes of the names, and of several with
one name in lower case the last one counts. So the texts do not depend on the order of any listing,
nor on other files.
-/

namespace Workyard.Webpack.Renderer

set_option autoImplicit false

open Disk
open Workspace (below Earlier)

/-- The name of the template at a location below a directory. -/
def nameAt (l : Location) : String :=
  nameOf (String.intercalate "/" l)

def extensionAt (l : Location) : Option String :=
  l.getLast?.bind fun name => (⟨name⟩ : FilePath).extension?

/-- A file below a directory with the extension of templates. -/
structure IsTemplateAt (d : Disk) (top l : Location) (content : Content) : Prop where
  file : d.view (top ++ l) = some (.file content)
  extension : extensionAt l = some templateExtension

variable {d d' : Disk} {dir dir' : FilePath} {top top' l : Location} {content : Content}
  {found found' : List (Location × Content)} {texts entries : List (String × String)}
  {name : String}

/-! ### Putting texts in the place of others -/

/-- The templates below a directory, each with what it holds, in the order of their locations. -/
structure Listed (d : Disk) (top : Location) (found : List (Location × Content)) : Prop where
  mem_iff : ∀ l content, (l, content) ∈ found ↔ IsTemplateAt d top l content
  ordered : found.Pairwise fun a b => Earlier a.1 b.1

theorem Listed.unique (h : Listed d top found) (h' : Listed d top found') : found = found' :=
  Workspace.eq_of_earlier h.ordered h'.ordered fun m =>
    (h.mem_iff m.1 m.2).trans (h'.mem_iff m.1 m.2).symm

theorem Listed.congr
    (h : ∀ l content, IsTemplateAt d' top' l content ↔ IsTemplateAt d top l content)
    (hfound : Listed d' top' found) : Listed d top found :=
  ⟨fun l content => (hfound.mem_iff l content).trans (h l content), hfound.ordered⟩

theorem IsTemplateAt.ne_nil (h : IsTemplateAt d top l content) : l ≠ [] := by
  rintro rfl
  exact absurd h.extension (by simp [extensionAt])

theorem IsTemplateAt.isName (hd : d.root.WellNamed) (h : IsTemplateAt d top l content) :
    ∀ name ∈ l, FilePath.IsName name :=
  isName_of_view hd h.file

/-- Two directories whose templates have one name in lower case. -/
def alike : Listing :=
  [("webpack", .directory [("webpack.config.js.tera", .file (.text "lower"))]),
    ("Webpack", .directory [("webpack.config.js.tera", .file (.text "upper"))])]

end Workyard.Webpack.Renderer
