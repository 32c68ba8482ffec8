import SourceGraph.Disk.Basic
import SourceGraph.Tracker.Candidate

/-!
# Expanding folders

The files below a folder that have a listed extension. Hidden names and dependency folders are
passed over; the folder itself may have any name.

Formalises `enumerate_files`.

* `Listing.filesBelow`: the walk through a folder's contents.
* `Disk.enumerate`: the files below a folder of a disk.
-/

set_option autoImplicit false

namespace SourceGraph

/-- The files in a folder at `base` and below it, without those that are passed over. -/
def Listing.filesBelow (extensions : List String) (base : Path) : Listing → List Path
  | nil => []
  | file name _ rest =>
    let p := base.join ⟨name⟩
    let others := filesBelow extensions base rest
    if !Tracker.isSkippedName name && Tracker.hasExtension extensions p then p :: others else others
  | folder name inside rest =>
    let others := filesBelow extensions base rest
    if Tracker.isSkippedName name then others
    else filesBelow extensions (base.join ⟨name⟩) inside ++ others

/-- The files that a path stands for: a file itself, whatever its name, or those below a folder. -/
def Disk.enumerate (d : Disk) (extensions : List String) (p : Path) : List Path :=
  match d.find p with
  | .ok (.file _ _) => [p]
  | .ok (.folder _ inside) => (inside.filesBelow extensions p).mergeSort Path.atMost
  | _ => []

end SourceGraph
