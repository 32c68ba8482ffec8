import SourceGraph.Path

/-!
# Libraries for ignore rules

Which paths a line of an ignore file stands for is not the matter of a watcher: it hands lines to a
library, and asks the rules that come out. A watcher is given any library with these operations.

The operations are those that `build_gitignore` calls on a `GitignoreBuilder`, and the question that
`should_ignore` asks a `Gitignore`.

* `IgnoreLibrary`: the operations.
* `IgnoreLibrary.assemble?`: the rules of some files and some more lines.
-/

set_option autoImplicit false

namespace SourceGraph

/-- The operations of a library for ignore rules. -/
structure IgnoreLibrary where
  /-- Rules while they are collected. -/
  Draft : Type
  Rules : Type
  /-- No rules yet, for a folder. -/
  start : Path → Draft
  /-- The rules of a file are added, as far as its lines are valid. -/
  addFile : Draft → ByteArray → Draft
  /-- The rule of a line is added, unless the line is invalid. -/
  addLine? : Draft → String → Option Draft
  build? : Draft → Option Rules
  /-- The folder that paths are compared with. -/
  folder : Rules → Path
  /-- Whether a path below the folder, or a folder around it, is ignored. -/
  ignores : Rules → Path → (isFolder : Bool) → Bool

/-- The rules for a folder: those of some files, then those of some lines. -/
def IgnoreLibrary.assemble? (L : IgnoreLibrary) (root : Path) (contents : List ByteArray)
    (lines : List String) : Option L.Rules :=
  (lines.foldlM L.addLine? (contents.foldl L.addFile (L.start root))).bind L.build?

end SourceGraph
