import SourceGraph.Path

/-!
# Candidates for tracking

Which files the expansion of a folder picks up: those with a listed extension, unless a name on the
way from the folder is hidden or that of a dependency folder.

Formalises the filter that `is_candidate` and `enumerate_files` share, with `is_skipped_name` and
the names in `SKIPPED_DIRS`.

* `isSkippedName`: the names that are passed over.
* `hasExtension`: the test of the extension.
* `isCandidate`: the test for a file below a folder.
-/

set_option autoImplicit false

namespace SourceGraph.Tracker

/-- Folders of dependencies and build results. -/
def skippedFolders : List String :=
  ["node_modules", "bower_components", "__pycache__", "site-packages", "venv", "target"]

/-- Whether a name is hidden or that of a dependency folder. -/
def isSkippedName (name : String) : Bool := Text.begins "." name || skippedFolders.contains name

/-- Whether a path has one of some extensions, in any case of the letters. -/
def hasExtension (extensions : List String) (p : Path) : Bool :=
  match p.extension? with
  | some ext => extensions.any (Text.sameLetters · ext)
  | none => false

/-- Whether the expansion of `base` picks up `p`. -/
def isCandidate (extensions : List String) (base p : Path) : Bool :=
  match p.relativeTo? base with
  | some steps => hasExtension extensions p && steps.all (!isSkippedName ·.text)
  | none => false

end SourceGraph.Tracker
