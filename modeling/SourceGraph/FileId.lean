import SourceGraph.Path

/-!
# File ids

A file of the workspace is known by its id: the path below the root, with `/` between the names.

Formalises `file_id`, `is_within`, `parent_dir` and `join_relative`.

* `FileId.ofPath?`: the id of a path.
* `FileId.isWithin`: folder scoping, by whole segments.
* `FileId.parent`, `FileId.baseName`: the two parts of an id.
* `FileId.join?`: a relative specifier taken from a folder; it never leaves the workspace.
-/

set_option autoImplicit false

namespace SourceGraph.FileId

/-- The names of `path` below `root`, joined; none for the root itself and for paths outside. -/
def ofPath? (root path : Path) : Option String :=
  match (path.relativeTo? root).map (·.filterMap Component.name?) with
  | none | some [] => none
  | some names => some ("/".intercalate names)

/-- Whether `path` is `folder` or lies beneath it. The empty folder and `.` hold everything. -/
def isWithin (path folder : String) : Bool :=
  let scope := Path.trimSeparators folder
  if scope = "" ∨ scope = "." then true
  else if scope = "/" then Text.begins "/" path
  else
    match Text.stripStart scope.toList path.toList with
    | some rest => rest.isEmpty || rest.head? == some '/'
    | none => false

/-- The folder part of an id, empty for files at the top. -/
def parent (id : String) : String :=
  (Text.cutLast '/' id.toList).elim "" fun cut => String.ofList cut.1

/-- The last segment of an id. -/
def baseName (id : String) : String :=
  (Text.cutLast '/' id.toList).elim id fun cut => String.ofList cut.2

/-- One segment of a specifier, applied to the folder reached so far. -/
def enter (folder : List String) (segment : String) : Option (List String) :=
  if segment = "" ∨ segment = "." then some folder
  else if segment = ".." then if folder = [] then none else some folder.dropLast
  else some (folder ++ [segment])

/-- The segments of a folder that count. -/
def folderSegments (dir : String) : List String := (Text.segments '/' dir).filter (· ≠ "")

/-- `specifier` taken from `dir`, with `.` and `..` folded; none if that leaves the workspace. -/
def join? (dir specifier : String) : Option String :=
  match (Text.segments '/' specifier).foldlM enter (folderSegments dir) with
  | none | some [] => none
  | some segs => some ("/".intercalate segs)

end SourceGraph.FileId
