import SourceGraph.Artifact.Basic
import SourceGraph.FileId
import SourceGraph.Text.Blank

/-!
# Targets of imports

The file of the workspace that an import leads to. This is read off the import alone and does not
look whether the file exists: a relative specifier without a known extension takes the first of
`candidateExtensions`. Import edges and the binding of calls both use `Import.target?`, so that they
agree.

Formalises `resolve_import` (here `Import.target?`), `resolve_relative` and `workspace_root_of`.

* `Import.relativeTarget?`: the file that a relative specifier names.
* `Import.target?`: the file that an import leads to.
* `Import.rootOf?`: the root of the workspace that a file's identity implies.
-/

set_option autoImplicit false

namespace SourceGraph.Import

/-- The extensions that a specifier without one stands for, the preferred one first. -/
def candidateExtensions : List String := ["ts", "tsx", "js", "jsx", "mjs", "cjs", "py"]

/-- The extension that is added to a specifier without one. -/
def addedExtension : String := "ts"

/-- The extensions with which a specifier is taken as it stands. -/
def knownExtensions : List String :=
  ["ts", "tsx", "mts", "cts", "js", "jsx", "mjs", "cjs", "py", "pyi"]

/-- Whether the last segment has a known extension after a nonempty stem. -/
def hasKnownExtension (id : String) : Bool :=
  match Text.cutLast '.' (FileId.baseName id).toList with
  | some (stem, ext) => !stem.isEmpty && knownExtensions.contains (String.ofList ext)
  | none => false

/-- A specifier up to a query or fragment, without blanks around it. -/
def cleanSpecifier (specifier : String) : List Char :=
  Text.trim (specifier.toList.takeWhile fun c => c ≠ '?' && c ≠ '#')

/-- Whether a specifier names a folder. -/
def namesFolder (spec : List Char) : Bool :=
  spec == ['.'] || spec == ['.', '.'] || spec.getLast? == some '/'

/-- The file that a relative specifier names; for a folder its `index` file. -/
def relativeTarget? (importer specifier : String) : Option String :=
  let spec := cleanSpecifier specifier
  let dir := FileId.parent importer
  if namesFolder spec then
    FileId.join? dir
      (String.ofList (Text.dropTrailing '/' spec) ++ "/index." ++ addedExtension)
  else
    (FileId.join? dir (String.ofList spec)).map fun joined =>
      if hasKnownExtension joined then joined else joined ++ "." ++ addedExtension

/-- The file at a path that the import states: relative, absolute below `root`, or from the root. -/
def statedTarget? (importer stated : String) (root : Option String) : Option String :=
  let path := Text.replaceChar '\\' '/' stated
  if Text.begins "." path then FileId.join? (FileId.parent importer) path
  else if Text.begins "/" path then do
    let root ← root
    let rest ← Text.stripStart (Text.dropTrailing '/' root.toList) path.toList
    if rest.head? = some '/' then FileId.join? "" (String.ofList rest) else none
  else FileId.join? "" path

/-- The file that an import leads to; none for other packages. -/
def target? (importer : String) (i : Import) (root : Option String) : Option String :=
  match i.resolvedPath with
  | some stated => statedTarget? importer stated root
  | none => if i.isRelative then relativeTarget? importer i.source else none

/-- What is left of an absolute path without the id at its end. -/
def rootOf? (path id : String) : Option String :=
  (Text.stripEnd id.toList (Text.replaceChar '\\' '/' path).toList).map fun root =>
    String.ofList (Text.dropTrailing '/' root)

end SourceGraph.Import

namespace SourceGraph

/-- The root of the workspace that the identity of a file implies. -/
def FileIdentity.root? (f : FileIdentity) : Option String := Import.rootOf? f.path f.id

end SourceGraph
