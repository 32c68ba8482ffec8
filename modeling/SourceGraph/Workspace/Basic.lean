import SourceGraph.FolderTree
import SourceGraph.Graph.Fragment
import SourceGraph.Store.Document
import SourceGraph.Tracker.Document
import SourceGraph.Workspace.Report

/-!
# Workspaces

A workspace is a tree of source files with its two graphs and its tracked files. Each operation is
one cycle: it changes what is tracked, describes the affected files anew, and saves what changed.
An operation that cannot save keeps what it changed in memory.

Formalises `Workspace`: its `add_file`, `add_folder`, `remove_file`, `remove_folder`, `sync_changed`
(here `sync`), `apply_changes` (`apply`) and `reindex_all` (`reindex`), which all go through
`index_file` (`index`), `apply_fragment` (`putFragment`) and `save` (`saved`).

* `Workspace.index`: one file described and put into the graphs.
* `Workspace.addFile`, `Workspace.addFolder`, `Workspace.removeFile`, `Workspace.removeFolder`,
  `Workspace.sync`, `Workspace.apply`, `Workspace.reindex`: the cycles.
* `Workspace.openAt`: the workspace that settings describe.
-/

set_option autoImplicit false

namespace SourceGraph

/-- Files, graphs and tracked files. -/
structure Workspace where
  root : Path
  languages : List Language := Language.all
  imports : Store := { kind := .import }
  calls : Store := { kind := .call }
  tracker : Tracker := {}

/-- Where a workspace is, and where its documents are kept. -/
structure WorkspaceSettings where
  root : Path
  importGraph : Option Path := none
  callGraph : Option Path := none
  watchState : Option Path := none
deriving DecidableEq, Inhabited

namespace WorkspaceSettings

/-- The usual name of the document of tracked files. -/
def watchStateName : Path := ⟨"watch-state.json"⟩

/-- Settings with all documents in one folder, under their usual names. -/
def keptIn (root folder : Path) : WorkspaceSettings where
  root := root
  importGraph := some (folder.join ⟨StoreKind.import.fileName⟩)
  callGraph := some (folder.join ⟨StoreKind.call.fileName⟩)
  watchState := some (folder.join watchStateName)

end WorkspaceSettings

/-- Why an operation on a workspace fails. -/
inductive WorkspaceFault where
  /-- A graph could not be saved. -/
  | store (f : SaveFault)
  /-- The tracked files could not be saved. -/
  | tracker (f : SaveFault)
  /-- The root has no absolute path. -/
  | root (path : Path) (reason : Fault)
deriving DecidableEq, Inhabited

/-- The fault in words. -/
def WorkspaceFault.message : WorkspaceFault → String
  | store f => "Store error: " ++ f.message
  | tracker f => "Watch error: " ++ f.message
  | root path reason => "Invalid workspace root " ++ path.text ++ ": " ++ reason.message

namespace Workspace

/-! ## Paths -/

/-- A path seen from the root. -/
def absolute (w : Workspace) (p : Path) : Path := w.root.absolutize p

/-- The id of a file. -/
def fileId? (w : Workspace) (p : Path) : Option String := FileId.ofPath? w.root (w.absolute p)

/-- Whether the workspace describes files with the extension of a path. -/
def supports (w : Workspace) (p : Path) : Bool := (Language.among? w.languages p).isSome

/-- The folders and tracked files of the workspace. -/
def folderTree (w : Workspace) : FolderTree :=
  .ofPaths (w.tracker.files.filterMap (FileId.ofPath? w.root))

/-! ## Graphs -/

/-- The workspace without what a file owns in the graphs. -/
def dropFile (w : Workspace) (file : String) : Workspace :=
  { w with imports := w.imports.removeFile file, calls := w.calls.removeFile file }

/-- The workspace without what the files of a folder own in the graphs. -/
def dropFolder (w : Workspace) (folder : String) : Workspace :=
  { w with imports := w.imports.removeFolder folder, calls := w.calls.removeFolder folder }

/-- The workspace with a fragment in place of what the file had in the graphs. -/
def putFragment (w : Workspace) (file : String) (f : Fragment) : Workspace :=
  let w := w.dropFile file
  { w with
    imports := (w.imports.addNodes f.fileNodes).addEdges f.importEdges
    calls := ((w.calls.addNodes f.entityNodes).addEdges f.callEdges).addUnresolved f.unresolved }

/-- The description of a file, or the reason why there is none. -/
def describe (k : Toolkit) (d : Disk) (w : Workspace) (p : Path) :
    Except ExtractFault (Option Artifact) :=
  extract k.grammars w.languages w.root p ((d.readText p).mapError Fault.message)

/-- One file described and put into the graphs; without a description the graphs stay. -/
def index (k : Toolkit) (d : Disk) (w : Workspace) (p : Path) : Workspace × Report :=
  match FileId.ofPath? w.root p with
  | none => (w, { skipped := 1 })
  | some file =>
    match w.describe k d p with
    | .ok (some a) => (w.putFragment file (a.fragment file), .ofFragment (a.fragment file))
    | .ok none | .error (.unsupported _) => (w, { skipped := 1 })
    | .error _ => (w, { failed := 1 })

/-- Some files described and put into the graphs, in order. -/
def indexAll (k : Toolkit) (d : Disk) (w : Workspace) : List Path → Workspace × Report
  | [] => (w, {})
  | p :: ps =>
    let (w, r) := w.index k d p
    let (w, rest) := indexAll k d w ps
    (w, r.merge rest)

/-! ## Saving -/

/-- A workspace and a disk after an operation, and its result. -/
abbrev Outcome (α : Type) := Workspace × Disk × Except WorkspaceFault α

/-- A workspace with its graphs saved, and a result unless one could not be written. -/
def saved {α : Type} (k : Toolkit) (w : Workspace) (d : Disk) (result : α) : Outcome α :=
  match w.imports.save k.now d with
  | (imports, d, .error f) => ({ w with imports }, d, .error (.store f))
  | (imports, d, .ok _) =>
    match w.calls.save k.now d with
    | (calls, d, .error f) => ({ w with imports, calls }, d, .error (.store f))
    | (calls, d, .ok _) => ({ w with imports, calls }, d, .ok result)

/-- The result of an operation on the tracker of a workspace. -/
def withTracker {α : Type} (w : Workspace) : Tracker.Outcome α → Outcome α
  | (tracker, d, .ok a) => ({ w with tracker }, d, .ok a)
  | (tracker, d, .error f) => ({ w with tracker }, d, .error (.tracker f))

/-! ## Cycles -/

/-- Tracks a file and describes it. -/
def addFile (k : Toolkit) (p : Path) (w : Workspace) (d : Disk) : Outcome Report :=
  let p := w.absolute p
  if !w.supports p then (w, d, .ok { skipped := 1 })
  else
    match w.withTracker (w.tracker.addFile k p d) with
    | (w, d, .error f) => (w, d, .error f)
    | (w, d, .ok _) =>
      if w.tracker.isTracked p then
        let (w, r) := w.index k d p
        w.saved k d r
      else (w, d, .ok { skipped := 1 })

/-- Tracks the files of a folder and describes the new ones. -/
def addFolder (k : Toolkit) (folder : Path) (w : Workspace) (d : Disk) : Outcome Report :=
  match w.withTracker (w.tracker.addFolder k (w.absolute folder) d) with
  | (w, d, .error f) => (w, d, .error f)
  | (w, d, .ok added) =>
    let (w, r) := w.indexAll k d added
    w.saved k d r

/-- Tracks a file no more and takes it out of the graphs. -/
def removeFile (k : Toolkit) (p : Path) (w : Workspace) (d : Disk) : Outcome Report :=
  let p := w.absolute p
  match w.withTracker (w.tracker.removeFile k p d) with
  | (w, d, .error f) => (w, d, .error f)
  | (w, d, .ok wasTracked) =>
    let w := (FileId.ofPath? w.root p).elim w w.dropFile
    w.saved k d { removed := if wasTracked then 1 else 0 }

/-- The workspace without what the files of a folder own; the root holds everything. -/
def dropBelow (w : Workspace) (folder : Path) : Workspace :=
  if folder.same w.root then w.dropFolder ""
  else (FileId.ofPath? w.root folder).elim w w.dropFolder

/-- Tracks the files of a folder no more and takes them out of the graphs. -/
def removeFolder (k : Toolkit) (folder : Path) (w : Workspace) (d : Disk) : Outcome Report :=
  let folder := w.absolute folder
  match w.withTracker (w.tracker.removeFolder k folder d) with
  | (w, d, .error f) => (w, d, .error f)
  | (w, d, .ok removed) => (w.dropBelow folder).saved k d { removed := removed.length }

/-- Describes the tracked files that changed. -/
def sync (k : Toolkit) (w : Workspace) (d : Disk) : Outcome Report :=
  match w.withTracker (w.tracker.changedFiles k d) with
  | (w, d, .error f) => (w, d, .error f)
  | (w, d, .ok []) => (w, d, .ok {})
  | (w, d, .ok changed) =>
    let (w, r) := w.indexAll k d changed
    w.saved k d r

/-- Takes a deleted file out, if it was tracked. -/
def applyDeleted (k : Toolkit) (p : Path) (w : Workspace) (d : Disk) : Outcome Report :=
  let p := w.absolute p
  match w.withTracker (w.tracker.removeFile k p d) with
  | (w, d, .error f) => (w, d, .error f)
  | (w, d, .ok false) => (w, d, .ok {})
  | (w, d, .ok true) =>
    ((FileId.ofPath? w.root p).elim w w.dropFile, d, .ok { removed := 1 })

/-- Whether a file that is not tracked is tracked from now on when it changes. -/
def isWelcome (w : Workspace) (p : Path) : Bool :=
  w.tracker.covers p && w.supports p && Tracker.isCandidate w.tracker.extensions w.root p

/-- Describes a changed file, if it is tracked and its contents changed, or if it is new. -/
def applyModified (k : Toolkit) (p : Path) (w : Workspace) (d : Disk) : Outcome Report :=
  let p := w.absolute p
  let noticed : Tracker.Outcome Bool :=
    if w.tracker.isTracked p then w.tracker.refreshFile k p d
    else if w.isWelcome p then w.tracker.addFile k p d
    else (w.tracker, d, .ok false)
  match w.withTracker noticed with
  | (w, d, .error f) => (w, d, .error f)
  | (w, d, .ok false) => (w, d, .ok {})
  | (w, d, .ok true) =>
    let (w, r) := w.index k d p
    (w, d, .ok r)

/-- An operation for each of some paths, up to the first that fails. -/
def forEach (op : Path → Workspace → Disk → Outcome Report) :
    List Path → Workspace → Disk → Outcome Report
  | [], w, d => (w, d, .ok {})
  | p :: ps, w, d =>
    match op p w d with
    | (w, d, .error f) => (w, d, .error f)
    | (w, d, .ok r) =>
      match forEach op ps w d with
      | (w, d, .error f) => (w, d, .error f)
      | (w, d, .ok rest) => (w, d, .ok (r.merge rest))

/-- Applies a batch of changes: the deleted files first, then the changed ones. -/
def apply (k : Toolkit) (modified deleted : List Path) (w : Workspace) (d : Disk) :
    Outcome Report :=
  match forEach (applyDeleted k) deleted w d with
  | (w, d, .error f) => (w, d, .error f)
  | (w, d, .ok r) =>
    match forEach (applyModified k) modified w d with
    | (w, d, .error f) => (w, d, .error f)
    | (w, d, .ok s) =>
      let total := r.merge s
      if total.isNoop then (w, d, .ok total) else w.saved k d total

/-- Describes all tracked files anew. -/
def reindex (k : Toolkit) (w : Workspace) (d : Disk) : Outcome Report :=
  let empty := { w with imports := w.imports.clear, calls := w.calls.clear }
  let (w, r) := empty.indexAll k d w.tracker.files
  w.saved k d r

/-! ## Opening -/

/-- The workspace that settings describe, with what its documents hold. -/
def openAt (k : Toolkit) (languages : List Language) (s : WorkspaceSettings) (d : Disk) :
    Disk × Except WorkspaceFault Workspace :=
  match s.root.absoluteFrom? d.currentPath with
  | none => (d, .error (.root s.root .emptyPath))
  | some root =>
    let (tracker, d', result) : Tracker.Outcome Unit := match s.watchState with
      | some p => Tracker.openAt k p d
      | none => ({}, d, .ok ())
    match result with
    | .error f => (d', .error (.tracker f))
    | .ok _ =>
      (d', .ok
        { root, languages
          imports := .openAt .import s.importGraph d
          calls := .openAt .call s.callGraph d
          tracker := { tracker with extensions := Language.extensionsOf languages } })

end Workspace

end SourceGraph
