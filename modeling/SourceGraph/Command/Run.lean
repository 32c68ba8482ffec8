import SourceGraph.Command.Basic
import SourceGraph.Percent
import SourceGraph.Settings.Discovery
import SourceGraph.Watch.Ignore
import SourceGraph.Watch.Watcher

/-!
# Running commands

Each command takes the disk as it is and returns it with the changes, and what is printed or the
reason why the command failed.

* `CommandFault`: why a command fails, with its wording.
* `Command.settingsFor`: the settings under which a command runs.
* `Command.run`: the commands.
* `Watching.start`, `Watching.notice`: following changes.
-/

set_option autoImplicit false

namespace SourceGraph

/-- Why a command fails. -/
inductive CommandFault where
  | settings (f : SettingsFault)
  | settingsExist
  | folderNotMade (path : Path)
  | fileNotWritten (path : Path)
  | notOpened (root : Path)
  | workspace (f : WorkspaceFault)
  | notBelow (path : Path)
  | notWatched (root : Path)
deriving DecidableEq, Inhabited

/-- The fault in words. -/
def CommandFault.message : CommandFault → String
  | settings f => f.message
  | settingsExist => ".codeweave/config.toml already exists. Use --force to overwrite."
  | folderNotMade path => "Failed to create " ++ path.text
  | fileNotWritten path => "Failed to write " ++ path.text
  | notOpened root => "Failed to open workspace at " ++ root.text
  | workspace f => f.message
  | notBelow path => path.text ++ " is outside the workspace"
  | notWatched root => "Failed to watch " ++ root.text

/-- A workspace whose files are followed. -/
structure Watching where
  workspace : Workspace
  watcher : Watcher IgnoreRule.library

namespace Command

/-- The program and its version. -/
def version : String := "codeweave 0.0.1"

/-! ## Settings -/

/-- The settings under which a command runs, and the state folder. -/
def settingsFor (d : Disk) (given : Option Path) : Except CommandFault (Settings × Path) :=
  match given with
  | some p =>
    let file := if d.isFolder p then p.join Settings.fileName else p
    match Settings.load d file with
    | .ok s => .ok (s, (file.parent?).getD p)
    | .error f => .error (.settings f)
  | none =>
    match Settings.findFrom d d.currentPath with
    | .ok (some found) => .ok found
    | .ok none => .ok ({}, d.currentPath.join Settings.stateFolder)
    | .error f => .error (.settings f)

/-- The disk and what was printed, or why the command failed. -/
abbrev Outcome (α : Type) := Disk × Except CommandFault α

/-- The workspace that settings describe. -/
def openWorkspace (k : Toolkit) (s : WorkspaceSettings) (d : Disk) : Outcome Workspace :=
  match Workspace.openAt k Language.all s d with
  | (d, .ok w) => (d, .ok w)
  | (d, .error _) => (d, .error (.notOpened s.root))

/-- The opened workspace, given to a function. -/
def withWorkspace {α : Type} (k : Toolkit) (s : WorkspaceSettings) (d : Disk)
    (f : Workspace → Disk → Outcome α) : Outcome α :=
  match openWorkspace k s d with
  | (d, .ok w) => f w d
  | (d, .error e) => (d, .error e)

/-- A text that depends on the workspace alone. -/
def withWorkspaceText (k : Toolkit) (s : WorkspaceSettings) (d : Disk)
    (f : Workspace → Except CommandFault String) : Outcome String :=
  withWorkspace k s d fun w d => (d, f w)

/-! ## Texts -/

/-- A line of text. -/
def line (s : String) : String := s ++ "\n"

/-- The report of an operation. -/
def reportText (action : String) (r : Report) : String :=
  line (action ++ ": " ++ toString r.indexed ++ " indexed, " ++ toString r.skipped ++
    " skipped, " ++ toString r.failed ++ " failed, " ++ toString r.removed ++ " removed (" ++
    toString r.nodes ++ " nodes, " ++ toString r.edges ++ " edges, " ++
    toString r.unresolved ++ " unresolved)")

/-- When a store was saved. -/
def savedText (s : Store) : String := (s.savedAt.map (·.shown)).getD "never"

/-- The size of a graph. -/
def graphText (s : Store) (things : String) : String :=
  toString s.counts.nodes ++ " " ++ things ++ ", " ++ toString s.counts.edges ++
    " edges (saved " ++ savedText s ++ ")"

/-- The numbers of a workspace. -/
def statusText (w : Workspace) : String :=
  let unresolved := w.calls.counts.unresolved
  let sites := w.calls.counts.edges + unresolved
  line ("Workspace:     " ++ w.root.text) ++
    line ("Tracked files: " ++ toString w.tracker.size) ++
    line ("Import graph:  " ++ graphText w.imports "files") ++
    line ("Call graph:    " ++ graphText w.calls "entities") ++
    line ("Unresolved:    " ++ toString unresolved ++ " of " ++ toString sites ++
      " call sites (" ++ Percent.percentText unresolved sites ++ "%)")

/-- The tracked files as a tree. -/
def treeText (w : Workspace) : String :=
  if w.folderTree.isEmpty then line "No tracked files. Run 'codeweave add <path>' first."
  else w.folderTree.render

/-! ## Showing graphs -/

/-- Whether an id is that of a selected file. -/
abbrev FileTest := String → Bool

/-- The test for the selected files. -/
def fileTest (d : Disk) (w : Workspace) : Selection → Except CommandFault FileTest
  | .everything => .ok fun _ => true
  | .file p =>
    match (p.absoluteFrom? d.currentPath).bind w.fileId? with
    | some file => .ok (· == file)
    | none => .error (.notBelow p)
  | .folder p =>
    match p.absoluteFrom? d.currentPath with
    | none => .error (.notBelow p)
    | some full =>
      if full.same w.root then .ok fun _ => true
      else
        match w.fileId? full with
        | some folder => .ok (FileId.isWithin · folder)
        | none => .error (.notBelow p)

/-- The selected part of the graphs. -/
def graphJson (w : Workspace) (test : FileTest) (withCalls : Bool) : Json :=
  let nodes := (w.imports.nodeList ++ w.calls.nodeList).filter fun n => test n.fileId
  let importEdges := w.imports.edges.filter fun e => test e.sourceFile
  let callEdges := w.calls.edges.filter fun e => test e.sourceFile
  let unresolved := w.calls.unresolved.filter fun u => test u.sourceFile
  let edges := importEdges ++ (if withCalls then callEdges else [])
  .object
    ([("edges", .array (edges.map (·.toJson))), ("nodes", .array (nodes.map (·.toJson)))] ++
      (if withCalls then [("unresolved", .array (unresolved.map (·.toJson)))] else []))

/-! ## Commands -/

/-- Writes new settings into the current folder. -/
def runInit (d : Disk) (isForced : Bool) : Outcome String :=
  let file := Settings.stateFolder.join Settings.fileName
  if d.has file && !isForced then (d, .error .settingsExist)
  else
    match d.makeFolders Settings.stateFolder with
    | (d, .error _) => (d, .error (.folderNotMade Settings.stateFolder))
    | (d, .ok _) =>
      match d.write file Settings.initialText.toUTF8 with
      | .error _ => (d, .error (.fileNotWritten file))
      | .ok d =>
        (d, .ok (line ("Created " ++ file.text) ++ line "Next steps:" ++
          line "  1. Run 'codeweave add <path>' to track source files" ++
          line "  2. Run 'codeweave watch' to keep the graph in sync"))

/-- An operation on the workspace, and its report. -/
def runCycle (k : Toolkit) (s : WorkspaceSettings) (d : Disk) (action : String)
    (cycle : Workspace → Disk → Workspace.Outcome Report) : Outcome String :=
  withWorkspace k s d fun w d =>
    match cycle w d with
    | (_, d, .ok r) => (d, .ok (reportText action r))
    | (_, d, .error f) => (d, .error (.workspace f))

end Command

/-! ## Following changes -/

namespace Watching

/-- The folder for logs within the state folder. -/
def logFolder : Path := ⟨"logs"⟩

/-- The settings of the watcher. -/
def watcherSettings (s : Settings) : WatcherSettings :=
  { quietPeriod := s.quietPeriod, useIgnoreFiles := s.useIgnoreFiles }

/-- Catches up with the files: the root is added if nothing is tracked. -/
def catchUp (k : Toolkit) (w : Workspace) (d : Disk) : Workspace.Outcome Report :=
  if w.tracker.size = 0 then w.addFolder k w.root d else w.sync k d

/-- Catches up with the files, and starts to follow their changes. -/
def start (k : Toolkit) (s : Settings) (dir : Path) (d : Disk) : Command.Outcome Watching :=
  Command.withWorkspace k (s.workspace d dir) (d.makeFolders (dir.join logFolder)).1 fun w d =>
    match catchUp k w d with
    | (_, d, .error f) => (d, .error (.workspace f))
    | (workspace, d, .ok _) =>
      match Watcher.openAt? IgnoreRule.library d workspace.root (watcherSettings s) with
      | some watcher => (d, .ok { workspace, watcher })
      | none => (d, .error (.notWatched workspace.root))

/-- Applies the changes of touched files as one batch. A batch that cannot be saved is passed over. -/
def notice (k : Toolkit) (w : Watching) (touched : List Path) (d : Disk) : Watching × Disk :=
  let (events, watcher) := w.watcher.notice d touched
  let batch := FileEvent.gather events
  if batch.isEmpty then ({ w with watcher }, d)
  else
    let (workspace, d, _) := w.workspace.apply k batch.modified batch.deleted d
    ({ workspace, watcher }, d)

end Watching

namespace Command

/-- What a command printed, and why it failed if it did. -/
structure Output where
  text : String := ""
  fault : Option CommandFault := none
deriving Inhabited

/-- What is printed while changes are followed. -/
def watchText : String := line "Watching for changes (Ctrl-C to stop)..."

/-- A failed command printed nothing. -/
def Output.ofOutcome : Outcome String → Disk × Output
  | (d, .ok text) => (d, { text })
  | (d, .error f) => (d, { fault := some f })

/-- A command under settings. -/
def runUnder (k : Toolkit) (s : Settings) (dir : Path) (d : Disk) : Command → Outcome String
  | init isForced => runInit d isForced
  | add path =>
    let p := (path.absoluteFrom? d.currentPath).getD path
    runCycle k (s.workspace d dir) d "Added" fun w d =>
      if d.isFolder p then w.addFolder k p d else w.addFile k p d
  | remove path =>
    let p := (path.absoluteFrom? d.currentPath).getD path
    runCycle k (s.workspace d dir) d "Removed" fun w d =>
      if w.tracker.isTracked p then w.removeFile k p d else w.removeFolder k p d
  | sync => runCycle k (s.workspace d dir) d "Synced" fun w d => w.sync k d
  | reindex => runCycle k (s.workspace d dir) d "Reindexed" fun w d => w.reindex k d
  | watch =>
    match Watching.start k s dir d with
    | (d, .ok _) => (d, .ok "")
    | (d, .error f) => (d, .error f)
  | status => withWorkspaceText k (s.workspace d dir) d fun w => .ok (statusText w)
  | «show» files withCalls =>
    withWorkspaceText k (s.workspace d dir) d fun w =>
      (fileTest d w files).map fun test => line (graphJson w test withCalls).sortFields.pretty
  | tree => withWorkspaceText k (s.workspace d dir) d fun w => .ok (treeText w)

/-- A command. New settings do not depend on those that are there. -/
def run (k : Toolkit) (given : Option Path) (d : Disk) : Command → Disk × Output
  | init isForced => Output.ofOutcome (runInit d isForced)
  | c =>
    match settingsFor d given with
    | .error f => (d, { fault := some f })
    | .ok (s, dir) =>
      let (d, output) := Output.ofOutcome (c.runUnder k s dir d)
      (d, if c = .watch then { output with text := watchText } else output)

end Command

end SourceGraph
