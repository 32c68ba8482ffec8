import Std.Time.DateTime
import SourceGraph.Command.Arguments
import SourceGraph.Command.Run
import SourceGraph.Digest

/-!
# The program

The outer layer: it reads the folders that a command works on, runs the command, writes back what
changed and prints what there is to print. The syntax tree of a source file is taken from the file
beside it with `.tree.json` at the end of its name.

* `Program.loadDisk`, `Program.store`: folders read and written.
* `Program.toolkit`: trees, digests and the time.
* `Program.follow`: the loop of the `watch` command.
* `main`: the program.
-/

set_option autoImplicit false

namespace SourceGraph.Program

/-! ## Folders -/

/-- A path below a folder. -/
def below (folder name : String) : String := if folder = "/" then "/" ++ name else folder ++ "/" ++ name

/-- The contents of a folder. What cannot be read is passed over. -/
partial def load (folder : String) : IO Listing := do
  let mut found := Listing.nil
  for e in ← (← IO.FS.realPath folder).readDir do
    try
      let path := below folder e.fileName
      if ← e.path.isDir then
        found := found.put e.fileName (.folder (← load path))
      else
        found := found.put e.fileName (.file (← IO.FS.readBinFile path))
    catch _ => pure ()
  return found

/-- The contents of a folder put in at the end of some names. -/
def graft (inside : Listing) : List String → Listing → Listing
  | [], _ => inside
  | name :: names, l =>
    let next := match l.get? name with
      | some (.folder inner) => inner
      | _ => .nil
    l.put name (.folder (graft inside names next))

/-- The names that an absolute path leads through. -/
def namesOf (path : String) : List String := (Path.mk path).components.filterMap Component.name?

/-- Whether there is a file or folder. -/
def isThere (path : String) : IO Bool := do
  try
    discard (IO.FS.realPath path)
    return true
  catch _ => return false

/-- Whether there is a folder. -/
def isFolder (path : String) : IO Bool := do
  if ← isThere path then (← IO.FS.realPath path).isDir else return false

/-- The nearest folder at or above a path that has a state folder, or the path itself. -/
def homeOf (current : String) : IO String := do
  let path : Path := ⟨current⟩
  for p in path.upwards (path.components.length + 1) do
    if ← isThere ((p.join Settings.stateFolder).join Settings.fileName).text then
      return p.text
  return current

/-- The folders that a command works on. -/
def loadDisk (current : String) (settings : Option Path) : IO Disk := do
  let home ← homeOf current
  let top := graft (← load home) (namesOf home) .nil
  let extra ← match settings with
    | none => pure none
    | some p =>
      let given := ((Path.mk current).absolutize p).text
      if ← isFolder given then pure (some given)
      else pure (((Path.mk given).parent?).map Path.text)
  let top ← match extra with
    | none => pure top
    | some folder =>
      if ← isFolder folder then pure (graft (← load folder) (namesOf folder) top) else pure top
  return { top, current := namesOf current }

/-- Writes the files and folders of a listing that differ from those of another. -/
def store (folder : String) (old : Listing) : Listing → IO Unit
  | .nil => pure ()
  | .file name content rest => do
    let isSame := match old.get? name with
      | some (.file before) => before == content
      | _ => false
    if !isSame then
      IO.FS.writeBinFile (below folder name) content
    store folder old rest
  | .folder name inside rest => do
    let before ← match old.get? name with
      | some (.folder before) => pure before
      | _ => do
        IO.FS.createDirAll (below folder name)
        pure .nil
    store (below folder name) before inside
    store folder old rest

/-! ## Tools -/

/-- Source texts with their trees. -/
abbrev Trees := List ((Language × String) × SyntaxTree)

/-- The tree of a source file in a folder. -/
def treeIn? (folder : Listing) (name : String) (content : ByteArray) :
    Option ((Language × String) × SyntaxTree) := do
  let language ← Language.ofPath? ⟨name⟩
  let text ← String.fromUTF8? content
  match folder.get? (name ++ ".tree.json") with
  | some (.file rows) =>
    let tree ← SyntaxTree.ofJson? (← Json.parse? Json.usualDepth (← String.fromUTF8? rows))
    return ((language, text), tree)
  | _ => none

/-- The trees of the source files in a folder and below. -/
def treesIn (folder : Listing) : Listing → Trees
  | .nil => []
  | .file name content rest => (treeIn? folder name content).toList ++ treesIn folder rest
  | .folder _ inside rest => treesIn inside inside ++ treesIn folder rest

/-- Trees, digests and the time. -/
def toolkit (d : Disk) : IO Toolkit := do
  let trees := treesIn d.top d.top
  let now ← Std.Time.Timestamp.now
  return {
    grammars := fun language text => trees.lookup (language, text)
    digest := Digest.sha256
    now := .ofSeconds now.val.second.val.toNat now.val.nano.val.toNat }

/-! ## Following changes -/

/-- The names of the files of a listing that are absent from another or differ. -/
def changes (above : List String) (other : Listing) : Listing → List (List String)
  | .nil => []
  | .file name content rest =>
    let isSame := match other.get? name with
      | some (.file before) => before == content
      | _ => false
    (if isSame then [] else [above ++ [name]]) ++ changes above other rest
  | .folder name inside rest =>
    let before := match other.get? name with
      | some (.folder before) => before
      | _ => .nil
    changes (above ++ [name]) before inside ++ changes above other rest

/-- Looks for changes again and again, and applies them. -/
partial def follow (current : String) (settings : Option Path) (pause : UInt32) (old : Disk)
    (w : Watching) : IO Unit := do
  IO.sleep pause
  let seen ← loadDisk current settings
  let touched := (changes [] old.top seen.top ++ changes [] seen.top old.top).eraseDups
  let (w, disk) := w.notice (← toolkit seen) (touched.filterMap w.watcher.reportedPath?) seen
  store "/" seen.top disk.top
  follow current settings pause disk w

/-- The `watch` command. -/
def watch (current : String) (given : Option Path) (d : Disk) : IO (Option CommandFault) := do
  match Command.settingsFor d given with
  | .error f => return some f
  | .ok (s, dir) =>
    IO.print Command.watchText
    (← IO.getStdout).flush
    match Watching.start (← toolkit d) s dir d with
    | (disk, .error f) =>
      store "/" d.top disk.top
      return some f
    | (disk, .ok w) =>
      store "/" d.top disk.top
      follow current given s.quietPeriod.toUInt32 disk w
      return none

/-! ## Running -/

/-- How the program is used. -/
def usage : String := "Usage: codeweave [OPTIONS] <COMMAND>"

/-- Runs an invocation; returns the exit code. -/
def run (call : Invocation) : IO UInt32 := do
  let current := (← IO.currentDir).toString
  let disk ← loadDisk current call.settings
  let failure ← match call.command with
    | .watch => watch current call.settings disk
    | command => do
      let (after, output) := command.run (← toolkit disk) call.settings disk
      store "/" disk.top after.top
      IO.print output.text
      pure output.fault
  match failure with
  | none => return 0
  | some f =>
    IO.eprintln ("Error: " ++ f.message)
    return 1

end SourceGraph.Program

open SourceGraph in
/-- The program. -/
def main (args : List String) : IO UInt32 := do
  match Invocation.ofArguments (← IO.getEnv "CODEWEAVE_CONFIG") args with
  | .ok call => Program.run call
  | .error .version =>
    IO.println Command.version
    return 0
  | .error .help =>
    IO.println Program.usage
    return 0
  | .error .usage =>
    IO.eprintln Program.usage
    return 2
