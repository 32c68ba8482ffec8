import SourceGraph.Disk.Basic
import SourceGraph.Settings.Basic
import SourceGraph.Workspace.Basic

/-!
# Finding settings

Settings are looked for in the state folder of a folder, then in that of the folder above, and so
on. The first file that is there decides.

Formalises `find_and_load_from` and `load_config`.

* `Settings.load`: the settings in a file.
* `Settings.findFrom`: the settings that apply in a folder, with their state folder.
* `Settings.workspace`: the settings of the workspace itself.
-/

set_option autoImplicit false

namespace SourceGraph

/-- Why settings cannot be used. -/
inductive SettingsFault where
  | unreadable (path : Path)
  | malformed (path : Path)
deriving DecidableEq, Inhabited

/-- The fault in words. -/
def SettingsFault.message : SettingsFault → String
  | unreadable path => "Failed to read config file: " ++ path.text
  | malformed path => "Failed to parse config file: " ++ path.text

/-- The path and the paths above it, at most `n` in all. -/
def Path.upwards : Nat → Path → List Path
  | 0, _ => []
  | n + 1, p => p :: (p.parent?.elim [] (upwards n))

namespace Settings

/-- The settings in a file. -/
def load (d : Disk) (p : Path) : Except SettingsFault Settings :=
  match d.readText p with
  | .error _ => .error (.unreadable p)
  | .ok s =>
    match parse? s with
    | some settings => .ok settings
    | none => .error (.malformed p)

/-- The settings that apply in a folder, with their state folder. -/
def findFrom (d : Disk) (start : Path) : Except SettingsFault (Option (Settings × Path)) :=
  let folders := (start.upwards (start.components.length + 1)).map (·.join stateFolder)
  match folders.find? fun dir => d.has (dir.join fileName) with
  | none => .ok none
  | some dir => (load d (dir.join fileName)).map fun s => some (s, dir)

/-- The settings of the workspace, for a state folder. -/
def workspace (s : Settings) (d : Disk) (dir : Path) : WorkspaceSettings where
  root := s.rootPath d.canonical? dir
  importGraph := some (storagePath dir s.importGraph)
  callGraph := some (storagePath dir s.callGraph)
  watchState := some (storagePath dir s.watchState)

end Settings

end SourceGraph
