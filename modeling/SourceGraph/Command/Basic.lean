import SourceGraph.Path

/-!
# Commands

What the program can be asked to do.

* `Selection`: the files whose graph is shown.
* `Command`: the commands.
* `Invocation`: a command with the options that go with all of them.
-/

set_option autoImplicit false

namespace SourceGraph

/-- The files whose graph is shown. -/
inductive Selection where
  | everything
  | file (path : Path)
  | folder (path : Path)
deriving DecidableEq, Inhabited

/-- A command. -/
inductive Command where
  /-- Write new settings; `isForced` replaces those that are there. -/
  | init (isForced : Bool)
  /-- Track a file or folder. -/
  | add (path : Path)
  /-- Track a file or folder no more. -/
  | remove (path : Path)
  /-- Describe the files that changed. -/
  | sync
  /-- Describe all files anew. -/
  | reindex
  /-- Follow the changes of files. -/
  | watch
  /-- Show numbers. -/
  | status
  /-- Show the graphs. -/
  | show (files : Selection) (withCalls : Bool)
  /-- Show the tracked files. -/
  | tree
deriving DecidableEq, Inhabited

/-- A command with the options that go with all of them. -/
structure Invocation where
  command : Command
  /-- The settings, or the folder with them. -/
  settings : Option Path := none
  isVerbose : Bool := false
deriving DecidableEq, Inhabited

end SourceGraph
