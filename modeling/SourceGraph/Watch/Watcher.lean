import SourceGraph.Disk.Enumerate
import SourceGraph.Language.Basic
import SourceGraph.Watch.Batch
import SourceGraph.Watch.Library

/-!
# Watchers

A watcher is told which files below its root were touched and makes events of it. Paths that are
ignored, or whose extension is not listed, give none.

Formalises `FileWatcher` without the threads and the timing: `with_config` (here `openAt?`),
`build_gitignore` (`rulesFor?`), `should_ignore` (`ignores`), `classify` and `enqueue` (`notice`).

* `WatcherSettings`: what is watched and how.
* `Watcher.openAt?`: a watcher for a folder.
* `Watcher.ignores`: the filter.
* `Watcher.notice`: the events for touched paths.
* `FileEvent.gather`: events as one batch.
-/

set_option autoImplicit false

namespace SourceGraph

/-- What is watched and how. -/
structure WatcherSettings where
  /-- The quiet period before events are given out, in milliseconds. -/
  quietPeriod : Nat := 300
  extensions : List String := Language.allExtensions
  /-- Whether ignore rules apply. -/
  useIgnoreFiles : Bool := true
  /-- Ignore rules besides those in files. -/
  ignorePatterns : List String :=
    ["node_modules", ".git", "__pycache__", ".codeweave", "*.pyc"]
deriving DecidableEq, Inhabited

/-- A watched folder, with a library for ignore rules. -/
structure Watcher (L : IgnoreLibrary) where
  /-- The root as it was given. -/
  root : Path
  /-- The absolute path of the root, under which events are reported. -/
  base : Path
  /-- The names that lead from the top of the disk to the root. -/
  place : List String
  extensions : List String
  /-- The ignore rules, if any apply. -/
  rules : Option L.Rules
  /-- The files that were there. -/
  known : List Path
deriving Inhabited

namespace Watcher

variable {L : IgnoreLibrary}

/-- The files with ignore rules, in their order. -/
def ignoreFiles : List Path := [⟨".gitignore"⟩, ⟨".codeweaveignore"⟩]

/-- The contents of the ignore files that a folder has. -/
def ignoreContents (d : Disk) (root : Path) : List ByteArray :=
  ignoreFiles.filterMap fun name => (d.read (root.join name)).toOption

/-- The ignore rules for a folder. One that is invalid among the patterns makes all void. -/
def rulesFor? (L : IgnoreLibrary) (d : Disk) (root : Path) (s : WatcherSettings) : Option L.Rules :=
  if s.useIgnoreFiles then L.assemble? root (ignoreContents d root) s.ignorePatterns else none

/-- A watcher for a file or folder, if it is there. -/
def openAt? (L : IgnoreLibrary) (d : Disk) (root : Path) (s : WatcherSettings) :
    Option (Watcher L) :=
  let base := d.currentPath.absolutize root
  let watcher := fun place : List String =>
    ({ root, base, place, extensions := s.extensions, rules := rulesFor? L d root s,
       known := d.enumerate s.extensions root } : Watcher L)
  match d.find base with
  | .ok (.folder names _) | .ok (.file names _) => some (watcher names)
  | _ => none

/-! ## Filter -/

/-- Whether the ignore rules ignore a path. -/
def isExcluded (w : Watcher L) (d : Disk) (p : Path) : Bool :=
  w.rules.any fun rules => p.isBelow (L.folder rules) && L.ignores rules p (d.isFolder p)

/-- Whether a path gives no events. -/
def ignores (w : Watcher L) (d : Disk) (p : Path) : Bool :=
  w.isExcluded d p || !Tracker.hasExtension w.extensions p

/-! ## Events -/

/-- Whether a file was there. -/
def isKnown (w : Watcher L) (p : Path) : Bool := w.known.any (·.same p)

/-- The event for a touched path, and the watcher that knows of it. -/
def classify (w : Watcher L) (d : Disk) (p : Path) : FileEvent × Watcher L :=
  if d.has p then
    if w.isKnown p then (.modified p, w) else (.created p, { w with known := p :: w.known })
  else (.deleted p, { w with known := w.known.filter (!·.same p) })

/-- The events for touched paths, in order. -/
def notice (w : Watcher L) (d : Disk) : List Path → List FileEvent × Watcher L
  | [] => ([], w)
  | p :: ps =>
    if w.ignores d p then w.notice d ps
    else
      let (e, w) := w.classify d p
      let (es, w) := w.notice d ps
      (e :: es, w)

/-- The path under which a file or folder is reported, given the names that lead to it. -/
def reportedPath? (w : Watcher L) (names : List String) : Option Path :=
  if w.place.isPrefixOf names then
    some ((names.drop w.place.length).foldl (fun p name => p.join ⟨name⟩) w.base)
  else none

end Watcher

/-- Events as one batch. -/
def FileEvent.gather (es : List FileEvent) : Batch :=
  (es.foldl (fun b e => b.push e 0) ({ quiet := 0 } : Batcher)).batch

end SourceGraph
