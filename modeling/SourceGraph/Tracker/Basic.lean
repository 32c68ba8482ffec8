import Std.Data.ExtTreeMap
import Std.Data.ExtTreeSet
import SourceGraph.Disk.Enumerate
import SourceGraph.FileId
import SourceGraph.Language.Basic

/-!
# Trackers

A tracker knows the files that are in scope and the last digest of each. Only files are tracked; a
folder is expanded when it is added, and whether it is tracked follows from its files. Files are
known by their normalized path.

Formalises the state of `WatchService`, with what its `add_file`, `add_folder`, `remove_file`,
`remove_folder`, `get_changed_files` and `refresh_file` do before they save (here `track?`,
`trackAll`, `erase`, `eraseAll`, `rescan` and `refresh?`), and its `covers_path`.

* `Tracker`: the tracked files with their digests.
* `Tracker.track?`, `Tracker.trackAll`, `Tracker.erase`, `Tracker.eraseAll`: changes of scope.
* `Tracker.rescan`, `Tracker.refresh?`: comparison with the contents of files.
* `Tracker.covers`: whether a path lies below a folder that directly holds a tracked file.

What is saved, and when, is the matter of `SourceGraph.Tracker.Document`.
-/

set_option autoImplicit false

namespace SourceGraph

/-- Tracked files and their digests. -/
structure Tracker where
  /-- The document; a tracker without one is kept in memory only. -/
  path : Option Path := none
  /-- The extensions that the expansion of folders picks up. -/
  extensions : List String := Language.allExtensions
  watched : Std.ExtTreeSet String := ∅
  hashes : Std.ExtTreeMap String String := ∅

namespace Tracker

/-- The digest of a file, if it can be read. -/
def hashOf? (digest : ByteArray → String) (d : Disk) (p : Path) : Option String :=
  match d.read p with
  | .ok content => some (digest content)
  | .error _ => none

/-! ## Questions -/

/-- Whether a file is tracked. -/
def isTracked (t : Tracker) (p : Path) : Bool := t.watched.contains p.normalized

/-- Whether a file of a folder is tracked. -/
def holdsFolder (t : Tracker) (folder : Path) : Bool :=
  t.watched.toList.any (FileId.isWithin · folder.normalized)

/-- Whether a path lies below a folder that directly holds a tracked file. -/
def covers (t : Tracker) (p : Path) : Bool :=
  t.watched.toList.any fun file =>
    let dir := FileId.parent file
    dir ≠ "" && FileId.isWithin p.normalized dir

/-- The tracked files, sorted. -/
def files (t : Tracker) : List Path := t.watched.toList.map Path.mk

/-- The number of tracked files. -/
def size (t : Tracker) : Nat := t.watched.size

/-- The last digest of a file. -/
def hash? (t : Tracker) (p : Path) : Option String := t.hashes[p.normalized]?

/-! ## Scope -/

/-- The tracker with a file under a key, and its digest. -/
def insert (t : Tracker) (key hash : String) : Tracker :=
  { t with watched := t.watched.insert key, hashes := t.hashes.insert key hash }

/-- The tracker without a key. -/
def erase (t : Tracker) (key : String) : Tracker :=
  { t with watched := t.watched.erase key, hashes := t.hashes.erase key }

/-- The tracker with a file, if it was not tracked and can be read. -/
def track? (digest : ByteArray → String) (d : Disk) (t : Tracker) (p : Path) : Option Tracker :=
  if t.isTracked p then none else (hashOf? digest d p).map (t.insert p.normalized)

/-- The tracker with some files, and those that were added. -/
def trackAll (digest : ByteArray → String) (d : Disk) (t : Tracker) : List Path → Tracker × List Path
  | [] => (t, [])
  | p :: ps =>
    match track? digest d t p with
    | none => trackAll digest d t ps
    | some t =>
      let (t, added) := trackAll digest d t ps
      (t, p :: added)

/-- The tracked files of a folder. -/
def filesWithin (t : Tracker) (folder : Path) : List String :=
  t.watched.toList.filter (FileId.isWithin · folder.normalized)

/-- The tracker without some keys. -/
def eraseAll (t : Tracker) (keys : List String) : Tracker := keys.foldl erase t

/-! ## Contents -/

/-- The tracker with the digest of a tracked file, if that is another one than before. -/
def refresh? (digest : ByteArray → String) (d : Disk) (t : Tracker) (p : Path) : Option Tracker :=
  if t.isTracked p then
    match hashOf? digest d p with
    | some hash =>
      if t.hashes[p.normalized]? = some hash then none
      else some { t with hashes := t.hashes.insert p.normalized hash }
    | none => none
  else none

/-- Digests after a look at some keys, and the keys whose digest changed. -/
def scan (digest : ByteArray → String) (d : Disk) (hashes : Std.ExtTreeMap String String) :
    List String → Std.ExtTreeMap String String × List String
  | [] => (hashes, [])
  | key :: keys =>
    match hashOf? digest d ⟨key⟩ with
    | none => scan digest d hashes keys
    | some hash =>
      if hashes[key]? = some hash then scan digest d hashes keys
      else
        let (hashes, changed) := scan digest d (hashes.insert key hash) keys
        (hashes, key :: changed)

/-- The tracker with the current digests, and the files that changed. Unreadable files stay. -/
def rescan (digest : ByteArray → String) (d : Disk) (t : Tracker) : Tracker × List Path :=
  let (hashes, changed) := scan digest d t.hashes t.watched.toList
  ({ t with hashes }, changed.map Path.mk)

end Tracker

end SourceGraph
