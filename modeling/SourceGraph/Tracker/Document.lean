import SourceGraph.Json.General
import SourceGraph.Store.Document
import SourceGraph.Toolkit
import SourceGraph.Tracker.Basic

/-!
# Trackers as documents

A tracker is kept as one JSON document, which is written after every change. An earlier shape of the
document names folders as well as files; it is brought into the current shape when it is read, and
written back at once.

Formalises `WatchService` with its document: `open`, `load`, `migrate` and `save`, the records
`WatchStateDocument` and `LegacyWatchStateDocument`, and the operations that save.

* `TrackerDocument`: the contents of a document, with a writer and a reader.
* `EarlierDocument`: the earlier shape; `Tracker.adopt` takes it over.
* `Tracker.openAt`: the tracker that is kept at a path.
* `Tracker.addFile`, `Tracker.addFolder`, `Tracker.removeFile`, `Tracker.removeFolder`,
  `Tracker.changedFiles`, `Tracker.refreshFile`: changes with the saving of them.
-/

set_option autoImplicit false

namespace SourceGraph

open Json

/-! ## Shapes -/

/-- A saved tracker. -/
structure TrackerDocument where
  version : String
  savedAt : Timestamp
  files : List String := []
  hashes : List (String × String) := []
deriving DecidableEq, Inhabited

namespace TrackerDocument

/-- The version of the shape of documents. -/
def currentVersion : String := "2.0.0"

def toJson (d : TrackerDocument) : Json :=
  .object [("version", .string d.version), ("timestamp", .string d.savedAt.text),
    ("watchedFiles", .array (d.files.map .string)),
    ("fileHashes", .object (d.hashes.map fun h => (h.1, .string h.2)))]

def ofJson? (j : Json) : Option TrackerDocument := do
  let r ← record? ["version", "timestamp", "watchedFiles", "fileHashes"] j
  let version ← r.required? "version" string?
  let savedAt ← r.required? "timestamp" fun j => (string? j).bind Timestamp.parse?
  let files ← r.default? "watchedFiles" (list? string?) []
  let hashes ← r.default? "fileHashes" (table? string?) []
  return { version, savedAt, files, hashes }

end TrackerDocument

/-- A file or a folder of the earlier shape. -/
structure EarlierEntry where
  path : Path
  isFolder : Bool
  hash : Option String
deriving DecidableEq, Inhabited

/-- The words for files and folders in the earlier shape. -/
def EarlierEntry.kindOf? (j : Json) : Option Bool :=
  match name? j with
  | some "file" => some false
  | some "directory" | some "folder" | some "dir" => some true
  | _ => none

def EarlierEntry.ofJson? (j : Json) : Option EarlierEntry := do
  let r ← record? ["path", "type", "hash"] j
  let path ← r.required? "path" string?
  let isFolder ← r.required? "type" kindOf?
  let hash ← r.optional? "hash" string?
  return { path := ⟨path⟩, isFolder, hash }

/-- A saved tracker of the earlier shape. -/
structure EarlierDocument where
  entries : List EarlierEntry := []
  hashes : List (String × String) := []
deriving DecidableEq, Inhabited

def EarlierDocument.ofJson? (j : Json) : Option EarlierDocument := do
  let r ← record? ["watchedPaths", "fileHashes"] j
  let entries ← r.default? "watchedPaths" (list? EarlierEntry.ofJson?) []
  let hashes ← r.default? "fileHashes" (table? string?) []
  return { entries, hashes }

/-- The version that a value states; without one it is an early one. -/
def statedVersion (j : Json) : String := ((j.field? "version").bind string?).getD "1.0.0"

/-- Whether a version has the earlier shape. -/
def isEarlier (version : String) : Bool := Text.begins "1." version || version == "1"

namespace Tracker

/-! ## Reading -/

/-- The tracker with the contents of a document; digests of other files are dropped. -/
def fill (t : Tracker) (doc : TrackerDocument) : Tracker :=
  let watched := doc.files.foldl (·.insert ·) (∅ : Std.ExtTreeSet String)
  let known := doc.hashes.filter fun h => watched.contains h.1
  { t with watched, hashes := known.foldl (fun m h => m.insert h.1 h.2) ∅ }

/-- The tracker with a key, and a digest if there is one. -/
def enlist (t : Tracker) (key : String) (hash : Option String) : Tracker :=
  { t with
    watched := t.watched.insert key
    hashes := hash.elim t.hashes (t.hashes.insert key) }

/-- The tracker with one entry of the earlier shape; folders are expanded. -/
def adoptEntry (d : Disk) (hashes : List (String × String)) (t : Tracker) (e : EarlierEntry) :
    Tracker :=
  if e.isFolder then
    (d.enumerate t.extensions e.path).foldl
      (fun t p => t.enlist p.normalized (hashes.lookup p.normalized)) t
  else t.enlist e.path.normalized (e.hash.or (hashes.lookup e.path.normalized))

/-- The tracker with the contents of a document of the earlier shape. -/
def adopt (d : Disk) (t : Tracker) (doc : EarlierDocument) : Tracker :=
  doc.entries.foldl (adoptEntry d doc.hashes) t

/-- The tracker with what its document holds, and whether that had the earlier shape. -/
def load (t : Tracker) (d : Disk) : Tracker × Bool :=
  let found := t.path.bind fun p =>
    match d.readText p with
    | .ok s => Json.general? s
    | .error _ => none
  match found with
  | none => (t, false)
  | some j =>
    if isEarlier (statedVersion j) then
      match EarlierDocument.ofJson? j with
      | some doc => (t.adopt d doc, true)
      | none => (t, false)
    else
      match TrackerDocument.ofJson? j with
      | some doc => (t.fill doc, false)
      | none => (t, false)

/-! ## Writing -/

/-- The contents of a tracker as a document. -/
def toDocument (t : Tracker) (now : Timestamp) : TrackerDocument where
  version := TrackerDocument.currentVersion
  savedAt := now
  files := t.watched.toList
  hashes := t.hashes.toList

/-- The disk with the document of a tracker. -/
def save (t : Tracker) (now : Timestamp) (d : Disk) : Disk × Except SaveFault Unit :=
  match t.path with
  | none => (d, .ok ())
  | some p =>
    match d.save p (t.toDocument now).toJson.pretty.toUTF8 with
    | (d, .ok _) => (d, .ok ())
    | (d, .error reason) => (d, .error ⟨p, reason⟩)

/-- A tracker and a disk after an operation, and its result. -/
abbrev Outcome (α : Type) := Tracker × Disk × Except SaveFault α

/-- A changed tracker with its document, and a result unless the document could not be written. -/
def saved {α : Type} (t : Tracker) (now : Timestamp) (d : Disk) (result : α) : Outcome α :=
  match t.save now d with
  | (d, .ok _) => (t, d, .ok result)
  | (d, .error f) => (t, d, .error f)

/-- The tracker that is kept at a path. -/
def openAt (k : Toolkit) (path : Path) (d : Disk) : Outcome Unit :=
  match load { path := some path } d with
  | (t, true) => t.saved k.now d ()
  | (t, false) => (t, d, .ok ())

/-! ## Operations -/

/-- Tracks a file; tells whether it was added. -/
def addFile (k : Toolkit) (p : Path) (t : Tracker) (d : Disk) : Outcome Bool :=
  match t.track? k.digest d p with
  | none => (t, d, .ok false)
  | some t => t.saved k.now d true

/-- Tracks the files of a folder; tells which were added. -/
def addFolder (k : Toolkit) (folder : Path) (t : Tracker) (d : Disk) : Outcome (List Path) :=
  match t.trackAll k.digest d (d.enumerate t.extensions folder) with
  | (t, []) => (t, d, .ok [])
  | (t, added) => t.saved k.now d added

/-- Tracks a file no more; tells whether it was tracked. -/
def removeFile (k : Toolkit) (p : Path) (t : Tracker) (d : Disk) : Outcome Bool :=
  if t.isTracked p then (t.erase p.normalized).saved k.now d true else (t, d, .ok false)

/-- Tracks the files of a folder no more; tells which were tracked. -/
def removeFolder (k : Toolkit) (folder : Path) (t : Tracker) (d : Disk) : Outcome (List Path) :=
  match t.filesWithin folder with
  | [] => (t, d, .ok [])
  | keys => (t.eraseAll keys).saved k.now d (keys.map Path.mk)

/-- Compares all tracked files with their digests; tells which changed. -/
def changedFiles (k : Toolkit) (t : Tracker) (d : Disk) : Outcome (List Path) :=
  match t.rescan k.digest d with
  | (t, []) => (t, d, .ok [])
  | (t, changed) => t.saved k.now d changed

/-- Compares a tracked file with its digest; tells whether it changed. -/
def refreshFile (k : Toolkit) (p : Path) (t : Tracker) (d : Disk) : Outcome Bool :=
  match t.refresh? k.digest d p with
  | none => (t, d, .ok false)
  | some t => t.saved k.now d true

end Tracker

end SourceGraph
