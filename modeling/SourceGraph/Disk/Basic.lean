import SourceGraph.Disk.Listing
import SourceGraph.Path

/-!
# Disks

A disk holds folders and files, and there is a current folder from which relative paths are taken.
A path leads through its segments one by one: empty ones and `.` stay, `..` leads to the folder
above, any other is looked up. An operation of one step that fails leaves the disk as it is; one of
several steps returns the disk with what was done before.

* `Fault`: why an operation fails, with its wording.
* `Disk.find`: what a path leads to.
* `Disk.read`, `Disk.write`, `Disk.makeFolder`, `Disk.rename`, `Disk.remove`, `Disk.removeFolder`:
  operations of one step.
* `Disk.makeFolders`, `Disk.save`, `Disk.replace`: operations of several steps.
-/

set_option autoImplicit false

namespace SourceGraph

/-- Why an operation on a disk fails. -/
inductive Fault where
  | missing
  | alreadyThere
  | notFolder
  | isFolder
  /-- The bytes of a file are no text. -/
  | notText
  /-- The empty path has no absolute form. -/
  | emptyPath
deriving DecidableEq, Inhabited

/-- The fault in words. -/
def Fault.message : Fault → String
  | missing => "No such file or directory (os error 2)"
  | alreadyThere => "File exists (os error 17)"
  | notFolder => "Not a directory (os error 20)"
  | isFolder => "Is a directory (os error 21)"
  | notText => "stream did not contain valid UTF-8"
  | emptyPath => "cannot make an empty path absolute"

/-- Folders and files, and the current folder. -/
structure Disk where
  top : Listing
  /-- The names that lead from the top to the current folder. -/
  current : List String
deriving Inhabited

/-- What a path leads to. -/
inductive Spot where
  | folder (names : List String) (inside : Listing)
  | file (names : List String) (content : ByteArray)
  /-- Nothing, but a folder in which it could be; `slashed` tells whether a separator followed. -/
  | absent (names : List String) (name : String) (slashed : Bool)

namespace Disk

/-! ## Finding -/

/-- What segments lead to from a folder. -/
def walk (top : Listing) (here : List String) : List String → Except Fault Spot
  | [] =>
    match top.at? here with
    | some (.folder inside) => .ok (.folder here inside)
    | _ => .error .missing
  | s :: rest =>
    if s = "" ∨ s = "." then walk top here rest
    else if s = ".." then walk top here.dropLast rest
    else
      match top.at? (here ++ [s]) with
      | some (.folder _) => walk top (here ++ [s]) rest
      | some (.file content) =>
        if rest = [] then .ok (.file (here ++ [s]) content) else .error .notFolder
      | none =>
        if rest.all (· == "") then .ok (.absent here s (!rest.isEmpty)) else .error .missing

/-- What a path leads to. -/
def find (d : Disk) (p : Path) : Except Fault Spot :=
  if p.text = "" then .error .missing
  else walk d.top (if p.isAbsolute then [] else d.current) p.segments

/-- Whether a path leads to a file or folder. -/
def has (d : Disk) (p : Path) : Bool :=
  match d.find p with
  | .ok (.folder _ _) | .ok (.file _ _) => true
  | _ => false

/-- Whether a path leads to a file. -/
def isFile (d : Disk) (p : Path) : Bool :=
  match d.find p with
  | .ok (.file _ _) => true
  | _ => false

/-- Whether a path leads to a folder. -/
def isFolder (d : Disk) (p : Path) : Bool :=
  match d.find p with
  | .ok (.folder _ _) => true
  | _ => false

/-- The absolute path that names lead along. -/
def absolute (names : List String) : Path := ⟨"/" ++ "/".intercalate names⟩

/-- The path of the current folder. -/
def currentPath (d : Disk) : Path := absolute d.current

/-- The shortest absolute path to the same file or folder. -/
def canonical? (d : Disk) (p : Path) : Option Path :=
  match d.find p with
  | .ok (.folder names _) | .ok (.file names _) => some (absolute names)
  | _ => none

/-! ## Reading -/

/-- The bytes of a file. -/
def read (d : Disk) (p : Path) : Except Fault ByteArray := do
  match ← d.find p with
  | .file _ content => .ok content
  | .folder _ _ => .error .isFolder
  | .absent _ _ _ => .error .missing

/-- The text of a file. -/
def readText (d : Disk) (p : Path) : Except Fault String := do
  match String.fromUTF8? (← d.read p) with
  | some s => .ok s
  | none => .error .notText

/-! ## Changing -/

/-- The disk with a name set to an entry in the folder that some names lead to. -/
def put (d : Disk) (names : List String) (name : String) (e : Entry) : Disk :=
  { d with top := d.top.changeAt (·.put name e) names }

/-- The disk without the entry that some names lead to. -/
def erase (d : Disk) (names : List String) : Disk :=
  match names.getLast? with
  | some name => { d with top := d.top.changeAt (·.erase name) names.dropLast }
  | none => d

/-- The disk with new bytes in a file, which is made if it is absent. -/
def write (d : Disk) (p : Path) (content : ByteArray) : Except Fault Disk := do
  match ← d.find p with
  | .folder _ _ => .error .isFolder
  | .file names _ => .ok (d.put names.dropLast (names.getLast?.getD "") (.file content))
  | .absent names name slashed =>
    if slashed then .error .isFolder else .ok (d.put names name (.file content))

/-- The disk after a change, or the disk itself with the reason why there is none. -/
def settle (d : Disk) : Except Fault Disk → Disk × Except Fault Unit
  | .ok changed => (changed, .ok ())
  | .error f => (d, .error f)

/-- The disk with a new folder. -/
def makeFolder (d : Disk) (p : Path) : Except Fault Disk := do
  match ← d.find ⟨Path.trimSeparators p.text⟩ with
  | .folder _ _ | .file _ _ => .error .alreadyThere
  | .absent names name _ => .ok (d.put names name (.folder .nil))

/-- The disk with a new folder, if it is not there; a folder that is there is no fault. -/
def makeOrFind (d : Disk) (p : Path) : Except Fault Disk :=
  match d.makeFolder p with
  | .ok d => .ok d
  | .error f => if d.isFolder p then .ok d else .error f

/--
The disk with a folder and the folders above it. Folders that were made stay if a later one fails.
The first argument bounds the number of folders above.
-/
def makeFoldersIn : Nat → Disk → Path → Disk × Except Fault Unit
  | 0, d, _ => (d, .error .missing)
  | n + 1, d, p =>
    if p.text = "" then (d, .ok ())
    else
      match d.makeFolder p with
      | .ok d => (d, .ok ())
      | .error .missing =>
        match p.parent? with
        | none => (d, .error .missing)
        | some parent =>
          match makeFoldersIn n d parent with
          | (d, .error f) => (d, .error f)
          | (d, .ok _) => d.settle (d.makeOrFind p)
      | .error f => if d.isFolder p then (d, .ok ()) else (d, .error f)

/-- The disk with a folder and the folders above it. -/
def makeFolders (d : Disk) (p : Path) : Disk × Except Fault Unit :=
  makeFoldersIn (p.components.length + 1) d p

/-- The disk with a file under another path; a file that is there is replaced. -/
def rename (d : Disk) (old new : Path) : Except Fault Disk := do
  match ← d.find old with
  | .file oldNames content =>
    match ← d.find new with
    | .folder _ _ => .error .isFolder
    | .file newNames _ =>
      if oldNames = newNames then .ok d
      else
        .ok ((d.erase oldNames).put newNames.dropLast (newNames.getLast?.getD "") (.file content))
    | .absent names name slashed =>
      if slashed then .error .notFolder else .ok ((d.erase oldNames).put names name (.file content))
  | .folder _ _ => .error .isFolder
  | .absent _ _ _ => .error .missing

/-- The disk without a file. -/
def remove (d : Disk) (p : Path) : Except Fault Disk := do
  match ← d.find p with
  | .file names _ => .ok (d.erase names)
  | .folder _ _ => .error .isFolder
  | .absent _ _ _ => .error .missing

/-- The disk without a folder and everything in it. -/
def removeFolder (d : Disk) (p : Path) : Except Fault Disk := do
  match ← d.find p with
  | .folder names _ => .ok (d.erase names)
  | .file _ _ => .error .notFolder
  | .absent _ _ _ => .error .missing

/-! ## Saving -/

/-- The disk with the folder of a path. -/
def makeParent (d : Disk) (p : Path) : Disk × Except Fault Unit :=
  match p.parent? with
  | some parent => d.makeFolders parent
  | none => (d, .ok ())

/-- The disk with new bytes in a file, in a folder that is made first if it is absent. -/
def save (d : Disk) (p : Path) (content : ByteArray) : Disk × Except Fault Unit :=
  match d.makeParent p with
  | (d, .error f) => (d, .error f)
  | (d, .ok _) => d.settle (d.write p content)

/-- The path of the file that is written before it takes the place of another. -/
def temporary (p : Path) : Path := p.withExtension "json.tmp"

/-- Like `save`, but the bytes are written to a temporary file, which then is renamed. -/
def replace (d : Disk) (p : Path) (content : ByteArray) : Disk × Except Fault Unit :=
  match d.makeParent p with
  | (d, .error f) => (d, .error f)
  | (d, .ok _) =>
    match d.write (temporary p) content with
    | .error f => (d, .error f)
    | .ok d => d.settle (d.rename (temporary p) p)

end Disk

end SourceGraph
