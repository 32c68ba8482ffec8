import Std.Data.ExtTreeMap
import SourceGraph.Text.Cut

/-!
# Folder trees

Folders and files of a list of paths, in an arena: nodes refer to each other by index, and a table
gives the index of each path. A node is made once, when the first path through it is inserted, so
that parents have smaller indices than their children.

Formalises `FolderTree` with its `insert_file`, `from_paths`, `files_under` and `render`.

* `FolderTree.insert`: the tree with the file at a path, and the index of that file.
* `FolderTree.ofPaths`: the tree of some paths, with children in order.
* `FolderTree.below`: the nodes below an index, each before its children, with their depths.
* `FolderTree.filesUnder`, `FolderTree.render`: the files below an index; the tree as a text.
-/

set_option autoImplicit false

namespace SourceGraph

/-- A folder or a file. -/
inductive TreeNodeKind where
  | folder
  | file
deriving DecidableEq, Inhabited

/-- How a kind is written. -/
def TreeNodeKind.text : TreeNodeKind → String
  | folder => "folder"
  | file => "file"

/-- A node of a folder tree. -/
structure TreeNode where
  /-- The last segment of the path, empty for the root. -/
  name : String
  path : String
  kind : TreeNodeKind
  parent : Option Nat
  children : List Nat
deriving DecidableEq, Inhabited

/-- Folders and files by index; the first node is the root. -/
structure FolderTree where
  nodes : List TreeNode
  /-- The index of the node with a path. -/
  byPath : Std.ExtTreeMap String Nat
deriving Inhabited

namespace FolderTree

/-- The index of the root. -/
def root : Nat := 0

/-- The tree without files. -/
def empty : FolderTree where
  nodes := [⟨"", "", .folder, none, []⟩]
  byPath := (∅ : Std.ExtTreeMap String Nat).insert "" root

/-- The node with an index. -/
def node? (t : FolderTree) (i : Nat) : Option TreeNode := t.nodes[i]?

/-- The index of the node with a path. -/
def indexOf? (t : FolderTree) (path : String) : Option Nat := t.byPath[path]?

/-- The number of nodes. -/
def size (t : FolderTree) : Nat := t.nodes.length

/-- Whether only the root is there. -/
def isEmpty (t : FolderTree) : Bool := t.size == 1

/-! ## Building -/

/-- The segments of a path that count. -/
def parts (path : String) : List String :=
  (Text.segments '/' path).filter fun s => s ≠ "" && s ≠ "."

/-- The path of the node `name` in the folder `above`. -/
def childPath (above name : String) : String := if above = "" then name else above ++ "/" ++ name

/-- The tree with a node at `path`, and its index; a node that is there already stays. -/
def ensure (t : FolderTree) (path name : String) (kind : TreeNodeKind) (parent : Nat) :
    FolderTree × Nat :=
  match t.indexOf? path with
  | some i => (t, i)
  | none =>
    let linked := t.nodes.modify parent fun n => { n with children := n.children ++ [t.size] }
    ({ nodes := linked ++ [⟨name, path, kind, some parent, []⟩]
       byPath := t.byPath.insert path t.size }, t.size)

/-- Folders for all segments but the last, which is a file, from a folder on. -/
def descend (t : FolderTree) (parent : Nat) (above : String) : List String → FolderTree × Nat
  | [] => (t, parent)
  | [name] => t.ensure (childPath above name) name .file parent
  | name :: rest =>
    let path := childPath above name
    let (t, i) := t.ensure path name .folder parent
    descend t i path rest

/-- The tree with the file at a path, and the index of that file. -/
def insert (t : FolderTree) (path : String) : FolderTree × Nat := t.descend root "" (parts path)

/-- The order of children: folders before files, then by name. -/
def childOrder (t : FolderTree) (i j : Nat) : Bool :=
  let key (k : Nat) : Bool × String := (t.node? k).elim (false, "") fun n => (n.kind == .file, n.name)
  (compareLex (compareOn (·.1)) (compareOn (·.2)) (key i) (key j)).isLE

/-- The tree with all children in order. -/
def sortChildren (t : FolderTree) : FolderTree :=
  { t with nodes := t.nodes.map fun n => { n with children := n.children.mergeSort t.childOrder } }

/-- The tree of some paths. -/
def ofPaths (paths : List String) : FolderTree :=
  (paths.foldl (fun t p => (t.insert p).1) empty).sortChildren

/-! ## Reading -/

/-- The index of a path, with separators around it ignored. -/
def lookup (t : FolderTree) (path : String) : Option Nat :=
  t.indexOf? (String.ofList (Text.dropTrailing '/' (path.toList.dropWhile (· == '/'))))

/-- The nodes directly below an index. -/
def childrenOf (t : FolderTree) (i : Nat) : List TreeNode :=
  (t.node? i).elim [] fun n => n.children.filterMap t.node?

/--
The node with an index and the nodes below it, each before its children, with their depths. The
first argument bounds the depth.
-/
def walk (t : FolderTree) : Nat → Nat → Nat → List (TreeNode × Nat)
  | 0, _, _ => []
  | bound + 1, depth, i =>
    match t.node? i with
    | none => []
    | some n => (n, depth) :: n.children.flatMap (walk t bound (depth + 1))

/-- The nodes from an index on, each before its children, with their depths. -/
def below (t : FolderTree) (i : Nat) : List (TreeNode × Nat) := t.walk t.size 0 i

/-- The paths of the files from an index on. -/
def filesUnder (t : FolderTree) (i : Nat) : List String :=
  ((t.below i).filter (·.1.kind == .file)).map (·.1.path)

/-- The number of files. -/
def fileCount (t : FolderTree) : Nat := (t.nodes.filter (·.kind == .file)).length

/-- The line of a node: two spaces for each level, a separator after folders. -/
def line (entry : TreeNode × Nat) : String :=
  let indent := String.ofList (List.replicate (2 * (entry.2 - 1)) ' ')
  indent ++ entry.1.name ++ (if entry.1.kind = .folder then "/" else "") ++ "\n"

/-- The tree as a text, a line for each node but the root. -/
def render (t : FolderTree) : String := String.join ((t.below root).tail.map line)

end FolderTree

end SourceGraph
