import SourceGraph.Artifact.Basic
import SourceGraph.FileId

/-!
# Graphs

The import graph joins files, the call graph joins entities. Both have nodes with ids and edges
between ids. The id of an entity is the id of its file and its name with `::` between them, so that
the file can be read off an id again.

* `nodeId`, `owningFile`: putting ids together and taking them apart.
* `Node`, `Edge`: the parts of a graph.
* `UnresolvedCall`: a call that became no edge.
-/

set_option autoImplicit false

namespace SourceGraph

/-- What stands between the file and the name of an entity. -/
def idSeparator : List Char := [':', ':']

/-- The id of an entity of a file. -/
def nodeId (file name : String) : String := file ++ "::" ++ name

/-- The file of an id: what stands before the first separator. -/
def owningFile (id : String) : String :=
  (Text.cutFirst idSeparator id.toList).elim id fun cut => String.ofList cut.1

/-- The node of a definition. -/
def Definition.nodeId (d : Definition) : String := SourceGraph.nodeId d.file d.name

/-- The kinds of nodes. -/
inductive NodeKind where
  | file
  | entity (kind : EntityKind)
deriving DecidableEq, Inhabited

namespace NodeKind

/-- All kinds of nodes. -/
def all : List NodeKind := file :: EntityKind.all.map entity

/-- How a kind is written. -/
def text : NodeKind → String
  | file => "file"
  | entity kind => kind.text

/-- Whether calls can start and end at nodes of this kind. -/
def isCallable : NodeKind → Bool
  | file | entity .const => false
  | _ => true

end NodeKind

/-- A node. -/
structure Node where
  id : String
  name : String
  kind : NodeKind
  fileId : String
  signature : Option String := none
  startLine : Option Nat := none
  endLine : Option Nat := none
deriving DecidableEq, Inhabited

namespace Node

/-- The node of a whole file. -/
def file (id : String) : Node := { id, name := FileId.baseName id, kind := .file, fileId := id }

/-- The node of an entity that has the id `qualified` within its file. -/
def entity (file qualified name : String) (kind : NodeKind) : Node :=
  { id := nodeId file qualified, name, kind, fileId := file }

/-- The node with a signature, unless that is empty. -/
def withSignature (n : Node) (s : String) : Node :=
  if s = "" then n else { n with signature := some s }

/-- The node with its lines. -/
def withLines (n : Node) (start stop : Nat) : Node :=
  { n with startLine := some start, endLine := some stop }

/-- Whether the node stands for a file. -/
def isFile (n : Node) : Bool := n.kind == .file

end Node

/-- The kinds of edges. -/
inductive EdgeKind where
  | import
  | call
deriving DecidableEq, Inhabited

namespace EdgeKind

/-- All kinds of edges. -/
def all : List EdgeKind := [«import», call]

/-- How a kind is written. -/
def text : EdgeKind → String
  | «import» => "import"
  | call => "call"

end EdgeKind

/-- An edge between two nodes. -/
structure Edge where
  source : String
  target : String
  kind : EdgeKind
deriving DecidableEq, Inhabited

namespace Edge

/-- The file an edge starts from. -/
def sourceFile (e : Edge) : String := owningFile e.source

/-- The file an edge leads into. -/
def targetFile (e : Edge) : String := owningFile e.target

end Edge

/-- A call that is bound to no definition. -/
structure UnresolvedCall where
  /-- The node of the caller. -/
  caller : String
  callee : String
  /-- The caller and the number of the call within it. -/
  siteId : String
deriving DecidableEq, Inhabited

namespace UnresolvedCall

/-- The call with number `index` of a caller. -/
def ofIndex (caller callee : String) (index : Nat) : UnresolvedCall :=
  { caller, callee, siteId := caller ++ "#" ++ toString index }

/-- The file of the caller. -/
def sourceFile (u : UnresolvedCall) : String := owningFile u.caller

end UnresolvedCall

end SourceGraph
