import Std.Data.ExtTreeMap
import SourceGraph.Graph.Basic
import SourceGraph.Timestamp

/-!
# Stores

A store holds one of the two graphs: nodes by id, edges and unresolved calls in the order in which
they were added. What belongs to a file can be removed again, because every id tells its file.

Formalises `GraphStore` with its additions, removals and questions, in memory.

* `Store.addNodes`, `Store.addEdges`, `Store.addUnresolved`: additions; a node replaces one with
  the same id.
* `Store.removeFile`, `Store.removeFolder`: removal of what files own.
* `Store.nodesOfFile`, `Store.edgesFrom`, …: questions.
-/

set_option autoImplicit false

namespace SourceGraph

/-- Which graph a store holds. -/
inductive StoreKind where
  | import
  | call
deriving DecidableEq, Inhabited

namespace StoreKind

/-- Both kinds. -/
def all : List StoreKind := [«import», call]

/-- How a kind is written. -/
def text : StoreKind → String
  | «import» => "import"
  | call => "call"

/-- The usual name of the document. -/
def fileName : StoreKind → String
  | «import» => "import-graph.json"
  | call => "call-graph.json"

end StoreKind

/-- A graph, and where it is kept. -/
@[ext]
structure Store where
  kind : StoreKind
  /-- The document; a store without one is kept in memory only. -/
  path : Option Path := none
  /-- When the document was last saved. -/
  savedAt : Option Timestamp := none
  nodes : Std.ExtTreeMap String Node := ∅
  edges : List Edge := []
  unresolved : List UnresolvedCall := []

/-- How much something holds. -/
structure GraphCounts where
  nodes : Nat := 0
  edges : Nat := 0
  unresolved : Nat := 0
deriving DecidableEq, Inhabited

namespace Store

/-! ## Additions -/

/-- The store with a node, in place of one with the same id. -/
def addNode (s : Store) (n : Node) : Store := { s with nodes := s.nodes.insert n.id n }

/-- The store with some nodes, the last one of an id. -/
def addNodes (s : Store) (ns : List Node) : Store := ns.foldl addNode s

/-- The store with some edges behind the others. -/
def addEdges (s : Store) (es : List Edge) : Store := { s with edges := s.edges ++ es }

/-- The store with some unresolved calls behind the others. -/
def addUnresolved (s : Store) (us : List UnresolvedCall) : Store :=
  { s with unresolved := s.unresolved ++ us }

/-! ## Removals -/

/-- The store without what the files with `owned` own. -/
def removeWhere (s : Store) (owned : String → Bool) : Store :=
  { s with
    nodes := s.nodes.filter fun _ n => !owned n.fileId
    edges := s.edges.filter fun e => !owned e.sourceFile
    unresolved := s.unresolved.filter fun u => !owned u.sourceFile }

/-- The store without what a file owns. -/
def removeFile (s : Store) (file : String) : Store := s.removeWhere (· == file)

/-- The store without what the files of a folder own. -/
def removeFolder (s : Store) (folder : String) : Store :=
  s.removeWhere (FileId.isWithin · folder)

/-- The store without any contents. -/
def clear (s : Store) : Store := { s with nodes := ∅, edges := [], unresolved := [] }

/-! ## Questions -/

/-- How much the store holds. -/
def counts (s : Store) : GraphCounts := ⟨s.nodes.size, s.edges.length, s.unresolved.length⟩

/-- How much `s` holds more than `t`. -/
def lost (s t : Store) : GraphCounts :=
  ⟨s.counts.nodes - t.counts.nodes, s.counts.edges - t.counts.edges,
    s.counts.unresolved - t.counts.unresolved⟩

/-- The node with an id. -/
def node? (s : Store) (id : String) : Option Node := s.nodes[id]?

/-- All nodes, in the order of their ids. -/
def nodeList (s : Store) : List Node := s.nodes.toList.map (·.2)

/-- The nodes of a file. -/
def nodesOfFile (s : Store) (file : String) : List Node := s.nodeList.filter (·.fileId == file)

/-- The nodes of the files of a folder. -/
def nodesOfFolder (s : Store) (folder : String) : List Node :=
  s.nodeList.filter fun n => FileId.isWithin n.fileId folder

/-- The edges that leave a node. -/
def edgesFrom (s : Store) (id : String) : List Edge := s.edges.filter (·.source == id)

/-- The edges that arrive at a node. -/
def edgesTo (s : Store) (id : String) : List Edge := s.edges.filter (·.target == id)

end Store

end SourceGraph
