import SourceGraph.Disk.Basic
import SourceGraph.Graph.Document
import SourceGraph.Json.Parser
import SourceGraph.Json.Printer
import SourceGraph.Store.Basic

/-!
# Stores as documents

A store is kept as one JSON document, which is read and written as a whole. A document that is
absent, unreadable or of another shape counts as empty.

Formalises `GraphDocument` with the `load` and `save` of `GraphStore`.

* `GraphDocument`: the contents of a document, with a writer and a reader.
* `Store.load`: the store with the contents of its document.
* `Store.save`: the disk with the document of a store.
-/

set_option autoImplicit false

namespace SourceGraph

open Json

/-- A saved graph. -/
structure GraphDocument where
  version : String
  savedAt : Timestamp
  nodes : List Node := []
  edges : List Edge := []
  /-- Only written for the call graph. -/
  unresolved : Option (List UnresolvedCall) := none
deriving DecidableEq, Inhabited

namespace GraphDocument

/-- The version of the shape of documents. -/
def currentVersion : String := "1.0.0"

def toJson (d : GraphDocument) : Json :=
  .object ([("version", .string d.version), ("timestamp", .string d.savedAt.text),
    ("nodes", .array (d.nodes.map (·.toJson))), ("edges", .array (d.edges.map (·.toJson)))] ++
    present "unresolved" (d.unresolved.map fun us => .array (us.map (·.toJson))))

def ofJson? (j : Json) : Option GraphDocument := do
  let r ← record? ["version", "timestamp", "nodes", "edges", "unresolved"] j
  let version ← r.required? "version" string?
  let savedAt ← r.required? "timestamp" fun j => (string? j).bind Timestamp.parse?
  let nodes ← r.default? "nodes" (list? Node.ofJson?) []
  let edges ← r.default? "edges" (list? Edge.ofJson?) []
  let unresolved ← r.optional? "unresolved" (list? UnresolvedCall.ofJson?)
  return { version, savedAt, nodes, edges, unresolved }

/-- The document in a text. What is nested in unknown fields may be of any depth. -/
def parse? (s : String) : Option GraphDocument := (Json.parse? s.length s).bind ofJson?

end GraphDocument

/-- A document that could not be written. -/
structure SaveFault where
  path : Path
  reason : Fault
deriving DecidableEq, Inhabited

/-- The fault in words. -/
def SaveFault.message (f : SaveFault) : String :=
  "Failed to write " ++ f.path.text ++ ": " ++ f.reason.message

namespace Store

/-- The contents of a store as a document. -/
def toDocument (s : Store) (now : Timestamp) : GraphDocument where
  version := GraphDocument.currentVersion
  savedAt := s.savedAt.getD now
  nodes := s.nodeList
  edges := s.edges
  unresolved := if s.kind = .call then some s.unresolved else none

/-- The store with the contents of a document. -/
def fill (s : Store) (d : GraphDocument) : Store :=
  { s.clear.addNodes d.nodes with
    savedAt := some d.savedAt, edges := d.edges, unresolved := d.unresolved.getD [] }

/-- The document that a disk holds at a path. -/
def documentAt? (d : Disk) (p : Path) : Option GraphDocument :=
  match d.readText p with
  | .ok s => GraphDocument.parse? s
  | .error _ => none

/-- The store with what its document holds. -/
def load (s : Store) (d : Disk) : Store :=
  match s.path.bind (documentAt? d) with
  | some doc => s.fill doc
  | none => { s.clear with savedAt := none }

/-- The store that is kept at a path, or in memory. -/
def openAt (kind : StoreKind) (path : Option Path) (d : Disk) : Store :=
  load { kind, path } d

/-- The store with the time of saving, and the disk with its document. -/
def save (s : Store) (now : Timestamp) (d : Disk) : Store × Disk × Except SaveFault Unit :=
  match s.path with
  | none => (s, d, .ok ())
  | some p =>
    let s := { s with savedAt := some now }
    match d.replace p (s.toDocument now).toJson.pretty.toUTF8 with
    | (d, .ok _) => (s, d, .ok ())
    | (d, .error reason) => (s, d, .error ⟨p, reason⟩)

end Store

end SourceGraph
