import SourceGraph.Artifact.Names
import SourceGraph.Graph.Basic
import SourceGraph.Import.Target

/-!
# Fragments

What one file contributes to the two graphs. A fragment is a function of the artifact alone;
definitions in other files are referred to by id.

Formalises `artifact_to_graph` and `artifacts_to_edge_list`, with `GraphFragment`.

* `Artifact.fragment`: the fragment of an artifact.
* `Fragment.ofArtifacts`: the fragments of several artifacts, one after the other.
-/

set_option autoImplicit false

namespace SourceGraph

/-- Nodes and edges of one or more files. -/
structure Fragment where
  /-- For each file its node, followed by those of its entities. -/
  nodes : List Node := []
  importEdges : List Edge := []
  callEdges : List Edge := []
  unresolved : List UnresolvedCall := []
deriving DecidableEq, Inhabited

namespace Fragment

/-- Whether nothing is in the fragment. -/
def isEmpty (f : Fragment) : Bool :=
  f.nodes.isEmpty && f.importEdges.isEmpty && f.callEdges.isEmpty && f.unresolved.isEmpty

/-- Two fragments, one after the other. -/
def append (f g : Fragment) : Fragment where
  nodes := f.nodes ++ g.nodes
  importEdges := f.importEdges ++ g.importEdges
  callEdges := f.callEdges ++ g.callEdges
  unresolved := f.unresolved ++ g.unresolved

/-- The nodes of files: those of the import graph. -/
def fileNodes (f : Fragment) : List Node := f.nodes.filter (·.isFile)

/-- The nodes of entities: those of the call graph. -/
def entityNodes (f : Fragment) : List Node := f.nodes.filter (!·.isFile)

end Fragment

/-- A call with its caller and its number among the calls of that caller. -/
structure NumberedCall where
  caller : String
  index : Nat
  call : CallSite

namespace NumberedCall

/-- Numbers for calls in order; `before` holds the callers of the earlier ones. -/
def number (before : List String) : List (String × CallSite) → List NumberedCall
  | [] => []
  | (caller, call) :: rest =>
    ⟨caller, before.count caller, call⟩ :: number (caller :: before) rest

/-- The edge of a call that has a definition. -/
def edge? (file : String) (c : NumberedCall) : Option Edge :=
  c.call.definition.map fun d => ⟨nodeId file c.caller, d.nodeId, .call⟩

/-- The record of a call that has no definition. -/
def unresolved? (file : String) (c : NumberedCall) : Option UnresolvedCall :=
  match c.call.definition with
  | some _ => none
  | none => some (.ofIndex (nodeId file c.caller) c.call.callee c.index)

end NumberedCall

namespace Artifact

/-- The node of an entity. -/
def entityNode (file id : String) (e : Entity) : Node :=
  ((Node.entity file id e.name (.entity e.kind)).withSignature e.signature).withLines
    e.span.first e.span.last

/-- The files that the imports lead to, without the file itself and without repetitions. -/
def importTargets (a : Artifact) (file : String) : List String :=
  ((a.imports.filterMap (·.target? file a.file.root?)).filter (· ≠ file)).eraseDups

/-- Every call with its number, in the order of `callsByCaller`. -/
def numberedCalls (a : Artifact) : List NumberedCall := NumberedCall.number [] a.callsByCaller

/--
The fragment of an artifact, for a file with the given id. Repeated edges are left out; every call
without a definition is recorded.
-/
def fragment (a : Artifact) (file : String) : Fragment where
  nodes := .file file :: (a.entityIds.zip a.entities).map fun ie => entityNode file ie.1 ie.2
  importEdges := (a.importTargets file).map fun target => ⟨file, target, .import⟩
  callEdges := (a.numberedCalls.filterMap (·.edge? file)).eraseDups
  unresolved := a.numberedCalls.filterMap (·.unresolved? file)

end Artifact

/-- The fragments of several artifacts, one after the other. -/
def Fragment.ofArtifacts (as : List Artifact) : Fragment :=
  as.foldl (fun acc a => acc.append (a.fragment a.file.id)) {}

end SourceGraph
