import SourceGraph.Artifact.Document
import SourceGraph.Graph.Basic

/-!
# Nodes and edges as documents

The JSON shape of nodes, edges and unresolved calls: a writer and a reader for each.
-/

set_option autoImplicit false

namespace SourceGraph

open Json

namespace Node

def toJson (n : Node) : Json :=
  .object ([("id", .string n.id), ("name", .string n.name), ("kind", .string n.kind.text),
    ("fileId", .string n.fileId)] ++
    present "signature" (n.signature.map .string) ++
    present "startLine" (n.startLine.map .number) ++
    present "endLine" (n.endLine.map .number))

def ofJson? (j : Json) : Option Node := do
  let r ← record? ["id", "name", "kind", "fileId", "signature", "startLine", "endLine"] j
  let id ← r.required? "id" string?
  let name ← r.required? "name" string?
  let kind ← r.required? "kind" (kindOf? NodeKind.text NodeKind.all)
  let fileId ← r.required? "fileId" string?
  let signature ← r.optional? "signature" string?
  let startLine ← r.optional? "startLine" nat?
  let endLine ← r.optional? "endLine" nat?
  return { id, name, kind, fileId, signature, startLine, endLine }

end Node

namespace Edge

def toJson (e : Edge) : Json :=
  .object [("source", .string e.source), ("target", .string e.target),
    ("kind", .string e.kind.text)]

def ofJson? (j : Json) : Option Edge := do
  let r ← record? ["source", "target", "kind"] j
  let source ← r.required? "source" string?
  let target ← r.required? "target" string?
  let kind ← r.required? "kind" (kindOf? EdgeKind.text EdgeKind.all)
  return { source, target, kind }

end Edge

namespace UnresolvedCall

def toJson (u : UnresolvedCall) : Json :=
  .object [("from", .string u.caller), ("calleeName", .string u.callee),
    ("callSiteId", .string u.siteId)]

def ofJson? (j : Json) : Option UnresolvedCall := do
  let r ← record? ["from", "calleeName", "callSiteId"] j
  let caller ← r.required? "from" string?
  let callee ← r.required? "calleeName" string?
  let siteId ← r.required? "callSiteId" string?
  return { caller, callee, siteId }

end UnresolvedCall

end SourceGraph
