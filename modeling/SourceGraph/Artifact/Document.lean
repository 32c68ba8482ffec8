import SourceGraph.Artifact.Basic
import SourceGraph.Json.Record

/-!
# Artifacts as documents

The JSON shape of artifacts and of their parts: a writer and a reader for each type, side by side.
Absent values are not written. A reader accepts objects and positional arrays alike.

* `Artifact.toJson`, `Artifact.ofJson?`, and the same for the parts.
-/

set_option autoImplicit false

namespace SourceGraph

open Json

/-- The kind written as `s`, among `kinds`. -/
def kindOf? {κ : Type} (text : κ → String) (kinds : List κ) (j : Json) : Option κ :=
  (name? j).bind fun s => kinds.find? (text · == s)

/-! ## Spans -/

namespace LineSpan

def toJson (s : LineSpan) : Json :=
  .object [("startLine", .number s.first), ("endLine", .number s.last)]

def ofJson? (j : Json) : Option LineSpan := do
  let r ← record? ["startLine", "endLine"] j
  let first ← r.required? "startLine" nat?
  let last ← r.required? "endLine" nat?
  return { first, last }

end LineSpan

/-! ## Imports -/

namespace FileIdentity

def toJson (f : FileIdentity) : Json :=
  .object [("id", .string f.id), ("path", .string f.path), ("language", .string f.language)]

def ofJson? (j : Json) : Option FileIdentity := do
  let r ← record? ["id", "path", "language"] j
  let id ← r.required? "id" string?
  let path ← r.required? "path" string?
  let language ← r.required? "language" string?
  return { id, path, language }

end FileIdentity

namespace ImportedName

def toJson (n : ImportedName) : Json :=
  .object ([("name", .string n.name)] ++ present "alias" (n.renamed.map .string))

def ofJson? (j : Json) : Option ImportedName := do
  let r ← record? ["name", "alias"] j
  let name ← r.required? "name" string?
  let renamed ← r.optional? "alias" string?
  return { name, renamed }

end ImportedName

namespace Import

def toJson (i : Import) : Json :=
  .object ([("source", .string i.source), ("specifiers", .array (i.names.map (·.toJson)))] ++
    present "resolvedPath" (i.resolvedPath.map .string) ++
    (if i.reexport then [("reexport", .bool true)] else []) ++
    present "line" (i.line.map .number))

def ofJson? (j : Json) : Option Import := do
  let r ← record? ["source", "specifiers", "resolvedPath", "reexport", "line"] j
  let source ← r.required? "source" string?
  let names ← r.default? "specifiers" (list? ImportedName.ofJson?) []
  let resolvedPath ← r.optional? "resolvedPath" string?
  let reexport ← r.default? "reexport" bool? false
  let line ← r.optional? "line" nat?
  return { source, names, resolvedPath, reexport, line }

end Import

/-! ## Calls -/

namespace Definition

def toJson (d : Definition) : Json := .object [("file", .string d.file), ("name", .string d.name)]

def ofJson? (j : Json) : Option Definition := do
  let r ← record? ["file", "name"] j
  let file ← r.required? "file" string?
  let name ← r.required? "name" string?
  return { file, name }

end Definition

namespace CallSite

def toJson (c : CallSite) : Json :=
  .object ([("calleeName", .string c.callee), ("kind", .string c.kind.text)] ++
    present "loc" (c.span.map (·.toJson)) ++
    present "resolvedDefinition" (c.definition.map (·.toJson)))

def ofJson? (j : Json) : Option CallSite := do
  let r ← record? ["calleeName", "kind", "loc", "resolvedDefinition"] j
  let callee ← r.required? "calleeName" string?
  let kind ← r.required? "kind" (kindOf? CallKind.text CallKind.all)
  let span ← r.optional? "loc" LineSpan.ofJson?
  let definition ← r.optional? "resolvedDefinition" Definition.ofJson?
  return { callee, kind, span, definition }

end CallSite

/-! ## Entities -/

namespace Entity

def toJson (e : Entity) : Json :=
  .object [("id", .string e.id), ("name", .string e.name), ("kind", .string e.kind.text),
    ("signature", .string e.signature), ("loc", e.span.toJson), ("isExported", .bool e.isExported),
    ("isAsync", .bool e.isAsync), ("calls", .array (e.calls.map (·.toJson)))]

def ofJson? (j : Json) : Option Entity := do
  let r ← record? ["id", "name", "kind", "signature", "loc", "isExported", "isAsync", "calls"] j
  let id ← r.required? "id" string?
  let name ← r.required? "name" string?
  let kind ← r.required? "kind" (kindOf? EntityKind.text EntityKind.all)
  let signature ← r.default? "signature" string? ""
  let span ← r.required? "loc" LineSpan.ofJson?
  let isExported ← r.default? "isExported" bool? false
  let isAsync ← r.default? "isAsync" bool? false
  let calls ← r.default? "calls" (list? CallSite.ofJson?) []
  return { id, name, kind, signature, span, isExported, isAsync, calls }

end Entity

namespace Artifact

def toJson (a : Artifact) : Json :=
  .object ([("schemaVersion", .string a.schemaVersion), ("file", a.file.toJson),
    ("imports", .array (a.imports.map (·.toJson))),
    ("entities", .array (a.entities.map (·.toJson))),
    ("moduleCalls", .array (a.moduleCalls.map (·.toJson)))] ++
    present "exports" (a.exports.map fun names => .array (names.map .string)))

def ofJson? (j : Json) : Option Artifact := do
  let r ← record? ["schemaVersion", "file", "imports", "entities", "moduleCalls", "exports"] j
  let schemaVersion ← r.required? "schemaVersion" string?
  let file ← r.required? "file" FileIdentity.ofJson?
  let imports ← r.default? "imports" (list? Import.ofJson?) []
  let entities ← r.default? "entities" (list? Entity.ofJson?) []
  let moduleCalls ← r.default? "moduleCalls" (list? CallSite.ofJson?) []
  let exports ← r.optional? "exports" (list? string?)
  return { schemaVersion, file, imports, entities, moduleCalls, exports }

end Artifact

end SourceGraph
