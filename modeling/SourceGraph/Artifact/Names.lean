import SourceGraph.Artifact.Basic

/-!
# Names of entities

An entity is known within its file by its qualified name: the class around it and its own name. An
entity whose qualified name is taken by an earlier one gets its line as well.

Formalises `qualified_name`, `entity_ids` and `calls_by_caller` of `FileArtifact`.

* `Artifact.owner?`: the innermost class around an entity.
* `Artifact.qualifiedName`: the name with that class.
* `Artifact.entityIds`: the ids of all entities, in order.
* `Artifact.callsByCaller`: every call with the id of the entity that makes it.
-/

set_option autoImplicit false

namespace SourceGraph.Artifact

/-- The first of the shortest spans. -/
def shortest : List Entity → Option Entity
  | [] => none
  | e :: es =>
    match shortest es with
    | none => some e
    | some f => if e.span.lineCount ≤ f.span.lineCount then some e else some f

/-- The innermost class around the lines of an entity. -/
def owner? (a : Artifact) (e : Entity) : Option Entity :=
  shortest (a.entities.filter fun c => c.kind == .classDef && c.span.strictlyContains e.span)

/-- The name of an entity within its file. A class stands for itself, wherever it is. -/
def qualifiedName (a : Artifact) (e : Entity) : String :=
  if e.kind = .classDef then e.name
  else
    match a.owner? e with
    | some c => c.name ++ "." ++ e.name
    | none => e.name

/-- Ids for named entities; `before` holds the names that are taken. -/
def assignIds (before : List String) : List (String × Entity) → List String
  | [] => []
  | (name, e) :: rest =>
    (if name ∈ before then name ++ "@" ++ toString e.span.first else name) ::
      assignIds (name :: before) rest

/-- The qualified names of the entities, in order. -/
def qualifiedNames (a : Artifact) : List String := a.entities.map a.qualifiedName

/-- The ids of the entities, in order. -/
def entityIds (a : Artifact) : List String := assignIds [] (a.qualifiedNames.zip a.entities)

/-- The artifact with the ids of its entities filled in. -/
def withEntityIds (a : Artifact) : Artifact :=
  { a with entities := (a.entityIds.zip a.entities).map fun ie => { ie.2 with id := ie.1 } }

/-- The number of calls. -/
def callCount (a : Artifact) : Nat :=
  (a.moduleCalls ++ a.entities.flatMap (·.calls)).length

/-- Every call with its caller: first those outside of any entity, then entity by entity. -/
def callsByCaller (a : Artifact) : List (String × CallSite) :=
  a.moduleCalls.map (moduleScope, ·) ++
    (a.entityIds.zip a.entities).flatMap fun ie => ie.2.calls.map (ie.1, ·)

end SourceGraph.Artifact
