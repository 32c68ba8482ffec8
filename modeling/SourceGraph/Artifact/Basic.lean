import SourceGraph.Text.Cut

/-!
# Descriptions of files

An artifact describes one source file: what it imports, which entities it declares, and which calls
are made inside each entity and outside of them. It does not depend on the language of the file.

Formalises `FileArtifact` with `ImportSpec`, `Entity`, `CallSite` and `ResolvedDefinition`.

* `LineSpan`: the lines from a first to a last one.
* `ImportedName`, `Import`: an import statement and the names it binds.
* `CallSite`, `Definition`: a call and what it is bound to.
* `Entity`: a declared function, method, class or constant.
* `Artifact`: the description of a file.
-/

set_option autoImplicit false

namespace SourceGraph

/-! ## Lines -/

/-- Lines of a text, counted from 1, both ends included. -/
structure LineSpan where
  first : Nat
  last : Nat
deriving DecidableEq, Inhabited

namespace LineSpan

/-- Whether `inner` lies within `outer` and is another span. -/
def strictlyContains (outer inner : LineSpan) : Bool :=
  outer.first ≤ inner.first && inner.last ≤ outer.last && outer ≠ inner

/-- The number of lines, in words of 64 bits; a span that ends before it starts counts one. -/
def lineCount (s : LineSpan) : Nat := (s.last - s.first + 1) % UInt64.size

end LineSpan

/-! ## Imports -/

/-- The file that an artifact describes. -/
structure FileIdentity where
  /-- The path below the root of the workspace. -/
  id : String
  /-- The absolute path. -/
  path : String
  /-- The tag of the language. -/
  language : String
deriving DecidableEq, Inhabited

/-- A name taken from another module. -/
structure ImportedName where
  /-- The name there; `*` is the whole module, `default` its default export. -/
  name : String
  /-- The name here, if it is another one. -/
  renamed : Option String := none
deriving DecidableEq, Inhabited

/-- The name that is bound here. The whole module without an alias binds none. -/
def ImportedName.localName? (n : ImportedName) : Option String :=
  match n.renamed with
  | some localName => some localName
  | none => if n.name = "*" then none else some n.name

/-- An import statement. -/
structure Import where
  /-- The module as written. -/
  source : String
  names : List ImportedName := []
  /-- The target, where the statement itself determines it. -/
  resolvedPath : Option String := none
  /-- A re-export leads to the other file without binding a name here. -/
  reexport : Bool := false
  line : Option Nat := none
deriving DecidableEq, Inhabited

/-- Whether the module is written relative to the importing file. -/
def Import.isRelative (i : Import) : Bool := Text.begins "." i.source

/-! ## Calls -/

/-- The file of all builtin definitions. -/
def builtinFile : String := "<builtin>"

/-- The caller of calls outside of any entity. -/
def moduleScope : String := "<module>"

/-- What a call is bound to. -/
structure Definition where
  /-- The id of the defining file. -/
  file : String
  /-- The name of the entity within that file. -/
  name : String
deriving DecidableEq, Inhabited

namespace Definition

/-- The definition of a builtin name. -/
def builtin (name : String) : Definition := ⟨builtinFile, name⟩

/-- Whether the definition is builtin. -/
def isBuiltin (d : Definition) : Bool := d.file == builtinFile

end Definition

/-- How a call is made. -/
inductive CallKind where
  /-- A call of a plain name. -/
  | function
  /-- A call of a member. -/
  | method
  /-- The creation of an instance. -/
  | constructor
deriving DecidableEq, Inhabited

namespace CallKind

/-- All kinds of calls. -/
def all : List CallKind := [function, method, constructor]

/-- How a kind is written. -/
def text : CallKind → String
  | function => "function"
  | method => "method"
  | constructor => "constructor"

end CallKind

/-- A call in the text of a file. -/
structure CallSite where
  /-- The callee as written, with dots between its parts. -/
  callee : String
  kind : CallKind
  span : Option LineSpan := none
  definition : Option Definition := none
deriving DecidableEq, Inhabited

namespace CallSite

/-- The callee up to its first dot. -/
def base (c : CallSite) : String :=
  (Text.cutFirst ['.'] c.callee.toList).elim c.callee fun cut => String.ofList cut.1

/-- The callee after its first dot. -/
def member? (c : CallSite) : Option String :=
  (Text.cutFirst ['.'] c.callee.toList).map fun cut => String.ofList cut.2

end CallSite

/-! ## Entities -/

/-- The kinds of entities. -/
inductive EntityKind where
  | function
  | method
  /-- A function without a name of its own, bound to one. -/
  | arrow
  | const
  | classDef
  | constructor
  | getter
  | setter
deriving DecidableEq, Inhabited

namespace EntityKind

/-- All kinds of entities. -/
def all : List EntityKind :=
  [function, method, arrow, const, classDef, constructor, getter, setter]

/-- How a kind is written. -/
def text : EntityKind → String
  | function => "function"
  | method => "method"
  | arrow => "arrow"
  | const => "const"
  | classDef => "class"
  | constructor => "constructor"
  | getter => "getter"
  | setter => "setter"

/-- Whether entities of this kind only stand in classes. -/
def isMember : EntityKind → Bool
  | method | constructor | getter | setter => true
  | _ => false

end EntityKind

/-- A declared entity. -/
structure Entity where
  id : String
  name : String
  kind : EntityKind
  /-- The declaration on one line, for display. -/
  signature : String := ""
  span : LineSpan
  isExported : Bool := false
  isAsync : Bool := false
  calls : List CallSite := []
deriving DecidableEq, Inhabited

/-- The version of the shape of artifacts. -/
def Artifact.currentVersion : String := "1.0.0"

/-- The description of a file. -/
structure Artifact where
  schemaVersion : String := Artifact.currentVersion
  file : FileIdentity
  imports : List Import := []
  entities : List Entity := []
  /-- The calls outside of any entity. -/
  moduleCalls : List CallSite := []
  exports : Option (List String) := none
deriving DecidableEq, Inhabited

end SourceGraph
