import SourceGraph.Artifact.Names
import SourceGraph.Import.Target
import SourceGraph.Language.Builtins

/-!
# Binding calls

A call is bound by names alone: to a definition of the same file, to what an import binds, or to a
builtin name. A dotted callee is bound through the part before its first dot.

Formalises `Resolver` (here `Scope`) and `resolve_artifact`, with `ResolveStats`.

* `Scope`: the names that a file defines and imports.
* `Scope.resolve`: what one call is bound to.
* `Artifact.resolve`: an artifact with all its calls bound; `Artifact.tally` counts the outcomes.
-/

set_option autoImplicit false

namespace SourceGraph

/-- What a call is bound to, and why. -/
inductive Resolution where
  /-- A definition of the same file. -/
  | local (d : Definition)
  /-- A definition of an imported file. -/
  | imported (d : Definition)
  /-- A builtin. -/
  | builtin (d : Definition)
  | unresolved
deriving DecidableEq, Inhabited

namespace Resolution

/-- The definition of an outcome. -/
def definition? : Resolution → Option Definition
  | «local» d | imported d | builtin d => some d
  | unresolved => none

/-- How the kind of an outcome is written. -/
def text : Resolution → String
  | «local» _ => "local"
  | imported _ => "imported"
  | builtin _ => "builtin"
  | unresolved => "unresolved"

/-- How many calls had each outcome. -/
structure Tally where
  «local» : Nat := 0
  imported : Nat := 0
  builtin : Nat := 0
  unresolved : Nat := 0
deriving DecidableEq, Inhabited

/-- The tally with one more outcome. -/
def Tally.add (t : Tally) : Resolution → Tally
  | .local _ => { t with «local» := t.local + 1 }
  | .imported _ => { t with imported := t.imported + 1 }
  | .builtin _ => { t with builtin := t.builtin + 1 }
  | .unresolved => { t with unresolved := t.unresolved + 1 }

/-- The tally of some outcomes. -/
def tally (rs : List Resolution) : Tally := rs.foldl Tally.add {}

end Resolution

/-- A name bound by an import. -/
structure Binding where
  /-- The name in the other module. -/
  name : String
  /-- The module as written. -/
  source : String
  /-- The file of the workspace that the module is, if it is one. -/
  target : Option String
deriving DecidableEq, Inhabited

/-- The names of one file. -/
structure Scope where
  file : String
  /-- Qualified names with the ids of their entities; the first one of a name counts. -/
  locals : List (String × String)
  /-- Imported names; the first one of a name counts. -/
  bindings : List (String × Binding)
  builtins : List String

namespace Scope

/-- The receivers that stand for the class around a call. -/
def selfReceivers : List String := ["this", "self", "cls"]

/-- The names an import binds, in order. -/
def bindingsOf (importer : String) (root : Option String) (i : Import) : List (String × Binding) :=
  if i.reexport then []
  else
    i.names.filterMap fun n => n.localName?.map fun l =>
      (l, { name := n.name, source := i.source, target := i.target? importer root })

/-- The names of the file that an artifact describes. Of two imports of a name the later counts. -/
def ofArtifact (a : Artifact) (builtins : List String) : Scope where
  file := a.file.id
  locals := a.entities.map fun e => (a.qualifiedName e, e.id)
  bindings := (a.imports.flatMap (bindingsOf a.file.id a.file.root?)).reverse
  builtins := builtins

/-- The id of the entity with a qualified name. -/
def local? (s : Scope) (name : String) : Option String := s.locals.lookup name

/-- What an import binds to a name. -/
def binding? (s : Scope) (name : String) : Option Binding := s.bindings.lookup name

/-- Whether the file defines a qualified name. -/
def defines (s : Scope) (name : String) : Bool := (s.local? name).isSome

/-- The member of the enclosing class that a call through a self receiver names. -/
def ownMember? (s : Scope) (enclosing : Option String) (c : CallSite) : Option String :=
  match enclosing, c.member? with
  | some cls, some member =>
    let name := cls ++ "." ++ member
    if selfReceivers.contains c.base && s.defines name then some name else none
  | _, _ => none

/-- The name that a call means in the module that its base is imported from. -/
def nameThere (b : Binding) (c : CallSite) : String :=
  if b.name = "*" then c.member?.getD c.base
  else if b.name = "default" then c.base
  else b.name

/--
What a call is bound to: a member of the enclosing class, the whole callee or its base in this file,
the import of its base, a builtin base.
-/
def resolve (s : Scope) (enclosing : Option String) (c : CallSite) : Resolution :=
  match s.ownMember? enclosing c with
  | some name => .local ⟨s.file, name⟩
  | none =>
    if s.defines c.callee then .local ⟨s.file, c.callee⟩
    else if s.defines c.base then .local ⟨s.file, c.base⟩
    else
      match s.binding? c.base with
      | some b =>
        match b.target with
        | some target => .imported ⟨target, nameThere b c⟩
        | none => .unresolved
      | none =>
        if s.builtins.contains c.base then .builtin (.builtin c.callee) else .unresolved

end Scope

namespace Artifact

/-- The class whose members an entity reaches through a self receiver. -/
def enclosingClass? (a : Artifact) (e : Entity) : Option String :=
  if e.kind = .classDef then some e.name
  else (Text.cutLast '.' (a.qualifiedName e).toList).map fun cut => String.ofList cut.1

/-- A call with the definition that the names of its file give. -/
def bindCall (s : Scope) (enclosing : Option String) (c : CallSite) : CallSite :=
  { c with definition := (s.resolve enclosing c).definition? }

/-- An entity with its calls bound. -/
def bindEntity (a : Artifact) (s : Scope) (e : Entity) : Entity :=
  { e with calls := e.calls.map (bindCall s (a.enclosingClass? e)) }

/-- The artifact with all its calls bound. -/
def resolve (a : Artifact) (builtins : List String) : Artifact :=
  let s := Scope.ofArtifact a builtins
  { a with
    entities := a.entities.map (bindEntity a s)
    moduleCalls := a.moduleCalls.map (bindCall s none) }

/-- The outcomes of all calls: entity by entity, then those outside of any. -/
def resolutions (a : Artifact) (builtins : List String) : List Resolution :=
  let s := Scope.ofArtifact a builtins
  (a.entities.flatMap fun e => e.calls.map (s.resolve (a.enclosingClass? e))) ++
    a.moduleCalls.map (s.resolve none)

/-- How many calls have each outcome. -/
def tally (a : Artifact) (builtins : List String) : Resolution.Tally :=
  Resolution.tally (a.resolutions builtins)

end Artifact

end SourceGraph
