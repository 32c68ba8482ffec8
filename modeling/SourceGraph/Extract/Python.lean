import SourceGraph.Extract.Script

/-!
# Files in Python

The description of a Python file, read off its syntax tree. Imports count wherever they stand.
Functions and classes at the top of the file, the members of classes, constants in capitals and
named lambdas are entities; a call belongs to the entity that holds it, and to the module otherwise.

Formalises `PythonExtractor`: `extract_imports` (here `imports`) with `plain_import` and
`from_import`, and its walker from `walk_module` (`findings`) over `handle_decorated`,
`handle_function`, `handle_class` and `handle_module_assignment` to `collect_calls` (`calls`) and
`finish` (`describe`).

* `Python.calls`: the calls below a node.
* `Python.imports`: the imports of a file.
* `Python.classEntities`: a class with its members.
* `Python.artifact`: the description of a file.
-/

set_option autoImplicit false

namespace SourceGraph.Python

/-! ## Calls -/

mutual

/-- The dotted path that a chain of attributes spells. -/
def attributePath? (source : List Char) : SyntaxTree → Option String
  | .mk kind named field start stop children =>
    let t : SyntaxTree := .mk kind named field start stop children
    if kind = "identifier" then some (t.text source)
    else if kind = "attribute" then do
      let object ← pathAt? source "object" children
      let last ← t.fieldText? "attribute" source
      return object ++ "." ++ last
    else if kind = "call" then pathAt? source "function" children
    else if kind = "parenthesized_expression" then firstPath? source children
    else none

/-- The path of the first node that fills a field. -/
def pathAt? (source : List Char) (field : String) : List SyntaxTree → Option String
  | [] => none
  | t :: ts =>
    if t.field == some field then attributePath? source t else pathAt? source field ts

/-- The path of the first named node. -/
def firstPath? (source : List Char) : List SyntaxTree → Option String
  | [] => none
  | t :: ts => if t.named then attributePath? source t else firstPath? source ts

end

/-- The name and the kind of a call, from the node in front of its arguments. -/
def callee? (source : List Char) (f : SyntaxTree) : Option (String × CallKind) :=
  if f.kind = "identifier" then some (f.text source, .function)
  else if f.kind = "attribute" then
    ((attributePath? source f).or (f.fieldText? "attribute" source)).map (·, .method)
  else none

/-- The call that a node is. -/
def callOf? (source : List Char) (t : SyntaxTree) : Option CallSite :=
  if t.kind = "call" then
    ((t.child? "function").bind (callee? source)).map fun (callee, kind) =>
      { callee, kind, span := some ⟨t.line source, t.line source⟩ }
  else none

/-- The calls of a node and below it. -/
def calls (source : List Char) (t : SyntaxTree) : List CallSite :=
  t.namedPreorder.filterMap (callOf? source)

/-- The calls below the first child that fills a field. -/
def callsAt (source : List Char) (t : SyntaxTree) (field : String) : List CallSite :=
  (t.child? field).elim [] (calls source)

/-! ## Imports -/

/-- The name and the alias of a renamed import. -/
def renamed? (source : List Char) (t : SyntaxTree) : Option (String × String) := do
  let name ← t.fieldText? "name" source
  let localName ← t.fieldText? "alias" source
  return (name, localName)

/-- An import of a whole module under a name. -/
def wholeModule (module : String) (localName : String) (line : Nat) : Import :=
  { source := module, names := [{ name := "*", renamed := some localName }], line := some line }

/-- The imports of a statement that names modules only; a dotted module binds its first part. -/
def plainImport (source : List Char) (t : SyntaxTree) : List Import :=
  (t.childrenOf "name").filterMap fun n =>
    if n.kind = "dotted_name" then
      let module := n.text source
      let first := (Text.cutFirst ['.'] module.toList).elim module fun cut => String.ofList cut.1
      some (wholeModule module first (t.line source))
    else if n.kind = "aliased_import" then
      (renamed? source n).map fun (module, localName) => wholeModule module localName (t.line source)
    else none

/-- The names that a statement takes from a module. -/
def takenNames (source : List Char) (t : SyntaxTree) : List ImportedName :=
  let listed := (t.childrenOf "name").filterMap fun n =>
    if n.kind = "dotted_name" then some { name := n.text source }
    else if n.kind = "aliased_import" then
      (renamed? source n).map fun (name, localName) => { name, renamed := some localName }
    else none
  listed ++ if (t.childOfKind? "wildcard_import").isSome then [{ name := "*" }] else []

/-- The folder that a number of leading dots stands for. -/
def levels (dots : Nat) : String :=
  if dots ≤ 1 then "./" else String.join (List.replicate (dots - 1) "../")

/-- A dotted name as a path of a file. -/
def moduleFile (dotted : String) : String := Text.replaceChar '.' '/' dotted ++ ".py"

/--
The imports of a module with leading dots. With a name after the dots it is one file; without one,
each taken name is a module of the folder.
-/
def relativeImport (module : String) (names : List ImportedName) (line : Nat) : List Import :=
  let dots := (module.toList.takeWhile (· == '.')).length
  let rest := String.ofList (module.toList.drop dots)
  if rest ≠ "" then
    [{ source := module, names, resolvedPath := some (levels dots ++ moduleFile rest),
       line := some line }]
  else
    (names.filter (·.name ≠ "*")).map fun n =>
      { wholeModule module (n.localName?.getD n.name) line with
        resolvedPath := some (levels dots ++ moduleFile n.name) }

/-- The imports of a statement that takes names from a module. -/
def fromImport (source : List Char) (t : SyntaxTree) : List Import :=
  match t.child? "module_name" with
  | none => []
  | some m =>
    let module := m.text source
    let names := takenNames source t
    if m.kind = "relative_import" then relativeImport module names (t.line source)
    else [{ source := module, names, line := some (t.line source) }]

/-- The imports of a file, wherever they stand. -/
def imports (source : List Char) (root : SyntaxTree) : List Import :=
  (root.preorder.filter (·.named)).flatMap fun t =>
    if t.kind = "import_statement" then plainImport source t
    else if t.kind = "import_from_statement" then fromImport source t
    else []

/-! ## Entities -/

/-- Whether a name is public: no underscore in front, or two at both ends. -/
def isPublic (name : String) : Bool :=
  !Text.begins "_" name || (Text.begins "__" name && Text.ends "__" name)

/-- Whether a name is that of a constant: capitals, digits and underscores, with a capital. -/
def isConstant (name : String) : Bool :=
  name.toList.any Char.isUpper &&
    name.toList.all fun c => c.isUpper || c.isDigit || c == '_'

/-- The decorators around a definition. -/
def decoratorsOf (wrapper : Option SyntaxTree) : List SyntaxTree :=
  wrapper.elim [] fun w => w.namedChildren.filter (·.kind == "decorator")

/-- The names of decorators, without arguments. -/
def decoratorNames (source : List Char) (decorators : List SyntaxTree) : List String :=
  (decorators.filterMap (·.namedChild?)).map fun e =>
    if e.kind = "call" then (e.fieldText? "function" source).getD "" else e.text source

/-- The kind of a function in a class. -/
def memberKind (name : String) (decorators : List String) : EntityKind :=
  if name = "__init__" then .constructor
  else if decorators.any fun d =>
      d == "property" || Text.ends ".getter" d || Text.ends "cached_property" d then .getter
  else if decorators.any (Text.ends ".setter") then .setter
  else .method

/-- A function; `wrapper` is the node that holds it together with its decorators. -/
def functionEntity (source : List Char) (inClass : Bool) (wrapper : Option SyntaxTree)
    (t : SyntaxTree) : List Entity :=
  match t.fieldText? "name" source with
  | none => []
  | some name =>
    let decorators := decoratorsOf wrapper
    let isAsync := t.hasToken "async"
    let signature := (if isAsync then "async " else "") ++ "def " ++ name ++
      (t.fieldText? "parameters" source).getD "()" ++
      (t.fieldText? "return_type" source).elim "" (" -> " ++ ·)
    [{ id := name, name
       kind := if inClass then memberKind name (decoratorNames source decorators) else .function
       signature := Text.collapse signature, span := (wrapper.getD t).span source
       isExported := isPublic name, isAsync
       calls := decorators.flatMap (calls source) ++ callsAt source t "parameters" ++
         callsAt source t "body" }]

mutual

/-- A class with its members; `wrapper` is the node that holds it together with its decorators. -/
def classEntities (source : List Char) (wrapper : Option SyntaxTree) : SyntaxTree → List Entity
  | .mk kind named field start stop children =>
    let t : SyntaxTree := .mk kind named field start stop children
    match t.fieldText? "name" source with
    | none => []
    | some name =>
      let members := bodyMembers source children
      { id := name, name, kind := .classDef
        signature := Text.collapse
          ("class " ++ name ++ (t.fieldText? "superclasses" source).getD "")
        span := (wrapper.getD t).span source, isExported := isPublic name
        calls := (decoratorsOf wrapper).flatMap (calls source) ++
          callsAt source t "superclasses" ++ members.flatMap (·.calls) } ::
        members.flatMap (·.entities)

/-- The members in the first node that fills the field `body`. -/
def bodyMembers (source : List Char) : List SyntaxTree → List Recording
  | [] => []
  | .mk _ _ field _ _ children :: ts =>
    if field == some "body" then members source children else bodyMembers source ts

/-- What the statements in the body of a class contribute, each. -/
def members (source : List Char) : List SyntaxTree → List Recording
  | [] => []
  | .mk kind named field start stop children :: ts =>
    let t : SyntaxTree := .mk kind named field start stop children
    let rest := members source ts
    if !named then rest
    else if kind = "function_definition" then
      { entities := functionEntity source true none t } :: rest
    else if kind = "decorated_definition" then
      { entities := decorated source true t children } :: rest
    else if kind = "class_definition" then { entities := classEntities source none t } :: rest
    else { calls := calls source t } :: rest

/-- The definition in the first node that fills the field `definition` of `wrapper`. -/
def decorated (source : List Char) (inClass : Bool) (wrapper : SyntaxTree) :
    List SyntaxTree → List Entity
  | [] => []
  | t :: ts =>
    if t.field == some "definition" then
      if t.kind = "function_definition" then functionEntity source inClass (some wrapper) t
      else if t.kind = "class_definition" then classEntities source (some wrapper) t
      else []
    else decorated source inClass wrapper ts

end

/-! ## Statements -/

/-- What a part of a file contributes to its description. -/
structure Findings extends Recording where
  /-- The names that the file lists as its exports. -/
  listed : Option (List String) := none

namespace Findings

/-- The findings of two parts, one after the other; a later list of exports replaces it. -/
def append (f g : Findings) : Findings where
  toRecording := f.toRecording.append g.toRecording
  listed := g.listed.or f.listed

/-- The findings of several parts, one after the other. -/
def concat (fs : List Findings) : Findings := fs.foldr append {}

end Findings

/-- The left and right sides of a statement that assigns to a plain name. -/
def assignment? (statement : SyntaxTree) : Option (SyntaxTree × SyntaxTree × SyntaxTree) := do
  let a ← statement.namedChild?
  guard (a.kind = "assignment")
  let left ← a.child? "left"
  guard (left.kind = "identifier")
  let right ← a.child? "right"
  return (a, left, right)

/-- An expression at the top of the file. -/
def expression (source : List Char) (t : SyntaxTree) : Findings :=
  match assignment? t with
  | none => { calls := calls source t }
  | some (a, left, right) =>
    let name := left.text source
    let entity (kind : EntityKind) (signature : String) : Entity :=
      { id := name, name, kind, signature, span := t.span source, isExported := isPublic name
        calls := calls source right }
    if name = "__all__" then
      { listed := some ((right.namedChildren.filter (·.kind == "string")).map fun item =>
          Script.unquote (item.text source)) }
    else if right.kind = "lambda" then
      let params := (right.fieldText? "parameters" source).getD ""
      { entities := [entity .arrow (Text.collapse (name ++ " = lambda " ++ params))] }
    else if isConstant name then
      let typed := (a.fieldText? "type" source).elim "" (": " ++ ·)
      { entities := [entity .const (name ++ typed)] }
    else { calls := calls source t }

/-- The statements that contribute nothing here. -/
def silentKinds : List String :=
  ["import_statement", "import_from_statement", "future_import_statement", "comment"]

/-- What a statement at the top of the file contributes. -/
def statement (source : List Char) (t : SyntaxTree) : Findings :=
  if t.kind = "function_definition" then { entities := functionEntity source false none t }
  else if t.kind = "class_definition" then { entities := classEntities source none t }
  else if t.kind = "decorated_definition" then
    { entities := decorated source false t t.children }
  else if t.kind = "expression_statement" then expression source t
  else if silentKinds.contains t.kind then {}
  else { calls := calls source t }

/-- What the statements of a file contribute. -/
def findings (source : List Char) (root : SyntaxTree) : Findings :=
  .concat (root.namedChildren.map (statement source))

/-! ## Artifacts -/

/-- An entity as a list of exports has it; members stay as they are. -/
def markListed (names : List String) (e : Entity) : Entity :=
  if e.kind.isMember then e else { e with isExported := names.contains e.name }

/-- The description that imports and findings give, before calls are bound. -/
def describe (file : FileIdentity) (imports : List Import) (f : Findings) : Artifact :=
  match f.listed with
  | some names =>
    { file, imports, entities := f.entities.map (markListed names), moduleCalls := f.calls
      exports := some names }
  | none =>
    { file, imports, entities := f.entities, moduleCalls := f.calls
      exports := some ((f.entities.filter fun e => e.isExported && !e.kind.isMember).map
        (·.name)) }

/-- The description of a file from its syntax tree. -/
def artifact (file : FileIdentity) (source : List Char) (root : SyntaxTree) : Artifact :=
  ((describe file (imports source root) (findings source root)).withEntityIds).resolve
    Language.pythonBuiltins

end SourceGraph.Python
