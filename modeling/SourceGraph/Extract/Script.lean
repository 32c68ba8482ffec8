import SourceGraph.Extract.Recording
import SourceGraph.Resolution
import SourceGraph.SyntaxTree
import SourceGraph.Text.Blank

/-!
# Files in the script languages

The description of a TypeScript, TSX or JavaScript file, read off its syntax tree. Statements at the
top of the file declare entities; a call belongs to the declared entity whose body holds it, however
deep, and to the module otherwise.

Formalises `TypeScriptExtractor` and its walker, from `walk_program` (here `findings`) and
`walk_statement` (`statement`) over `handle_import`, `handle_export`, `handle_function`,
`handle_class`, `handle_variables` and `handle_expression_statement` to `collect_calls` (`calls`)
and `finish` (`describe`).

* `Script.calls`: the calls below a node.
* `Script.statement`: what one statement contributes.
* `Script.artifact`: the description of a file.
-/

set_option autoImplicit false

namespace SourceGraph.Script

/-- A text without quotes at both ends. -/
def unquote (s : String) : String :=
  let isQuote := fun c : Char => c == '\x22' || c == '\x27' || c == '\x60'
  String.ofList ((s.toList.dropWhile isQuote).reverse.dropWhile isQuote).reverse

/-! ## Calls -/

/-- The kinds of nodes that are a path by themselves. -/
def nameKinds : List String :=
  ["identifier", "this", "super", "property_identifier", "private_property_identifier",
   "type_identifier"]

mutual

/-- The dotted path that a chain of members spells. -/
def memberPath? (source : List Char) : SyntaxTree → Option String
  | .mk kind named field start stop children =>
    let t : SyntaxTree := .mk kind named field start stop children
    if nameKinds.contains kind then some (t.text source)
    else if kind = "member_expression" then do
      let object ← pathAt? source "object" children
      let property ← t.fieldText? "property" source
      return object ++ "." ++ property
    else if kind = "call_expression" then pathAt? source "function" children
    else if kind = "non_null_expression" ∨ kind = "parenthesized_expression" then
      firstPath? source children
    else none

/-- The path of the first node that fills a field. -/
def pathAt? (source : List Char) (field : String) : List SyntaxTree → Option String
  | [] => none
  | t :: ts =>
    if t.field == some field then memberPath? source t else pathAt? source field ts

/-- The path of the first named node. -/
def firstPath? (source : List Char) : List SyntaxTree → Option String
  | [] => none
  | t :: ts => if t.named then memberPath? source t else firstPath? source ts

end

/-- The name and the kind of a call, from the node in front of its arguments. -/
def callee? (source : List Char) (f : SyntaxTree) : Option (String × CallKind) :=
  if f.kind = "identifier" ∨ f.kind = "super" then some (f.text source, .function)
  else if f.kind = "member_expression" then
    ((memberPath? source f).or (f.fieldText? "property" source)).map (·, .method)
  else none

/-- The call that a node is. -/
def callOf? (source : List Char) (t : SyntaxTree) : Option CallSite :=
  let site := fun (callee : String) (kind : CallKind) =>
    ({ callee, kind, span := some ⟨t.line source, t.line source⟩ } : CallSite)
  if t.kind = "call_expression" then
    ((t.child? "function").bind (callee? source)).map fun c => site c.1 c.2
  else if t.kind = "new_expression" then
    ((t.child? "constructor").bind (memberPath? source)).map (site · .constructor)
  else none

/-- The calls of a node and below it. -/
def calls (source : List Char) (t : SyntaxTree) : List CallSite :=
  t.namedPreorder.filterMap (callOf? source)

/-- The calls below the first child that fills a field. -/
def callsAt (source : List Char) (t : SyntaxTree) (field : String) : List CallSite :=
  (t.child? field).elim [] (calls source)

/-! ## Findings -/

/-- What a part of a file contributes to its description. -/
structure Findings extends Recording where
  imports : List Import := []
  /-- Names that are exported by a list or an assignment. -/
  exported : List String := []

namespace Findings

/-- The findings of two parts, one after the other. -/
def append (f g : Findings) : Findings where
  toRecording := f.toRecording.append g.toRecording
  imports := f.imports ++ g.imports
  exported := f.exported ++ g.exported

/-- The findings of several parts, one after the other. -/
def concat (fs : List Findings) : Findings := fs.foldr append {}

end Findings

/-! ## Imports and exports -/

/-- A name in the braces of an import or export. -/
def listedName? (source : List Char) (t : SyntaxTree) : Option ImportedName :=
  (t.fieldText? "name" source).map fun name =>
    { name := unquote name, renamed := (t.fieldText? "alias" source).map unquote }

/-- The whole of a module under the name that a node spells. -/
def wholeAs (source : List Char) (t : SyntaxTree) : ImportedName :=
  { name := "*", renamed := some (t.text source) }

/-- The names that one part of an import clause binds. -/
def clauseNames (source : List Char) (part : SyntaxTree) : List ImportedName :=
  if part.kind = "identifier" then [{ name := "default", renamed := some (part.text source) }]
  else if part.kind = "namespace_import" then
    ((part.childOfKind? "identifier").map (wholeAs source)).toList
  else if part.kind = "named_imports" then
    (part.namedChildren.filter (·.kind == "import_specifier")).filterMap (listedName? source)
  else []

/-- An import statement. -/
def importStatement (source : List Char) (t : SyntaxTree) : Findings :=
  let required := t.childOfKind? "import_require_clause"
  match (t.child? "source").or (required.bind (·.child? "source")) with
  | none => {}
  | some module =>
    let whole := (required.bind (·.childOfKind? "identifier")).map (wholeAs source)
    let listed := (t.childOfKind? "import_clause").elim [] fun clause =>
      clause.namedChildren.flatMap (clauseNames source)
    { imports :=
        [{ source := unquote (module.text source), names := whole.toList ++ listed,
           line := some (t.line source) }] }

/-- The names in an export clause. -/
def exportedNames (source : List Char) (clause : SyntaxTree) : List ImportedName :=
  (clause.namedChildren.filter (·.kind == "export_specifier")).filterMap (listedName? source)

/-- An export of names of another module. -/
def reexport (source : List Char) (t module : SyntaxTree) : Findings :=
  let names := match t.childOfKind? "export_clause" with
    | some clause => exportedNames source clause
    | none =>
      match (t.childOfKind? "namespace_export").bind (·.namedChild?) with
      | some name => [wholeAs source name]
      | none => [{ name := "*" }]
  let visible := match t.childOfKind? "export_clause" with
    | some _ => names.map fun n => n.localName?.getD n.name
    | none => names.filterMap (·.renamed)
  { imports :=
      [{ source := unquote (module.text source), names, reexport := true,
         line := some (t.line source) }]
    exported := visible }

/-- The module in a call of `require` with a text. -/
def requireSource? (source : List Char) (t : SyntaxTree) : Option String := do
  guard (t.kind = "call_expression")
  let f ← t.child? "function"
  guard (f.kind = "identifier" ∧ f.text source = "require")
  let arguments ← t.child? "arguments"
  let first ← arguments.namedChild?
  guard (first.kind = "string")
  return unquote (first.text source)

/-- The names that a pattern binds when a module is assigned to it. -/
def patternNames (source : List Char) (pattern : SyntaxTree) : List ImportedName :=
  if pattern.kind = "identifier" then [wholeAs source pattern]
  else if pattern.kind = "object_pattern" then
    pattern.namedChildren.filterMap fun property =>
      if property.kind = "shorthand_property_identifier_pattern" then
        some { name := property.text source }
      else if property.kind = "pair_pattern" then do
        let key ← property.fieldText? "key" source
        let localName ← property.fieldText? "value" source
        return { name := key, renamed := some localName }
      else none
  else []

/-- The names that an assignment to the exports of the module makes visible. -/
def assignedExports (source : List Char) (t : SyntaxTree) : List String :=
  match t.child? "left", t.child? "right" with
  | some left, some right =>
    let target := (left.text source).toList
    match Text.stripStart "exports.".toList target with
    | some name => [String.ofList name]
    | none =>
      match Text.stripStart "module.exports.".toList target with
      | some name => [String.ofList name]
      | none =>
        if target ≠ "module.exports".toList then []
        else if right.kind = "identifier" then [right.text source]
        else if right.kind = "object" then
          right.namedChildren.filterMap fun property =>
            if property.kind = "shorthand_property_identifier" then some (property.text source)
            else if property.kind = "pair" then property.fieldText? "key" source
            else none
        else []
  | _, _ => []

/-! ## Entities -/

/-- The parameters of a function as written. -/
def parameters (source : List Char) (t : SyntaxTree) : String :=
  (t.fieldText? "parameters" source).getD "()"

/-- The return type of a function as written. -/
def returnType (source : List Char) (t : SyntaxTree) : String :=
  (t.fieldText? "return_type" source).getD ""

/-- A function declaration. -/
def functionDeclaration (source : List Char) (isExported : Bool) (t : SyntaxTree) : List Entity :=
  match t.fieldText? "name" source with
  | none => []
  | some name =>
    let isAsync := t.hasToken "async"
    let signature := (if isAsync then "async " else "") ++ "function " ++ name ++
      parameters source t ++ returnType source t
    [{ id := name, name, kind := .function, signature := Text.collapse signature,
       span := t.span source, isExported, isAsync, calls := callsAt source t "body" }]

/-- An entity for a function that is the value of something with a name and a span. -/
def callableValue (source : List Char) (name : String) (kind : EntityKind) (lead : String)
    (isExported : Bool) (span : LineSpan) (value : SyntaxTree) : Entity :=
  let isAsync := value.hasToken "async"
  let params := match value.fieldText? "parameter" source with
    | some single => "(" ++ single ++ ")"
    | none => parameters source value
  let shape :=
    if kind = .arrow then params ++ returnType source value ++ " =>"
    else "function " ++ name ++ params ++ returnType source value
  let parts := [lead, if isAsync then "async" else "", shape].filter (· ≠ "")
  { id := name, name, kind, signature := Text.collapse (" ".intercalate parts), span, isExported,
    isAsync, calls := callsAt source value "body" }

/-- Whether a value is a function in a class field or default export. -/
def isCallable (kind : String) : Bool :=
  kind == "arrow_function" || kind == "function_expression" || kind == "function"

/-- The kind of entity that a function value is. -/
def callableKind (kind : String) : EntityKind :=
  if kind = "arrow_function" then .arrow else .function

/-- A method. -/
def method (source : List Char) (t : SyntaxTree) : List Entity :=
  match t.fieldText? "name" source with
  | none => []
  | some name =>
    let (kind, accessor) : EntityKind × String :=
      if name = "constructor" then (.constructor, "")
      else if t.hasToken "get" then (.getter, "get ")
      else if t.hasToken "set" then (.setter, "set ")
      else (.method, "")
    let isAsync := t.hasToken "async"
    let signature := (if t.hasToken "static" then "static " else "") ++
      (if isAsync then "async " else "") ++ accessor ++ name ++ parameters source t ++
      returnType source t
    [{ id := name, name, kind, signature := Text.collapse signature, span := t.span source,
       isExported := !Text.begins "#" name, isAsync, calls := callsAt source t "body" }]

/-- A field: a function value is an entity, the calls of any other value are made by the class. -/
def classField (source : List Char) (t : SyntaxTree) : Recording :=
  match (t.child? "name").or (t.child? "property"), t.child? "value" with
  | some nameNode, some value =>
    if isCallable value.kind then
      let name := nameNode.text source
      { entities :=
          [callableValue source name (callableKind value.kind) "" (!Text.begins "#" name)
            (t.span source) value] }
    else { calls := calls source value }
  | none, some value => { calls := calls source value }
  | _, none => {}

/-- A part of the body of a class. -/
def classMember (source : List Char) (t : SyntaxTree) : Recording :=
  if t.kind = "method_definition" then { entities := method source t }
  else if t.kind = "public_field_definition" ∨ t.kind = "field_definition" then
    classField source t
  else if t.kind = "class_static_block" ∨ t.kind = "decorator" then { calls := calls source t }
  else {}

/-- A class with its members; `fallback` names a class without a name. -/
def classEntities (source : List Char) (fallback : Option String) (isExported : Bool)
    (t : SyntaxTree) : List Entity :=
  match (t.fieldText? "name" source).or fallback with
  | none => []
  | some name =>
    let heritage := t.childOfKind? "class_heritage"
    let signature := "class " ++ name ++ heritage.elim "" fun h => " " ++ h.text source
    let members := (t.child? "body").elim [] fun body =>
      body.namedChildren.map (classMember source)
    { id := name, name, kind := .classDef, signature := Text.collapse signature,
      span := t.span source, isExported
      calls := heritage.elim [] (calls source) ++
        (t.childrenOf "decorator").flatMap (calls source) ++ members.flatMap (·.calls) } ::
      members.flatMap (·.entities)

/-! ## Statements -/

/-- One variable of a declaration. -/
def declarator (source : List Char) (keyword : String) (isExported : Bool) (t : SyntaxTree) :
    Findings :=
  match t.child? "name" with
  | none => {}
  | some nameNode =>
    let value := t.child? "value"
    match value.bind (requireSource? source), value with
    | some module, some v =>
      { imports :=
          [{ source := module, names := patternNames source nameNode,
             line := some (v.line source) }] }
    | _, _ =>
      let name := nameNode.text source
      if nameNode.kind ≠ "identifier" then { calls := value.elim [] (calls source) }
      else
        let constant : Entity :=
          { id := name, name, kind := .const, span := t.span source, isExported
            signature := Text.collapse
              ("const " ++ name ++ (t.fieldText? "type" source).getD "")
            calls := value.elim [] (calls source) }
        match value with
        | none => if keyword = "const" then { entities := [constant] } else {}
        | some v =>
          if v.kind = "arrow_function" then
            { entities :=
                [callableValue source name .arrow (keyword ++ " " ++ name ++ " =") isExported
                  (t.span source) v] }
          else if v.kind = "function_expression" ∨ v.kind = "function" ∨
              v.kind = "generator_function" then
            { entities :=
                [callableValue source name .function "" isExported (t.span source) v] }
          else if v.kind = "class" then
            { entities := classEntities source (some name) isExported v }
          else if keyword = "const" then { entities := [constant] }
          else { calls := calls source v }

/-- A declaration of variables. -/
def boundVariables (source : List Char) (isExported : Bool) (t : SyntaxTree) : Findings :=
  let keyword := (t.fieldText? "kind" source).getD "var"
  .concat ((t.namedChildren.filter (·.kind == "variable_declarator")).map
    (declarator source keyword isExported))

/-- An expression at the top of the file. -/
def expression (source : List Char) (t : SyntaxTree) : Findings :=
  match t.namedChild? with
  | none => {}
  | some e =>
    match requireSource? source e with
    | some module => { imports := [{ source := module, line := some (t.line source) }] }
    | none =>
      { exported := if e.kind = "assignment_expression" then assignedExports source e else []
        calls := calls source t }

/-- The value of a default export. -/
def defaultExport (source : List Char) (value : SyntaxTree) : Findings :=
  if value.kind = "identifier" then { exported := [value.text source] }
  else if isCallable value.kind then
    { entities :=
        [callableValue source "default" (callableKind value.kind) "export default" true
          (value.span source) value] }
  else if value.kind = "class" then
    { entities := classEntities source (some "default") true value }
  else { calls := calls source value }

/-- An export without a declaration and without another module. -/
def exportList (source : List Char) (t : SyntaxTree) : Findings :=
  match t.childOfKind? "export_clause" with
  | some clause => { exported := (exportedNames source clause).map (·.name) }
  | none => (t.child? "value").elim {} (defaultExport source)

/-- The statements that contribute nothing. -/
def silentKinds : List String :=
  ["comment", "interface_declaration", "type_alias_declaration", "ambient_declaration",
   "function_signature", "empty_statement"]

mutual

/-- What a statement contributes; `isExported` tells whether it stands in an export. -/
def statement (source : List Char) (isExported : Bool) : SyntaxTree → Findings
  | .mk kind named field start stop children =>
    let t : SyntaxTree := .mk kind named field start stop children
    if kind = "import_statement" then importStatement source t
    else if kind = "export_statement" then
      match t.child? "source" with
      | some module => reexport source t module
      | none =>
        let decorators : Findings :=
          { calls := (t.childrenOf "decorator").flatMap (calls source) }
        match declared? source children with
        | some found => decorators.append found
        | none => decorators.append (exportList source t)
    else if kind = "function_declaration" ∨ kind = "generator_function_declaration" then
      { entities := functionDeclaration source isExported t }
    else if kind = "class_declaration" ∨ kind = "abstract_class_declaration" then
      { entities := classEntities source none isExported t }
    else if kind = "lexical_declaration" ∨ kind = "variable_declaration" then
      boundVariables source isExported t
    else if kind = "expression_statement" then expression source t
    else if silentKinds.contains kind then {}
    else { calls := calls source t }

/-- What the first node that fills the field `declaration` contributes, as an exported one. -/
def declared? (source : List Char) : List SyntaxTree → Option Findings
  | [] => none
  | t :: ts =>
    if t.field == some "declaration" then some (statement source true t)
    else declared? source ts

end

/-- What the statements of a file contribute. -/
def findings (source : List Char) (root : SyntaxTree) : Findings :=
  .concat (root.namedChildren.map (statement source false))

/-! ## Artifacts -/

/-- An entity that a list of names exports, unless it is a member. -/
def markExported (names : List String) (e : Entity) : Entity :=
  if !e.kind.isMember && names.contains e.name then { e with isExported := true } else e

/-- The names of exported entities, then those exported by name, without repetitions. -/
def exportsOf (entities : List Entity) (names : List String) : List String :=
  (((entities.filter fun e => e.isExported && !e.kind.isMember).map (·.name)) ++ names).eraseDups

/-- The description that findings give, before calls are bound. -/
def describe (file : FileIdentity) (f : Findings) : Artifact :=
  let entities := f.entities.map (markExported f.exported)
  { file, imports := f.imports, entities, moduleCalls := f.calls
    exports := some (exportsOf entities f.exported) }

/-- The description of a file from its syntax tree. -/
def artifact (file : FileIdentity) (source : List Char) (root : SyntaxTree) : Artifact :=
  ((describe file (findings source root)).withEntityIds).resolve Language.scriptBuiltins

end SourceGraph.Script
