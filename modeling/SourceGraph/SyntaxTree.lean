import SourceGraph.Artifact.Basic
import SourceGraph.Json.Record
import SourceGraph.Text.Bytes

/-!
# Syntax trees

The tree that a grammar makes of a text. A node has a kind, may fill a field of its parent, and
covers the bytes between two offsets; punctuation and keywords are nodes without a name.

* `SyntaxTree.child?`, `SyntaxTree.childrenOf`, `SyntaxTree.namedChildren`, …: children of a node.
* `SyntaxTree.preorder`, `SyntaxTree.namedPreorder`: all nodes below, each before its children.
* `SyntaxTree.text`, `SyntaxTree.span`: the text and the lines that a node covers.
* `SyntaxTree.ofRows?`: a tree from the list of its nodes in preorder, each with its depth.
-/

set_option autoImplicit false

namespace SourceGraph

/-- A node with everything below it. -/
structure SyntaxTree where
  kind : String
  /-- Whether the node is named by the grammar; other nodes are tokens. -/
  named : Bool
  /-- The field of the parent that the node fills. -/
  field : Option String
  start : Nat
  stop : Nat
  children : List SyntaxTree
deriving Inhabited

namespace SyntaxTree

/-! ## Children -/

/-- The children with a name. -/
def namedChildren (t : SyntaxTree) : List SyntaxTree := t.children.filter (·.named)

/-- The first child with a name. -/
def namedChild? (t : SyntaxTree) : Option SyntaxTree := t.children.find? (·.named)

/-- The children that fill a field. -/
def childrenOf (t : SyntaxTree) (field : String) : List SyntaxTree :=
  t.children.filter (·.field == some field)

/-- The first child that fills a field. -/
def child? (t : SyntaxTree) (field : String) : Option SyntaxTree :=
  t.children.find? (·.field == some field)

/-- The first child of a kind. -/
def childOfKind? (t : SyntaxTree) (kind : String) : Option SyntaxTree :=
  t.children.find? (·.kind == kind)

/-- Whether a token is among the children. -/
def hasToken (t : SyntaxTree) (token : String) : Bool :=
  t.children.any fun c => !c.named && c.kind == token

/-! ## Nodes below -/

mutual

/-- The node and all nodes below it, each before its children. -/
def preorder : SyntaxTree → List SyntaxTree
  | .mk kind named field start stop children =>
    .mk kind named field start stop children :: preorderAll children

/-- `preorder` for each tree, one after the other. -/
def preorderAll : List SyntaxTree → List SyntaxTree
  | [] => []
  | t :: ts => preorder t ++ preorderAll ts

end

mutual

/-- The node and the nodes that are reached from it through named ones. -/
def namedPreorder : SyntaxTree → List SyntaxTree
  | .mk kind named field start stop children =>
    .mk kind named field start stop children :: namedPreorderAll children

/-- `namedPreorder` for each named tree, one after the other. -/
def namedPreorderAll : List SyntaxTree → List SyntaxTree
  | [] => []
  | t :: ts => if t.named then namedPreorder t ++ namedPreorderAll ts else namedPreorderAll ts

end

/-! ## Text -/

/-- The text that a node covers. -/
def text (t : SyntaxTree) (source : List Char) : String :=
  String.ofList (Text.between t.start t.stop source)

/-- The line that a node starts on. -/
def line (t : SyntaxTree) (source : List Char) : Nat := Text.lineAt t.start source

/-- The lines that a node covers. -/
def span (t : SyntaxTree) (source : List Char) : LineSpan :=
  ⟨Text.lineAt t.start source, Text.lineAt t.stop source⟩

/-- The text of the first child that fills a field. -/
def fieldText? (t : SyntaxTree) (field : String) (source : List Char) : Option String :=
  (t.child? field).map (·.text source)

/-! ## Rows -/

/-- A node without its children, and its depth. -/
structure Row where
  depth : Nat
  kind : String
  named : Bool
  field : Option String
  start : Nat
  stop : Nat

/-- A row in front of the trees that follow it: the deeper ones at the start are its children. -/
def graft (row : Row) (trees : List (Nat × SyntaxTree)) : List (Nat × SyntaxTree) :=
  let (below, rest) := trees.span fun t => row.depth < t.1
  (row.depth, ⟨row.kind, row.named, row.field, row.start, row.stop, below.map (·.2)⟩) :: rest

/-- The tree whose nodes in preorder are the rows. -/
def ofRows? (rows : List Row) : Option SyntaxTree :=
  match rows.foldr graft [] with
  | [(_, t)] => some t
  | _ => none

/-- A row written as an array of depth, kind, 1 or 0 for named, field, start and stop. -/
def Row.ofJson? : Json → Option Row
  | .array [.number depth, .string kind, .number named, .string field, .number start,
      .number stop] =>
    some ⟨depth, kind, named == 1, if field = "" then none else some field, start, stop⟩
  | _ => none

/-- The tree written as an array of rows. -/
def ofJson? (j : Json) : Option SyntaxTree := ((Json.list? Row.ofJson?) j).bind ofRows?

end SyntaxTree

/-- What makes trees of texts; none for a text that is not in the language. -/
abbrev Grammar := String → Option SyntaxTree

end SourceGraph
