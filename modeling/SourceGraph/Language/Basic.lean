import SourceGraph.Path

/-!
# Languages

The languages whose files are described, the extensions that belong to each, and the list of
languages a workspace works with.

* `Language.ofExtension?`, `Language.ofPath?`: the language of a file.
* `Language.among?`: the same, within a list of languages.
* `Language.extensionsOf`: all extensions of a list of languages, sorted.
-/

set_option autoImplicit false

namespace SourceGraph

/-- A language. -/
inductive Language where
  | typescript
  | tsx
  | javascript
  | python
deriving DecidableEq, Inhabited

namespace Language

/-- All languages. -/
def all : List Language := [typescript, tsx, javascript, python]

/-- The tag of the language in descriptions of files. -/
def id : Language → String
  | typescript => "typescript"
  | tsx => "tsx"
  | javascript => "javascript"
  | python => "python"

/-- The name of the language for readers. -/
def title : Language → String
  | typescript => "TypeScript"
  | tsx => "TSX"
  | javascript => "JavaScript"
  | python => "Python"

/-- The extensions of the language. -/
def extensions : Language → List String
  | typescript => ["ts", "mts", "cts"]
  | tsx => ["tsx"]
  | javascript => ["js", "jsx", "mjs", "cjs"]
  | python => ["py", "pyi"]

/-- Whether the language has asynchronous functions. -/
def hasAsync (_ : Language) : Bool := true

/-- Whether the language has classes. -/
def hasClasses (_ : Language) : Bool := true

/-- The language with a tag. -/
def ofId? (s : String) : Option Language := all.find? (·.id == s)

/-- Whether an extension belongs to the language, in any case of its letters. -/
def claims (l : Language) (ext : String) : Bool := l.extensions.contains (Text.lower ext)

/-- The language of an extension. -/
def ofExtension? (ext : String) : Option Language := all.find? (·.claims ext)

/-- The language of a file. -/
def ofPath? (p : Path) : Option Language := p.extension?.bind ofExtension?

/-- The language of a file, if it is one of `ls`. -/
def among? (ls : List Language) (p : Path) : Option Language :=
  p.extension?.bind fun ext => ls.find? (·.claims ext)

/-- The extensions of some languages, without repetitions and sorted. -/
def extensionsOf (ls : List Language) : List String :=
  (ls.flatMap extensions).eraseDups.mergeSort (· ≤ ·)

/-- The extensions of all languages, language by language. -/
def allExtensions : List String := all.flatMap extensions

/-- A line that shows which extensions are claimed. -/
def showExtensions (ls : List Language) : String :=
  let quoted := (extensionsOf ls).map fun ext => "\"" ++ ext ++ "\""
  "ExtractorRegistry \x7b extensions: [" ++ ", ".intercalate quoted ++ "] \x7d"

end Language

end SourceGraph
