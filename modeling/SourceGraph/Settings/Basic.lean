import SourceGraph.Path
import SourceGraph.Toml.Document

/-!
# Settings

The settings of a workspace: where its files are, where its documents are kept, and how it is
watched. They are read from a TOML document; what is absent has a default, and unknown keys do not
matter. The documents are kept relative to the folder that holds the settings.

Formalises `Config` with its `validate`, `resolve_root` and `resolve_storage`.

* `Settings.parse?`: the settings in a text.
* `Settings.problems`: what is wrong with them, in words.
* `Settings.writtenRoot`, `Settings.storagePath`: paths relative to the folder of the settings.
-/

set_option autoImplicit false

namespace SourceGraph

/-- Settings of a workspace. -/
structure Settings where
  root : Path := ⟨"."⟩
  importGraph : Path := ⟨"import-graph.json"⟩
  callGraph : Path := ⟨"call-graph.json"⟩
  watchState : Path := ⟨"watch-state.json"⟩
  /-- The quiet period before changes are applied, in milliseconds. -/
  quietPeriod : Nat := 300
  /-- Whether ignore rules apply. -/
  useIgnoreFiles : Bool := true
deriving DecidableEq, Inhabited

namespace Settings

/-- The folder in which settings and documents are kept. -/
def stateFolder : Path := ⟨".codeweave"⟩

/-- The file with the settings, within that folder. -/
def fileName : Path := ⟨"config.toml"⟩

/-- The text of new settings, with all defaults. -/
def initialText : String :=
  "\n".intercalate
    ["# codeweave configuration",
     "# Storage paths are relative to this .codeweave/ directory unless absolute",
     "",
     "[project]",
     "root = \".\"  # Relative to the directory holding .codeweave/",
     "",
     "[storage]",
     "import_graph = \"import-graph.json\"",
     "call_graph = \"call-graph.json\"",
     "watch_state = \"watch-state.json\"",
     "",
     "[watch]",
     "debounce_ms = 300",
     "use_gitignore = true",
     ""]

/-! ## Reading -/

open Toml (Fields)

/-- The fields of a group of settings: a table, or an array with the values in the order of names. -/
def group? (names : List String) : Option Toml → Option Fields
  | none => some []
  | some (.table _ fields) => some fields
  | some (.array items) => some (names.zip items)
  | some (.tables elements) => some (names.zip (elements.map (Toml.table .header)))
  | some _ => none

/-- The value of a field, or its default. -/
def field? {α : Type} (fields : Fields) (name : String) (read : Toml → Option α) (default : α) :
    Option α :=
  match fields.lookup name with
  | none => some default
  | some v => read v

/-- A path. -/
def path? : Toml → Option Path
  | .string s => some ⟨s⟩
  | _ => none

/-- A number that is not negative. -/
def nat? : Toml → Option Nat
  | .integer n => if 0 ≤ n then some n.toNat else none
  | _ => none

/-- A truth value. -/
def bool? : Toml → Option Bool
  | .boolean b => some b
  | _ => none

/-- The settings in a document. -/
def ofToml? (doc : Fields) : Option Settings := do
  let d : Settings := {}
  let project ← group? ["root"] (doc.lookup "project")
  let storage ← group? ["import_graph", "call_graph", "watch_state"] (doc.lookup "storage")
  let watch ← group? ["debounce_ms", "use_gitignore"] (doc.lookup "watch")
  let root ← field? project "root" path? d.root
  let importGraph ← field? storage "import_graph" path? d.importGraph
  let callGraph ← field? storage "call_graph" path? d.callGraph
  let watchState ← field? storage "watch_state" path? d.watchState
  let quietPeriod ← field? watch "debounce_ms" nat? d.quietPeriod
  let useIgnoreFiles ← field? watch "use_gitignore" bool? d.useIgnoreFiles
  return { root, importGraph, callGraph, watchState, quietPeriod, useIgnoreFiles }

/-- The settings in a text. -/
def parse? (s : String) : Option Settings := (Toml.parse? s).bind ofToml?

/-! ## Use -/

/-- What is wrong with the settings. -/
def problems (s : Settings) : List String :=
  let empty := fun (name : String) (p : Path) =>
    if p.text = "" then [name ++ ": path cannot be empty"] else []
  empty "storage.import_graph" s.importGraph ++ empty "storage.call_graph" s.callGraph ++
    empty "storage.watch_state" s.watchState ++
    (if s.importGraph.same s.callGraph then
      ["storage: import_graph and call_graph must differ"] else []) ++
    (if s.quietPeriod = 0 then ["watch.debounce_ms: must be greater than zero"] else [])

/-- The root as written, seen from the folder that holds the state folder `dir`. -/
def writtenRoot (s : Settings) (dir : Path) : Path :=
  if s.root.isAbsolute then s.root else ((dir.parent?).getD ⟨"."⟩).join s.root

/-- The root: an absolute one as written, any other in its canonical form if it has one. -/
def rootPath (s : Settings) (canonical? : Path → Option Path) (dir : Path) : Path :=
  if s.root.isAbsolute then s.root
  else (canonical? (s.writtenRoot dir)).getD (s.writtenRoot dir)

/-- The path of a document, seen from the state folder. -/
def storagePath (dir p : Path) : Path := dir.absolutize p

end Settings

end SourceGraph
