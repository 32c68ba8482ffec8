import SourceGraph.Extract.Python

/-!
# Describing files

The description of a file in any language, and of a file at a path of the workspace.

Formalises the method `extract` of `Extractor` and of `ExtractorRegistry`, with the faults in
`ExtractError`.

* `Language.artifact?`: the description of a text with a known identity.
* `extract`: the description of the file at a path; the language is chosen by the extension.
-/

set_option autoImplicit false

namespace SourceGraph

/-- The grammars of all languages. -/
abbrev Grammars := Language → Grammar

/-- The description of a file with text `text`; none if the text is not in the language. -/
def Language.artifact? (l : Language) (g : Grammar) (file : FileIdentity) (text : String) :
    Option Artifact :=
  (g text).map fun root =>
    match l with
    | .python => Python.artifact file text.toList root
    | _ => Script.artifact file text.toList root

/-- Why a file has no description. -/
inductive ExtractFault where
  /-- The file could not be read, for the reason that is given. -/
  | unreadable (path : Path) (reason : String)
  /-- The path is not below the root. -/
  | outsideRoot (path : Path)
  /-- No language claims the extension. -/
  | unsupported (path : Path)
deriving DecidableEq, Inhabited

namespace ExtractFault

/-- The fault in words. -/
def message : ExtractFault → String
  | unreadable path reason => "Failed to read " ++ path.text ++ ": " ++ reason
  | outsideRoot path => path.text ++ " is outside the workspace root"
  | unsupported path => "No extractor registered for " ++ path.text

end ExtractFault

/-- The language and the identity of the file at a path. -/
def identify (ls : List Language) (root path : Path) :
    Except ExtractFault (Language × FileIdentity) :=
  match Language.among? ls path with
  | none => .error (.unsupported path)
  | some l =>
    match FileId.ofPath? root path with
    | none => .error (.outsideRoot path)
    | some id => .ok (l, { id, path := path.normalized, language := l.id })

/--
The description of the file at `path`, whose text `read` gives, or of why there is none. An unknown
extension counts before a path outside of the root, and that before a file that cannot be read.
-/
def extract (g : Grammars) (ls : List Language) (root path : Path)
    (read : Except String String) : Except ExtractFault (Option Artifact) := do
  let (l, file) ← identify ls root path
  match read with
  | .error reason => .error (.unreadable path reason)
  | .ok text => .ok (l.artifact? (g l) file text)

end SourceGraph
