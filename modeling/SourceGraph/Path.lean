import SourceGraph.Text.Cut

/-!
# Written paths

A path is kept as it was written. What it means is its list of components: repeated separators, a
separator at the end and inner `.` segments do not count, `..` stays as it is. Paths are texts:
names that are no UTF-8, of which the program makes a text by replacing what it cannot read, are
outside of the model.

* `Path.components`: the components, by which paths are compared (`Path.same`, `Path.order`).
* `Path.parent?`, `Path.fileName?`, `Path.extension?`, `Path.withExtension`: parts of a path.
* `Path.join`, `Path.absoluteFrom?`: putting paths together.
* `Path.relativeTo?`: the components below another path.
* `Path.normalized`: the text by which tracked files are known.
-/

set_option autoImplicit false

namespace SourceGraph

/-- One component of a path. -/
inductive Component where
  /-- The start of an absolute path. -/
  | root
  /-- The `.` at the start of a relative path. -/
  | here
  /-- A `..` segment. -/
  | up
  /-- Any other segment. -/
  | name (text : String)
deriving DecidableEq

namespace Component

/-- The component a segment stands for. -/
def ofSegment (s : String) : Component := if s = ".." then .up else .name s

/-- How the component is written. -/
def text : Component → String
  | root => "/"
  | here => "."
  | up => ".."
  | name s => s

/-- The ordinary name in a component. -/
def name? : Component → Option String
  | name s => some s
  | _ => none

/-- The place of the kinds of components in their order. -/
def rank : Component → Nat
  | root => 0
  | here => 1
  | up => 2
  | name _ => 3

instance : Ord Component where
  compare := compareLex (compareOn rank) (compareOn text)

end Component

/-- A path as it was written. -/
structure Path where
  text : String
deriving DecidableEq, Inhabited

namespace Path

/-- The texts between the separators. -/
def segments (p : Path) : List String := Text.segments '/' p.text

/-- Whether a segment counts as a component wherever it stands. -/
def counts (s : String) : Bool := s ≠ "" && s ≠ "."

/-- Whether the path starts at the root. -/
def isAbsolute (p : Path) : Bool := p.text.toList.head? == some '/'

/-- The components of the path, from the left. -/
def components (p : Path) : List Component :=
  let start :=
    if p.isAbsolute then [.root] else if p.segments.head? = some "." then [.here] else []
  start ++ (p.segments.filter counts).map .ofSegment

/-- Two spellings with the same components. -/
def same (p q : Path) : Bool := p.components == q.components

/-- Paths are ordered by their components. -/
def order (p q : Path) : Ordering := compare p.components q.components

/-- The order of paths as a test, for sorting. -/
def atMost (p q : Path) : Bool := (order p q).isLE

/-- The segments up to the last one that counts; the `.` at the start of a relative path does. -/
def settle (segs : List String) : List String :=
  match (segs.reverse.dropWhile (!counts ·)).reverse with
  | [] => if segs.head? = some "." then ["."] else []
  | kept => kept

/-- The path without its last component, spelled as a beginning of the path. -/
def parent? (p : Path) : Option Path :=
  match settle p.segments with
  | [] => none
  | kept =>
    match settle kept.dropLast with
    | [] => some ⟨if p.isAbsolute then "/" else ""⟩
    | rest => some ⟨"/".intercalate rest⟩

/-- The last component, if it is an ordinary name. -/
def fileName? (p : Path) : Option String := p.components.getLast?.bind Component.name?

/-- A file name around its last dot, unless that is its first character. -/
def cutName (name : String) : Option (String × String) :=
  match Text.cutLast '.' name.toList with
  | some ([], _) => none
  | some (stem, ending) => some (String.ofList stem, String.ofList ending)
  | none => none

/-- What follows the last dot of the file name. -/
def extension? (p : Path) : Option String := p.fileName?.bind fun name => (cutName name).map (·.2)

/-- The path with another extension; unchanged if it names no file. -/
def withExtension (p : Path) (ext : String) : Path :=
  match p.fileName? with
  | none => p
  | some name =>
    let stem := (cutName name).elim name (·.1)
    ⟨"/".intercalate ((settle p.segments).dropLast ++ [stem ++ "." ++ ext])⟩

/-- `q` taken from `p`; an absolute `q` stays as it is. -/
def join (p q : Path) : Path :=
  if q.isAbsolute then q
  else if p.text = "" then q
  else if p.text.toList.getLast? = some '/' then ⟨p.text ++ q.text⟩
  else ⟨p.text ++ "/" ++ q.text⟩

/-- An absolute path stays as it is; any other one is taken from `root`. -/
def absolutize (root p : Path) : Path := if p.isAbsolute then p else root.join p

/--
The absolute path without repeated separators and `.` segments. Two leading separators and one at
the end are kept, `..` too. The empty path has none.
-/
def absoluteFrom? (p current : Path) : Option Path :=
  if p.text = "" then none
  else
    let base : Path :=
      if !p.isAbsolute then current
      else if Text.begins "//" p.text && !Text.begins "///" p.text then ⟨"//"⟩
      else ⟨"/"⟩
    let steps := p.components.filter fun c => c ≠ .root && c ≠ .here
    let full := steps.foldl (fun acc c => acc.join ⟨c.text⟩) base
    some (if Text.ends "/" p.text then full.join ⟨""⟩ else full)

/-- The components of `p` below `base`. -/
def relativeTo? (p base : Path) : Option (List Component) :=
  if base.components.isPrefixOf p.components then some (p.components.drop base.components.length)
  else none

/-- Whether `p` is `base` or lies below it. -/
def isBelow (p base : Path) : Bool := base.components.isPrefixOf p.components

/-- A text without separators at its end; separators alone become one. -/
def trimSeparators (s : String) : String :=
  match Text.dropTrailing '/' s.toList with
  | [] => if Text.begins "/" s then "/" else ""
  | kept => String.ofList kept

/-- The text by which a path is known: `/` for `\`, and no separator at the end. -/
def normalized (p : Path) : String := trimSeparators (Text.replaceChar '\\' '/' p.text)

end Path

end SourceGraph
