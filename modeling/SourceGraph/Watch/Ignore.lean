import SourceGraph.Glob.Parser
import SourceGraph.Text.Blank
import SourceGraph.Text.Cut
import SourceGraph.Watch.Library

/-!
# Ignore rules

Rules that tell which paths below a folder are ignored. A rule is one line: a glob pattern, which
`!` in front turns into an exception, `/` in front ties to the folder, and `/` at the end restricts
to folders. A pattern without a separator may match at any depth. Of the rules that match a path
the last one decides; if there is none, the folder that holds the path is asked.

Formalises what `FileWatcher` uses of the library behind `GitignoreBuilder` and `Gitignore`. No
theorem about a watcher depends on it, except through `IgnoreLibrary`.

* `IgnoreRule.parse`: the rule in a line.
* `IgnoreRule.ofLines`, `IgnoreRule.ofFile`: the rules in lines, and in the bytes of a file.
* `IgnoreRule.decide?`, `IgnoreRule.decideUp?`: whether a path is ignored by its own, or by that of
  a folder that holds it.
* `IgnoreRule.library`: the library that a watcher is run with.
-/

set_option autoImplicit false

namespace SourceGraph

/-- One rule. -/
structure IgnoreRule where
  pattern : Glob
  /-- The rule makes an exception. -/
  isException : Bool := false
  /-- The rule holds for folders only. -/
  onlyFolders : Bool := false
deriving DecidableEq, Inhabited

namespace IgnoreRule

/-- What a line says. -/
inductive Line where
  | rule (r : IgnoreRule)
  /-- A comment, or nothing. -/
  | blank
  /-- No pattern. -/
  | invalid

/-- The glob pattern of a line without its marks. -/
def widened (isTied : Bool) (cs : List Char) : List Char :=
  let stars := "**".toList
  let isDeep := ("**/".toList).isPrefixOf cs || cs == stars
  let anywhere := if !isTied && !cs.contains '/' && !isDeep then stars ++ '/' :: cs else cs
  if ("/**".toList).isSuffixOf anywhere then anywhere ++ ['/', '*'] else anywhere

/-- A line without its separator at the end, and whether it had one. -/
def stripFolderMark (cs : List Char) : List Char × Bool :=
  match Text.stripEnd ['/'] cs with
  | none => (cs, false)
  | some kept => ((Text.stripEnd ['\\'] kept).getD kept, true)

/-- A line without its marks in front: the rest, whether it is an exception, and whether tied. -/
def stripMarks (cs : List Char) : List Char × Bool × Bool :=
  match cs with
  | '\\' :: '!' :: rest => ('!' :: rest, false, false)
  | '\\' :: '#' :: rest => ('#' :: rest, false, false)
  | cs =>
    let (cs, isException) := match cs with
      | '!' :: rest => (rest, true)
      | cs => (cs, false)
    match cs with
    | '/' :: rest => (rest, isException, true)
    | cs => (cs, isException, false)

/-- The rule in a line. -/
def parse (line : String) : Line :=
  let cs := line.toList
  if cs.head? = some '#' then .blank
  else
    let cs := if ['\\', ' '].isSuffixOf cs then cs else Text.trimEnd cs
    if cs = [] then .blank
    else
      let (cs, isException, isTied) := stripMarks cs
      let (cs, onlyFolders) := stripFolderMark cs
      match Glob.parse? (String.ofList (widened isTied cs)) with
      | some pattern => .rule { pattern, isException, onlyFolders }
      | none => .invalid

/-- The rule in a line, if there is one. -/
def Line.rule? : Line → Option IgnoreRule
  | rule r => some r
  | _ => none

/-- The rules in some lines; invalid ones are passed over. -/
def ofLines (lines : List String) : List IgnoreRule := lines.filterMap fun l => (parse l).rule?

/-! ## Files -/

/-- A line without the byte order marks in front. -/
def withoutMarks (s : String) : String := String.ofList (s.toList.dropWhile (· == '\uFEFF'))

/-- A line without the carriage return at its end. -/
def withoutReturn (bs : List UInt8) : List UInt8 := if bs.getLast? = some 13 then bs.dropLast else bs

/-- The text of some bytes. -/
def text? (bs : List UInt8) : Option String := String.fromUTF8? ⟨bs.toArray⟩

/-- The lines of a file, up to the first one that is no text. -/
def linesOf (content : ByteArray) : List String :=
  let lines := (content.toList.splitOn 10).map (text? ∘ withoutReturn)
  match (lines.takeWhile Option.isSome).reduceOption with
  | [] => []
  | first :: rest => withoutMarks first :: rest

/-- The rules in a file. -/
def ofFile (content : ByteArray) : List IgnoreRule := ofLines (linesOf content)

/-! ## Decisions -/

/-- Whether a rule holds for a path. -/
def holds (r : IgnoreRule) (path : String) (isFolder : Bool) : Bool :=
  (isFolder || !r.onlyFolders) && r.pattern.covers path

/-- Whether rules ignore a path, by the last one that holds for it. -/
def decide? (rules : List IgnoreRule) (path : String) (isFolder : Bool) : Option Bool :=
  (rules.reverse.find? (·.holds path isFolder)).map (!·.isException)

/-- Whether rules ignore a path or else a folder that holds it. The names are the last one first. -/
def decideUp? (rules : List IgnoreRule) (isFolder : Bool) : List String → Option Bool
  | [] => decide? rules "" isFolder
  | name :: above =>
    (decide? rules ("/".intercalate (name :: above).reverse) isFolder).or
      (decideUp? rules true above)

/-- The names among components, the last one first. -/
def namesUp (steps : List Component) : List String :=
  ((steps.filter fun c => c ≠ .root && c ≠ .here).map Component.text).reverse

end IgnoreRule

/-! ## The library -/

/-- The rules for a folder. -/
structure IgnoreRules where
  folder : Path
  rules : List IgnoreRule := []

namespace IgnoreRules

/-- No rules yet. A `./` in front of the folder is cut off. -/
def start (root : Path) : IgnoreRules where
  folder := (Text.stripStart ['.', '/'] root.text.toList).elim root fun rest =>
    ⟨String.ofList rest⟩

def addFile (s : IgnoreRules) (content : ByteArray) : IgnoreRules :=
  { s with rules := s.rules ++ IgnoreRule.ofFile content }

def addLine? (s : IgnoreRules) (line : String) : Option IgnoreRules :=
  match IgnoreRule.parse line with
  | .rule r => some { s with rules := s.rules ++ [r] }
  | .blank => some s
  | .invalid => none

/-- Whether a path below the folder, or a folder around it, is ignored. -/
def ignores (s : IgnoreRules) (p : Path) (isFolder : Bool) : Bool :=
  (p.relativeTo? s.folder).any fun steps =>
    IgnoreRule.decideUp? s.rules isFolder (IgnoreRule.namesUp steps) == some true

end IgnoreRules

/-- The library that a watcher is run with. -/
def IgnoreRule.library : IgnoreLibrary where
  Draft := IgnoreRules
  Rules := IgnoreRules
  start := IgnoreRules.start
  addFile := IgnoreRules.addFile
  addLine? := IgnoreRules.addLine?
  build? := some
  folder := IgnoreRules.folder
  ignores := IgnoreRules.ignores

end SourceGraph
