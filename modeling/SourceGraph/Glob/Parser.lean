import SourceGraph.Glob.Basic

/-!
# Reading glob patterns

`*`, `?`, `[...]`, `{...,...}` and `\` have their usual meaning. `**` stands for folders where it is
a whole segment, and for `*` elsewhere. A class that is not closed stands for itself, and so does
every later bracket. A range that is out of order, a brace without its partner and a backslash at
the end make a pattern invalid.

* `Glob.Item`: a step, or a choice between patterns.
* `Glob.Draft`: what was read so far.
* `Glob.parse?`: the pattern in a text.
-/

set_option autoImplicit false

namespace SourceGraph.Glob

/-- A part of a pattern. -/
inductive Item where
  | step (s : Step)
  | choice (branches : List Glob)
deriving DecidableEq, Inhabited

/-- Two patterns one after the other. -/
def andThen (rest : Glob) : Glob → Glob
  | done => rest
  | step s g => step s (andThen rest g)
  | either left right g => either left right (andThen rest g)

/-- A choice between patterns, and what follows it. -/
def choose (rest : Glob) : List Glob → Glob
  | [] => rest
  | [g] => andThen rest g
  | g :: gs => either g (choose done gs) rest

/-- The pattern that consists of some parts. -/
def ofItems (items : List Item) : Glob :=
  items.foldr (fun i rest =>
    match i with
    | .step s => step s rest
    | .choice branches => choose rest branches) done

/-- A choice that is being read. -/
structure Group where
  /-- The parts in front of it, the last one first. -/
  before : List Item
  /-- The branches that were read, the last one first. -/
  branches : List Glob

/-- What was read so far. -/
structure Draft where
  /-- The parts of the current branch, the last one first. -/
  items : List Item := []
  /-- The choices around it, the innermost first. -/
  groups : List Group := []
  /-- The last character. -/
  last : Option Char := none
  /-- Whether brackets stand for themselves. -/
  hasPlainBrackets : Bool := false

namespace Draft

/-- The draft with one more step. -/
def push (d : Draft) (s : Step) : Draft := { d with items := .step s :: d.items }

/-- The draft with two stars that do not stand for folders. -/
def pushStars (d : Draft) : Draft := (d.push .many).push .many

/-- The pattern of the current branch. -/
def branch (d : Draft) : Glob := ofItems d.items.reverse

/-- The draft at the start of a choice. -/
def openGroup (d : Draft) : Draft :=
  { d with items := [], groups := { before := d.items, branches := [] } :: d.groups }

/-- The draft after a comma, which divides the branches of a choice. -/
def comma (d : Draft) : Draft :=
  match d.groups with
  | [] => d.push (.literal ',')
  | g :: gs => { d with items := [], groups := { g with branches := d.branch :: g.branches } :: gs }

/-- The draft after the end of a choice. Empty branches do not count. -/
def closeGroup? (d : Draft) : Option Draft :=
  match d.groups with
  | [] => none
  | g :: gs =>
    let branches := (d.branch :: g.branches).reverse.filter (· ≠ done)
    some { d with items := .choice branches :: g.before, groups := gs }

/-- The draft with a recursive step in place of the separator in front of it. -/
def recur (d : Draft) (s : Step) : Draft :=
  match d.items with
  | .step .leading :: _ => d
  | .step .below :: _ => d
  | _ :: before => { d with items := .step s :: before }
  | [] => d.push s

/-- The draft after two stars, and what follows them. -/
def stars (d : Draft) (rest : List Char) : Draft × List Char :=
  if d.items = [] then
    match rest with
    | [] => ({ d.push .leading with last := some '*' }, [])
    | '/' :: rest => ({ d.push .leading with last := some '/' }, rest)
    | rest => ({ d.pushStars with last := some '*' }, rest)
  else
    let isNested := !d.groups.isEmpty
    let atStart :=
      d.last == some '/' || (isNested && (d.last == some ',' || d.last == some '\x7b'))
    if !atStart then ({ d.pushStars with last := some '*' }, rest)
    else
      match rest with
      | [] => ({ d.recur .below with last := some '*' }, [])
      | '/' :: rest => ({ d.recur .inner with last := some '/' }, rest)
      | c :: _ =>
        if isNested && (c == ',' || c == '\x7d') then ({ d.recur .below with last := some '*' }, rest)
        else ({ d.pushStars with last := some '*' }, rest)

end Draft

/-! ## Classes -/

/-- What comes of a text behind an opening bracket. -/
inductive ClassResult where
  | closed (ranges : List (Char × Char)) (rest : List Char)
  | unclosed
  | invalid

/-- The ranges up to the closing bracket. `ranges` has the last one first. -/
def classBody (isFirst inRange : Bool) (ranges : List (Char × Char)) : List Char → ClassResult
  | [] => .unclosed
  | c :: cs =>
    if c = ']' ∧ !isFirst then
      .closed (if inRange then ('-', '-') :: ranges else ranges).reverse cs
    else if inRange then
      match ranges with
      | (low, _) :: more =>
        if c < low then .invalid else classBody false false ((low, c) :: more) cs
      | [] => .invalid
    else if c = '-' ∧ !isFirst then classBody false true ranges cs
    else classBody false false ((c, c) :: ranges) cs

/-- The class behind an opening bracket. -/
def readClass (cs : List Char) : Bool × ClassResult :=
  match cs with
  | '!' :: rest | '^' :: rest => (true, classBody true false [] rest)
  | _ => (false, classBody true false [] cs)

/-! ## Patterns -/

/-- Reads on; the first argument bounds the number of steps. -/
def read? : Nat → Draft → List Char → Option Draft
  | _, d, [] => some d
  | 0, _, _ :: _ => none
  | n + 1, d, c :: cs =>
    let now := { d with last := some c }
    match c with
    | '?' => read? n (now.push .any) cs
    | '*' =>
      match cs with
      | '*' :: rest =>
        let (d, rest) := d.stars rest
        read? n d rest
      | _ => read? n (now.push .many) cs
    | '\x7b' => read? n now.openGroup cs
    | '\x7d' => (now.closeGroup?).bind fun d => read? n d cs
    | ',' => read? n now.comma cs
    | '\\' =>
      match cs with
      | e :: rest => read? n { d.push (.literal e) with last := some e } rest
      | [] => none
    | '[' =>
      if d.hasPlainBrackets then read? n (now.push (.literal '[')) cs
      else
        match readClass cs with
        | (isNegated, .closed ranges rest) =>
          read? n ({ d with last := some ']' }.push (.oneOf isNegated ranges)) rest
        | (_, .unclosed) => read? n ({ now with hasPlainBrackets := true }.push (.literal '[')) cs
        | (_, .invalid) => none
    | c => read? n (now.push (.literal c)) cs

/-- The pattern in a text. -/
def parse? (s : String) : Option Glob :=
  match read? s.length {} s.toList with
  | some d => if d.groups.isEmpty then some d.branch else none
  | none => none

end SourceGraph.Glob
