/-!
# Glob patterns

Patterns for relative paths. A path is matched as the list of its bytes, so that a character of
several bytes is more than one step. Only the recursive steps get across a separator.

* `Glob.Step`: what matches a piece of a path; `Glob.Step.rests` gives what may be left after it.
* `Glob`: steps one after the other, with choices.
* `Glob.rests`, `Glob.covers`: what may be left after a pattern, and whether it matches all.
-/

set_option autoImplicit false

namespace SourceGraph

/-- One step of a pattern. -/
inductive Glob.Step where
  /-- The character itself. -/
  | literal (c : Char)
  /-- One byte of a name. -/
  | any
  /-- Any bytes of a name. -/
  | many
  /-- Folders at the start of a path, or none. -/
  | leading
  /-- Folders in the middle of a path, or only a separator. -/
  | inner
  /-- Everything below a folder. -/
  | below
  /-- One byte of a class, or outside of it. -/
  | oneOf (isNegated : Bool) (ranges : List (Char × Char))
deriving DecidableEq, Inhabited

/-- Steps one after the other; at some points there is a choice. -/
inductive Glob where
  | done
  | step (s : Glob.Step) (rest : Glob)
  | either (left right rest : Glob)
deriving DecidableEq, Inhabited

namespace Glob

/-! ## Classes -/

/-- The bytes of a character. -/
def bytes (c : Char) : List UInt8 := c.toString.toUTF8.toList

/-- Whether a byte is in a range. -/
def isWithin (b : UInt8) (r : UInt8 × UInt8) : Bool := r.1 ≤ b && b ≤ r.2

/--
The ranges of bytes for a range of characters: the last byte of the first character up to the first
byte of the last one, and each other byte alone.
-/
def byteRanges (r : Char × Char) : List (UInt8 × UInt8) :=
  let alone := fun (bs : List UInt8) => bs.map fun b => (b, b)
  if r.1 = r.2 then alone (bytes r.1)
  else
    match (bytes r.1).getLast?, (bytes r.2).head? with
    | some low, some high =>
      alone (bytes r.1).dropLast ++ (low, high) :: alone (bytes r.2).tail
    | _, _ => []

/-- Whether a byte is in a class. -/
def inClass (isNegated : Bool) (ranges : List (Char × Char)) (b : UInt8) : Bool :=
  (ranges.flatMap byteRanges).any (isWithin b) != isNegated

/-! ## Matching -/

/-- The byte between the names of a path. -/
def separator : UInt8 := 47

/-- A list and all that is left of it from some point on. -/
def suffixes : List UInt8 → List (List UInt8)
  | [] => [[]]
  | b :: bs => (b :: bs) :: suffixes bs

/-- What is left after each separator. -/
def afterSeparators : List UInt8 → List (List UInt8)
  | [] => []
  | b :: bs => if b = separator then bs :: afterSeparators bs else afterSeparators bs

/-- What is left after some bytes of a name, or none. -/
def withinName : List UInt8 → List (List UInt8)
  | [] => [[]]
  | b :: bs => if b = separator then [b :: bs] else (b :: bs) :: withinName bs

/-- What is left after one byte of a name with a property. -/
def oneByte (test : UInt8 → Bool) : List UInt8 → List (List UInt8)
  | [] => []
  | b :: bs => if b ≠ separator ∧ test b then [bs] else []

/-- What may be left of some bytes after a step. -/
def Step.rests : Step → List UInt8 → List (List UInt8)
  | literal c, bs => if (bytes c).isPrefixOf bs then [bs.drop (bytes c).length] else []
  | any, bs => oneByte (fun _ => true) bs
  | many, bs => withinName bs
  | leading, bs => bs :: afterSeparators bs
  | inner, bs =>
    match bs with
    | b :: rest => if b = separator then rest :: afterSeparators rest else []
    | [] => []
  | below, bs =>
    match bs with
    | b :: rest => if b = separator then suffixes rest else []
    | [] => []
  | oneOf isNegated ranges, bs => oneByte (inClass isNegated ranges) bs

/-- What may be left of some bytes after a pattern. -/
def rests : Glob → List UInt8 → List (List UInt8)
  | done, bs => [bs]
  | step s rest, bs => ((s.rests bs).flatMap rest.rests).eraseDups
  | either left right rest, bs =>
    ((left.rests bs ++ right.rests bs).eraseDups.flatMap rest.rests).eraseDups

/-- Whether a pattern matches a whole path. Folders alone stand for everything. -/
def covers (g : Glob) (path : String) : Bool :=
  g == step .leading done || (g.rests path.toUTF8.toList).contains []

end Glob

end SourceGraph
