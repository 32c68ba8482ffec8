/-!
# Cutting texts

Cuts of a text at a separator. Each function works on the list of characters, so that what it keeps
and drops can be stated there.

* `segments`: all pieces between occurrences of a separator; there is at least one.
* `cutFirst`, `cutLast`: the pieces around the first, or the last, occurrence.
* `stripStart`, `stripEnd`: what is left of a text that starts, or ends, in a given way.
* `dropTrailing`: a text without the occurrences of one character at its end.
-/

set_option autoImplicit false

namespace SourceGraph.Text

/-- The pieces of a text between the occurrences of `sep`. -/
def segments (sep : Char) (s : String) : List String := (s.toList.splitOn sep).map String.ofList

/-- What stands before and after the first occurrence of `sep`. -/
def cutFirst (sep : List Char) : List Char → Option (List Char × List Char)
  | [] => if sep = [] then some ([], []) else none
  | c :: cs =>
    if sep.isPrefixOf (c :: cs) then some ([], (c :: cs).drop sep.length)
    else (cutFirst sep cs).map fun cut => (c :: cut.1, cut.2)

/-- What stands before and after the last occurrence of `sep`. -/
def cutLast (sep : Char) : List Char → Option (List Char × List Char)
  | [] => none
  | c :: cs =>
    match cutLast sep cs with
    | some cut => some (c :: cut.1, cut.2)
    | none => if c = sep then some ([], cs) else none

/-- What follows `start` in a text that begins with it. -/
def stripStart (start cs : List Char) : Option (List Char) :=
  if start.isPrefixOf cs then some (cs.drop start.length) else none

/-- What precedes `ending` in a text that ends with it. -/
def stripEnd (ending cs : List Char) : Option (List Char) :=
  if ending.isSuffixOf cs then some (cs.take (cs.length - ending.length)) else none

/-- A text without the occurrences of `c` at its end. -/
def dropTrailing (c : Char) (cs : List Char) : List Char := (cs.reverse.dropWhile (· == c)).reverse

/-- A text with every `old` replaced by `new`. -/
def replaceChar (old new : Char) (s : String) : String :=
  String.ofList (s.toList.map fun c => if c = old then new else c)

/-- The lower-case form of the letters `A` to `Z`; all other characters stay. -/
def lower (s : String) : String := String.ofList (s.toList.map Char.toLower)

/-- Equality of texts up to the case of the letters `A` to `Z`. -/
def sameLetters (s t : String) : Bool := lower s == lower t

/-- Whether a text begins with `start`. -/
def begins (start s : String) : Bool := start.toList.isPrefixOf s.toList

/-- Whether a text ends with `ending`. -/
def ends (ending s : String) : Bool := ending.toList.isSuffixOf s.toList

end SourceGraph.Text
