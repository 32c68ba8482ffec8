import SourceGraph.Json.Basic

/-!
# Writing JSON

One printer for two layouts. `Layout.compact` writes no blanks; `Layout.indented` puts every item
and field on a line of its own, two spaces deeper than its parent, and one space after a colon.
Empty arrays and objects are written without anything inside.

* `Json.write`: the text of a value in a layout.
* `Json.compact`, `Json.pretty`: the two layouts.
-/

set_option autoImplicit false

namespace SourceGraph.Json

/-- Where blanks go. -/
structure Layout where
  /-- What starts a line at a given depth. -/
  newline : Nat → List Char
  /-- What follows the colon after a field's name. -/
  afterColon : List Char

namespace Layout

/-- No blanks. -/
def compact : Layout := ⟨fun _ => [], []⟩

/-- A line for each item and field, two spaces for each level. -/
def indented : Layout := ⟨fun depth => '\n' :: List.replicate (2 * depth) ' ', [' ']⟩

end Layout

/-- The hexadecimal digits of `n`, lower case. -/
def hexDigit (n : Nat) : Char := Char.ofNat (if n < 10 then 48 + n else 87 + n)

/-- A character inside quotes: quotes, backslashes and control characters are escaped. -/
def writeChar (c : Char) : List Char :=
  if c = '"' then ['\\', '"']
  else if c = '\\' then ['\\', '\\']
  else if c = '\n' then ['\\', 'n']
  else if c = '\r' then ['\\', 'r']
  else if c = '\t' then ['\\', 't']
  else if c.toNat = 8 then ['\\', 'b']
  else if c.toNat = 12 then ['\\', 'f']
  else if c.toNat < 32 then ['\\', 'u', '0', '0', hexDigit (c.toNat / 16), hexDigit (c.toNat % 16)]
  else [c]

/-- A text between quotes. -/
def writeString (s : String) : List Char := '"' :: (s.toList.flatMap writeChar ++ ['"'])

mutual

/-- The text of a value that stands at `depth`. -/
def write (l : Layout) (depth : Nat) : Json → List Char
  | null => "null".toList
  | bool b => (if b then "true" else "false").toList
  | number n => (toString n).toList
  | decimal literal => literal.toList
  | string s => writeString s
  | array [] => ['[', ']']
  | array (j :: js) =>
    '[' :: (l.newline (depth + 1) ++ write l (depth + 1) j ++ writeItems l (depth + 1) js ++
      l.newline depth ++ [']'])
  | object [] => ['{', '}']
  | object ((name, j) :: fs) =>
    '{' :: (l.newline (depth + 1) ++ writeString name ++ ':' :: l.afterColon ++
      write l (depth + 1) j ++ writeFields l (depth + 1) fs ++ l.newline depth ++ ['}'])

/-- The items after the first one. -/
def writeItems (l : Layout) (depth : Nat) : List Json → List Char
  | [] => []
  | j :: js => ',' :: (l.newline depth ++ write l depth j ++ writeItems l depth js)

/-- The fields after the first one. -/
def writeFields (l : Layout) (depth : Nat) : List (String × Json) → List Char
  | [] => []
  | (name, j) :: fs =>
    ',' :: (l.newline depth ++ writeString name ++ ':' :: l.afterColon ++ write l depth j ++
      writeFields l depth fs)

end

/-- The value on one line, without blanks. -/
def compact (j : Json) : String := String.ofList (write .compact 0 j)

/-- The value on several lines. -/
def pretty (j : Json) : String := String.ofList (write .indented 0 j)

end SourceGraph.Json
