import SourceGraph.Json.Basic

/-!
# Reading JSON

A strict reader: one value with nothing but blanks around it, no comments, no trailing commas, no
lone surrogates, control characters in texts only as escapes. Arrays and objects may be nested up
to a given depth.

Every reader takes the characters still to read and returns what it read with what is left. The
first argument of the recursive ones bounds the number of steps; the length of the text is enough.

* `Json.parse?`: the value of a text.
-/

set_option autoImplicit false

namespace SourceGraph.Json

/-- The characters that may stand between tokens. -/
def isSpace (c : Char) : Bool := c == ' ' || c == '\n' || c == '\r' || c == '\t'

/-- The text from its first character that is no space. -/
def skip (cs : List Char) : List Char := cs.dropWhile isSpace

/-- The value of a hexadecimal digit. -/
def hexValue? (c : Char) : Option Nat :=
  if '0' ≤ c ∧ c ≤ '9' then some (c.toNat - 48)
  else if 'a' ≤ c ∧ c ≤ 'f' then some (c.toNat - 87)
  else if 'A' ≤ c ∧ c ≤ 'F' then some (c.toNat - 55)
  else none

/-- The value of four hexadecimal digits. -/
def hex4? : List Char → Option (Nat × List Char)
  | a :: b :: c :: d :: rest => do
    let a ← hexValue? a
    let b ← hexValue? b
    let c ← hexValue? c
    let d ← hexValue? d
    return (((a * 16 + b) * 16 + c) * 16 + d, rest)
  | _ => none

/-- The character of a `\u` escape; the halves of a surrogate pair are only valid together. -/
def unicode? (cs : List Char) : Option (Char × List Char) := do
  let (n, rest) ← hex4? cs
  if 0xD800 ≤ n ∧ n < 0xDC00 then
    match rest with
    | '\\' :: 'u' :: rest =>
      let (m, rest) ← hex4? rest
      if 0xDC00 ≤ m ∧ m < 0xE000 then
        return (Char.ofNat (0x10000 + (n - 0xD800) * 0x400 + (m - 0xDC00)), rest)
      else none
    | _ => none
  else if 0xDC00 ≤ n ∧ n < 0xE000 then none
  else return (Char.ofNat n, rest)

/-- The character written after a backslash. -/
def escape? : List Char → Option (Char × List Char)
  | '"' :: rest => some ('"', rest)
  | '\\' :: rest => some ('\\', rest)
  | '/' :: rest => some ('/', rest)
  | 'b' :: rest => some (Char.ofNat 8, rest)
  | 'f' :: rest => some (Char.ofNat 12, rest)
  | 'n' :: rest => some ('\n', rest)
  | 'r' :: rest => some ('\r', rest)
  | 't' :: rest => some ('\t', rest)
  | 'u' :: rest => unicode? rest
  | _ => none

/-- The characters of a text up to its closing quote. -/
def text? : Nat → List Char → Option (List Char × List Char)
  | 0, _ => none
  | _ + 1, [] => none
  | n + 1, c :: rest =>
    if c = '"' then some ([], rest)
    else if c = '\\' then do
      let (c, rest) ← escape? rest
      let (cs, rest) ← text? n rest
      return (c :: cs, rest)
    else if c.toNat < 32 then none
    else do
      let (cs, rest) ← text? n rest
      return (c :: cs, rest)

/-- The digits at the start of a text. -/
def digits (cs : List Char) : List Char × List Char := cs.span Char.isDigit

/-- The value of a list of decimal digits. -/
def digitsValue (ds : List Char) : Nat := ds.foldl (fun n d => n * 10 + (d.toNat - 48)) 0

/-- The integer part of a number: one zero, or digits that start with another one. -/
def integerPart? (cs : List Char) : Option (List Char × List Char) :=
  match digits cs with
  | ([], _) => none
  | ('0' :: _ :: _, _) => none
  | part => some part

/-- The fraction of a number, empty if there is none. -/
def fraction? : List Char → Option (List Char × List Char)
  | '.' :: rest =>
    match digits rest with
    | ([], _) => none
    | (ds, rest) => some ('.' :: ds, rest)
  | rest => some ([], rest)

/-- The exponent of a number, empty if there is none. -/
def exponent? : List Char → Option (List Char × List Char)
  | c :: rest =>
    if c = 'e' ∨ c = 'E' then
      let (sign, rest) := rest.span fun d => d == '+' || d == '-'
      match sign, digits rest with
      | _ :: _ :: _, _ => none
      | _, ([], _) => none
      | sign, (ds, rest) => some (c :: sign ++ ds, rest)
    else some ([], c :: rest)
  | [] => some ([], [])

/-- A number. -/
def number? (cs : List Char) : Option (Json × List Char) := do
  let (sign, rest) := match cs with
    | '-' :: rest => (['-'], rest)
    | rest => ([], rest)
  let (whole, rest) ← integerPart? rest
  let (frac, rest) ← fraction? rest
  let (exp, rest) ← exponent? rest
  if sign = [] ∧ frac = [] ∧ exp = [] then return (number (digitsValue whole), rest)
  else return (decimal (String.ofList (sign ++ whole ++ frac ++ exp)), rest)

mutual

/-- A value; `depth` is the number of levels that may still be opened. -/
def value? : Nat → Nat → List Char → Option (Json × List Char)
  | 0, _, _ => none
  | n + 1, depth, cs =>
    match cs with
    | 'n' :: 'u' :: 'l' :: 'l' :: rest => some (null, rest)
    | 't' :: 'r' :: 'u' :: 'e' :: rest => some (bool true, rest)
    | 'f' :: 'a' :: 'l' :: 's' :: 'e' :: rest => some (bool false, rest)
    | '"' :: rest => do
      let (s, rest) ← text? (rest.length + 1) rest
      return (string (String.ofList s), rest)
    | '[' :: rest =>
      match depth with
      | 0 => none
      | depth + 1 =>
        match skip rest with
        | ']' :: rest => some (array [], rest)
        | rest => do
          let (items, rest) ← items? n depth rest
          return (array items, rest)
    | '{' :: rest =>
      match depth with
      | 0 => none
      | depth + 1 =>
        match skip rest with
        | '}' :: rest => some (object [], rest)
        | rest => do
          let (fields, rest) ← fields? n depth rest
          return (object fields, rest)
    | cs => number? cs

/-- The items of an array up to its closing bracket. -/
def items? : Nat → Nat → List Char → Option (List Json × List Char)
  | 0, _, _ => none
  | n + 1, depth, cs => do
    let (j, rest) ← value? n depth cs
    match skip rest with
    | ']' :: rest => return ([j], rest)
    | ',' :: rest =>
      let (js, rest) ← items? n depth (skip rest)
      return (j :: js, rest)
    | _ => none

/-- The fields of an object up to its closing brace. -/
def fields? : Nat → Nat → List Char → Option (List (String × Json) × List Char)
  | 0, _, _ => none
  | n + 1, depth, cs =>
    match cs with
    | '"' :: rest => do
      let (name, rest) ← text? (rest.length + 1) rest
      match skip rest with
      | ':' :: rest =>
        let (j, rest) ← value? n depth (skip rest)
        match skip rest with
        | '}' :: rest => return ([(String.ofList name, j)], rest)
        | ',' :: rest =>
          let (fs, rest) ← fields? n depth (skip rest)
          return ((String.ofList name, j) :: fs, rest)
        | _ => none
      | _ => none
    | _ => none

end

/-- The nesting that readers of values in general allow. -/
def usualDepth : Nat := 127

/-- The value of a text, with at most `depth` levels of arrays and objects. -/
def parse? (depth : Nat) (s : String) : Option Json := do
  let cs := skip s.toList
  let (j, rest) ← value? (cs.length + 1) depth cs
  if skip rest = [] then return j else none

end SourceGraph.Json
