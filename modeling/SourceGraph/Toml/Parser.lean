import SourceGraph.Decimal
import SourceGraph.Json.Parser
import SourceGraph.Toml.Basic

/-!
# Reading TOML

Readers for the parts of a TOML document. Each takes the characters still to read and returns what
it read with what is left. The first argument of the recursive ones bounds the number of steps; the
length of the text is enough.

* `Toml.key?`, `Toml.value?`: keys and values.
* `Toml.sections?`: a document as a list of headers with the pairs below them.
-/

set_option autoImplicit false

namespace SourceGraph.Toml

/-! ## Blanks, comments, ends of lines -/

/-- The characters that may stand between tokens of a line. -/
def isGap (c : Char) : Bool := c == ' ' || c == '\t'

/-- The characters of a comment. -/
def isCommentChar (c : Char) : Bool :=
  c == '\t' || (0x20 ≤ c.toNat && c.toNat ≠ 0x7F)

/-- The text from its first character that is no gap. -/
def skipGap (cs : List Char) : List Char := cs.dropWhile isGap

/-- The text after an end of line. -/
def newline? : List Char → Option (List Char)
  | '\n' :: rest => some rest
  | '\r' :: '\n' :: rest => some rest
  | _ => none

/-- The text after a comment, if one is there. -/
def skipComment : List Char → List Char
  | '#' :: rest => rest.dropWhile isCommentChar
  | cs => cs

/-- The text after the end of a line, on which only a comment may be left. -/
def endLine? (cs : List Char) : Option (List Char) :=
  match skipComment (skipGap cs) with
  | [] => some []
  | cs => newline? cs

/-- The text after gaps, ends of lines and, if `comments`, comments. -/
def skipLines (comments : Bool) : Nat → List Char → List Char
  | 0, cs => cs
  | n + 1, cs =>
    match cs with
    | ' ' :: rest | '\t' :: rest | '\n' :: rest | '\r' :: '\n' :: rest => skipLines comments n rest
    | '#' :: rest =>
      if comments then skipLines comments n (rest.dropWhile isCommentChar) else '#' :: rest
    | cs => cs

/-! ## Texts -/

/-- The characters that stand for themselves in a text: no control characters but the tab. -/
def isPlain (c : Char) : Bool := isCommentChar c

/-- The value of `n` hexadecimal digits. -/
def hex? : Nat → Nat → List Char → Option (Nat × List Char)
  | 0, acc, cs => some (acc, cs)
  | n + 1, acc, c :: cs => (Json.hexValue? c).bind fun d => hex? n (acc * 16 + d) cs
  | _ + 1, _, [] => none

/-- The character with a number written as `n` hexadecimal digits. -/
def scalar? (n : Nat) (cs : List Char) : Option (Char × List Char) := do
  let (v, rest) ← hex? n 0 cs
  if v.isValidChar then return (Char.ofNat v, rest) else none

/-- The character written after a backslash. -/
def escaped? : List Char → Option (Char × List Char)
  | 'b' :: rest => some (Char.ofNat 8, rest)
  | 't' :: rest => some ('\t', rest)
  | 'n' :: rest => some ('\n', rest)
  | 'f' :: rest => some (Char.ofNat 12, rest)
  | 'r' :: rest => some ('\r', rest)
  | '\x22' :: rest => some ('\x22', rest)
  | '\\' :: rest => some ('\\', rest)
  | 'u' :: rest => scalar? 4 rest
  | 'U' :: rest => scalar? 8 rest
  | _ => none

/-- A character in front of what a reader returns. -/
def prepend (c : Char) (read : Option (List Char × List Char)) : Option (List Char × List Char) :=
  read.map fun r => (c :: r.1, r.2)

/-- The characters of a text up to its closing double quote. -/
def basicText? : Nat → List Char → Option (List Char × List Char)
  | 0, _ => none
  | _ + 1, [] => none
  | n + 1, c :: rest =>
    if c = '\x22' then some ([], rest)
    else if c = '\\' then (escaped? rest).bind fun e => prepend e.1 (basicText? n e.2)
    else if isPlain c then prepend c (basicText? n rest)
    else none

/-- The characters of a text up to its closing single quote. -/
def literalText? (cs : List Char) : Option (List Char × List Char) :=
  match cs.span fun c => isPlain c && c ≠ '\x27' with
  | (body, '\x27' :: rest) => some (body, rest)
  | _ => none

/--
The characters of a text of several lines. A run of three to five quotes ends it, and those beyond
three belong to it. If `escapes`, a backslash starts an escape, or joins lines.
-/
def longText? (quote : Char) (escapes : Bool) : Nat → List Char → Option (List Char × List Char)
  | 0, _ => none
  | n + 1, cs =>
    let run := (cs.takeWhile (· == quote)).length
    if 3 ≤ run then
      let used := min run 5
      some (List.replicate (used - 3) quote, cs.drop used)
    else
      match cs with
      | [] => none
      | '\n' :: rest | '\r' :: '\n' :: rest => prepend '\n' (longText? quote escapes n rest)
      | c :: rest =>
        if c = '\\' ∧ escapes = true then
          match newline? (skipGap rest) with
          | some rest => longText? quote escapes n (skipLines false rest.length rest)
          | none => (escaped? rest).bind fun e => prepend e.1 (longText? quote escapes n e.2)
        else if isPlain c then prepend c (longText? quote escapes n rest)
        else none

/-- The text after one end of line, if there is one. -/
def skipNewline (cs : List Char) : List Char := (newline? cs).getD cs

/-- A text with its quotes, in any of the four forms. -/
def quoted? : List Char → Option (List Char × List Char)
  | '\x22' :: '\x22' :: '\x22' :: rest => longText? '\x22' true (rest.length + 1) (skipNewline rest)
  | '\x22' :: rest => basicText? (rest.length + 1) rest
  | '\x27' :: '\x27' :: '\x27' :: rest => longText? '\x27' false (rest.length + 1) (skipNewline rest)
  | '\x27' :: rest => literalText? rest
  | _ => none

/-! ## Keys -/

/-- The characters of a key without quotes. -/
def isKeyChar (c : Char) : Bool := c.isAlphanum || c == '-' || c == '_'

/-- One part of a key. -/
def keyPart? : List Char → Option (String × List Char)
  | '\x22' :: rest => (basicText? (rest.length + 1) rest).map fun r => (String.ofList r.1, r.2)
  | '\x27' :: rest => (literalText? rest).map fun r => (String.ofList r.1, r.2)
  | cs =>
    match cs.span isKeyChar with
    | ([], _) => none
    | (name, rest) => some (String.ofList name, rest)

/-- The parts of a key, with gaps around them. -/
def keyParts? : Nat → List Char → Option (List String × List Char)
  | 0, _ => none
  | n + 1, cs => do
    let (part, rest) ← keyPart? (skipGap cs)
    match skipGap rest with
    | '.' :: rest =>
      let (parts, rest) ← keyParts? n rest
      return (part :: parts, rest)
    | rest => return ([part], rest)

/-- One more than the number of levels that keys and values may have. -/
def depthLimit : Nat := 80

/-- A key: the parts before the last, and the last one. -/
def key? (cs : List Char) : Option (List String × String × List Char) := do
  let (parts, rest) ← keyParts? depthLimit cs
  let last ← parts.getLast?
  if parts.length < depthLimit then return (parts.dropLast, last, rest) else none

/-! ## Numbers -/

/-- Further digits, each with at most one underscore in front. -/
def moreDigits (ok : Char → Bool) : List Char → List Char × List Char
  | '_' :: d :: rest =>
    if ok d then
      let (ds, rest) := moreDigits ok rest
      (d :: ds, rest)
    else ([], '_' :: d :: rest)
  | d :: rest =>
    if ok d then
      let (ds, rest) := moreDigits ok rest
      (d :: ds, rest)
    else ([], d :: rest)
  | [] => ([], [])

/-- One or more digits. -/
def digits? (ok : Char → Bool) : List Char → Option (List Char × List Char)
  | d :: rest =>
    if ok d then
      let (ds, rest) := moreDigits ok rest
      some (d :: ds, rest)
    else none
  | [] => none

/-- A sign, if there is one, and whether it is a minus. -/
def sign : List Char → Bool × List Char
  | '+' :: rest => (false, rest)
  | '-' :: rest => (true, rest)
  | cs => (false, cs)

/-- Digits without superfluous zeros, after a sign. -/
def decimal? (cs : List Char) : Option (Bool × List Char × List Char) :=
  let (negative, rest) := sign cs
  match rest with
  | '0' :: rest => some (negative, ['0'], rest)
  | rest => (digits? Char.isDigit rest).map fun r => (negative, r.1, r.2)

/-- The value of digits in a base. -/
def valueIn (base : Nat) (ds : List Char) : Nat :=
  ds.foldl (fun n d => n * base + (Json.hexValue? d).getD 0) 0

/-- An integer that fits in 64 bits with its sign. -/
def fits (n : Int) : Option Toml :=
  if -9223372036854775808 ≤ n ∧ n < 9223372036854775808 then some (integer n) else none

/-- Digits in another base after its mark. -/
def based? (base : Nat) (ok : Char → Bool) (cs : List Char) : Option (Toml × List Char) := do
  let (ds, rest) ← digits? ok cs
  let v ← fits (valueIn base ds)
  return (v, rest)

/-- An integer. -/
def integer? : List Char → Option (Toml × List Char)
  | '0' :: 'x' :: rest => based? 16 (Json.hexValue? · |>.isSome) rest
  | '0' :: 'o' :: rest => based? 8 (fun c => '0' ≤ c && c ≤ '7') rest
  | '0' :: 'b' :: rest => based? 2 (fun c => c == '0' || c == '1') rest
  | cs => do
    let (negative, ds, rest) ← decimal? cs
    let n : Int := valueIn 10 ds
    let v ← fits (if negative then -n else n)
    return (v, rest)

/-- The exponent of a float, with its sign. -/
def exponent? : List Char → Option (Int × List Char)
  | c :: rest =>
    if c = 'e' ∨ c = 'E' then do
      let (negative, rest) := sign rest
      let (ds, rest) ← digits? Char.isDigit rest
      let n : Int := valueIn 10 ds
      return (if negative then -n else n, rest)
    else none
  | [] => none

/-- A float; a positive one must not be too large for a double. -/
def float? (cs : List Char) : Option (Toml × List Char) :=
  match (sign cs).2 with
  | 'i' :: 'n' :: 'f' :: rest | 'n' :: 'a' :: 'n' :: rest => some (float, rest)
  | _ => do
    let (negative, whole, rest) ← decimal? cs
    let (frac, exp, rest) ← match rest with
      | '.' :: rest => do
        let (frac, rest) ← digits? Char.isDigit rest
        match exponent? rest with
        | some (exp, rest) => pure (frac, exp, rest)
        | none => pure (frac, 0, rest)
      | rest => (exponent? rest).map fun r => ([], r.1, r.2)
    if !negative && Decimal.isHuge (valueIn 10 (whole ++ frac)) (exp - frac.length) then none
    else return (float, rest)

/-! ## Dates and times -/

/-- A number of exactly `n` digits within bounds. -/
def fixed? (n low high : Nat) (cs : List Char) : Option (Nat × List Char) :=
  let ds := cs.take n
  let v := valueIn 10 ds
  if ds.length = n ∧ ds.all Char.isDigit = true ∧ low ≤ v ∧ v ≤ high then some (v, cs.drop n) else none

/-- The text after a given character. -/
def after? (c : Char) : List Char → Option (List Char)
  | d :: rest => if d = c then some rest else none
  | [] => none

/-- The number of days of a month. -/
def daysIn (year month : Nat) : Nat :=
  if month = 2 then
    if year % 4 = 0 ∧ (year % 100 ≠ 0 ∨ year % 400 = 0) then 29 else 28
  else if [4, 6, 9, 11].contains month then 30
  else 31

/-- The text after a date. -/
def date? (cs : List Char) : Option (List Char) := do
  let (year, rest) ← fixed? 4 0 9999 cs
  let (month, rest) ← fixed? 2 1 12 (← after? '-' rest)
  let (_, rest) ← fixed? 2 1 (daysIn year month) (← after? '-' rest)
  return rest

/-- The text after a time of the day. -/
def time? (cs : List Char) : Option (List Char) := do
  let (_, rest) ← fixed? 2 0 23 cs
  let (_, rest) ← fixed? 2 0 59 (← after? ':' rest)
  let (_, rest) ← fixed? 2 0 60 (← after? ':' rest)
  match rest with
  | '.' :: rest =>
    match rest.span Char.isDigit with
    | ([], _) => return '.' :: rest
    | (_, rest) => return rest
  | rest => return rest

/-- The text after an offset, if one is there. -/
def skipOffset? : List Char → Option (List Char)
  | c :: rest =>
    if c = 'Z' ∨ c = 'z' then some rest
    else if c = '+' ∨ c = '-' then do
      let (_, rest) ← fixed? 2 0 23 rest
      let (_, rest) ← fixed? 2 0 59 (← after? ':' rest)
      return rest
    else some (c :: rest)
  | [] => some []

/-- A date, a time, or both. -/
def datetime? (cs : List Char) : Option (Toml × List Char) :=
  match date? cs with
  | none => (time? cs).map fun rest => (datetime, rest)
  | some rest =>
    match rest with
    | c :: afterMark =>
      if c = 'T' ∨ c = 't' ∨ c = ' ' then
        match time? afterMark with
        | some rest => (skipOffset? rest).map fun rest => (datetime, rest)
        | none => some (datetime, rest)
      else some (datetime, rest)
    | [] => some (datetime, [])

/-! ## Values -/

/-- A number, a date or a time. -/
def numeric? (cs : List Char) : Option (Toml × List Char) :=
  match datetime? cs with
  | some r => some r
  | none =>
    match float? cs with
    | some r => some r
    | none => integer? cs

mutual

/-- A value; `depth` is the number of levels that may still be opened. -/
def value? : Nat → Nat → List Char → Option (Toml × List Char)
  | 0, _, _ => none
  | n + 1, depth, cs =>
    match cs with
    | 't' :: 'r' :: 'u' :: 'e' :: rest => some (boolean true, rest)
    | 'f' :: 'a' :: 'l' :: 's' :: 'e' :: rest => some (boolean false, rest)
    | '\x22' :: _ | '\x27' :: _ => (quoted? cs).map fun r => (string (String.ofList r.1), r.2)
    | '[' :: rest =>
      match depth with
      | 0 => none
      | depth + 1 => (items? n depth rest).map fun r => (array r.1, r.2)
    | '{' :: rest =>
      match depth with
      | 0 => none
      | depth + 1 =>
        match skipGap rest with
        | '}' :: rest => some (table .inline [], rest)
        | _ => (pairs? n depth [] rest).map fun r => (table .inline r.1, r.2)
    | cs => numeric? cs

/-- The items of an array up to its closing bracket. -/
def items? : Nat → Nat → List Char → Option (List Toml × List Char)
  | 0, _, _ => none
  | n + 1, depth, cs =>
    match skipLines true cs.length cs with
    | ']' :: rest => some ([], rest)
    | start => do
      let (v, rest) ← value? n depth start
      match skipLines true rest.length rest with
      | ']' :: rest => return ([v], rest)
      | ',' :: rest =>
        let (vs, rest) ← items? n depth rest
        return (v :: vs, rest)
      | _ => none

/-- The pairs of a table up to its closing brace, added to those before. -/
def pairs? : Nat → Nat → Fields → List Char → Option (Fields × List Char)
  | 0, _, _, _ => none
  | n + 1, depth, fields, cs => do
    let (path, key, rest) ← key? cs
    let (v, rest) ← value? n depth (skipGap (← after? '=' rest))
    let fields ← addPair? fields path key v
    match skipGap rest with
    | '}' :: rest => return (fields, rest)
    | ',' :: rest => pairs? n depth fields rest
    | _ => none

end

/-! ## Lines -/

/-- What starts a part of a document. -/
inductive Header where
  /-- The start of the document. -/
  | document
  /-- A table. -/
  | table (path : List String) (key : String)
  /-- One of several tables. -/
  | element (path : List String) (key : String)

/-- A header with the pairs below it. -/
structure Section where
  header : Header
  pairs : List (List String × String × Toml) := []

/-- A header on a line of its own. -/
def header? : List Char → Option (Header × List Char)
  | '[' :: '[' :: rest => do
    let (path, key, rest) ← key? rest
    let rest ← endLine? (← after? ']' (← after? ']' rest))
    return (.element path key, rest)
  | '[' :: rest => do
    let (path, key, rest) ← key? rest
    let rest ← endLine? (← after? ']' rest)
    return (.table path key, rest)
  | _ => none

/-- A pair on a line of its own. -/
def pair? (cs : List Char) : Option ((List String × String × Toml) × List Char) := do
  let (path, key, rest) ← key? cs
  let rest := skipGap (← after? '=' rest)
  let (v, rest) ← value? (rest.length + 1) (depthLimit - 1) rest
  let rest ← endLine? rest
  return ((path, key, v), rest)

/-- The sections of a document from the section `current` on. -/
def sectionsFrom? : Nat → Section → List Char → Option (List Section)
  | 0, _, _ => none
  | n + 1, current, cs =>
    match skipGap cs with
    | [] => some [current]
    | '[' :: rest => do
      let (header, rest) ← header? ('[' :: rest)
      let sections ← sectionsFrom? n { header } rest
      return current :: sections
    | c :: rest =>
      if c = '#' ∨ c = '\n' ∨ c = '\r' then (endLine? (c :: rest)).bind (sectionsFrom? n current)
      else do
        let (pair, rest) ← pair? (c :: rest)
        sectionsFrom? n { current with pairs := current.pairs ++ [pair] } rest

/-- The sections of a document; a byte order mark at its start does not count. -/
def sections? (s : String) : Option (List Section) :=
  let cs := match s.toList with
    | '\uFEFF' :: rest => rest
    | cs => cs
  sectionsFrom? (cs.length + 1) { header := .document } cs

end SourceGraph.Toml
