/-!
# TOML values

Values of a TOML document, and the rules by which keys and headers extend tables. A table knows how
it came to be, because that decides what may still be added to it.

* `Toml`: the values. Floats and dates are only told apart from other values.
* `Toml.updateAt?`: a change of the table at a path.
* `Toml.addPair?`: a table with one more key, which may be dotted.
-/

set_option autoImplicit false

namespace SourceGraph

/-- How a table came to be. -/
inductive TableOrigin where
  /-- By a header of its own, or as the document. -/
  | header
  /-- By the header of a table below it. -/
  | implied
  /-- By a dotted key. -/
  | dotted
  /-- Between braces. -/
  | inline
deriving DecidableEq, Inhabited

/-- A value. -/
inductive Toml where
  | string (s : String)
  | integer (n : Int)
  | float
  | datetime
  | boolean (b : Bool)
  | array (items : List Toml)
  | table (origin : TableOrigin) (fields : List (String × Toml))
  /-- Tables with one header, in order. -/
  | tables (elements : List (List (String × Toml)))
deriving Inhabited

namespace Toml

/-- The fields of a table. -/
abbrev Fields := List (String × Toml)

/-- The fields with a new value for a key, which stays at its place or comes last. -/
def put (fields : Fields) (key : String) (v : Toml) : Fields :=
  if fields.any (·.1 == key) then fields.map fun f => if f.1 == key then (key, v) else f
  else fields ++ [(key, v)]

/-- Whether a key with dots (`dotted`) or a header may lead through a table. -/
def mayEnter (dotted : Bool) : TableOrigin → Bool
  | .header => !dotted
  | .implied | .dotted => true
  | .inline => false

/--
The fields of a table after `change` at the table that `path` leads to. Tables on the way are made
if they are absent; of tables with one header the last is taken.
-/
def updateAt? (dotted : Bool) (change : TableOrigin → Fields → Option Fields) :
    List String → TableOrigin → Fields → Option Fields
  | [], origin, fields => change origin fields
  | key :: path, _, fields =>
    match fields.lookup key with
    | none => do
      let origin : TableOrigin := if dotted then .dotted else .implied
      let inner ← updateAt? dotted change path origin []
      return put fields key (table origin inner)
    | some (table origin inner) =>
      if mayEnter dotted origin then do
        let inner ← updateAt? dotted change path origin inner
        return put fields key (table origin inner)
      else none
    | some (tables elements) => do
      let last ← elements.getLast?
      let last ← updateAt? dotted change path .header last
      return put fields key (tables (elements.dropLast ++ [last]))
    | some _ => none

/-- The fields with one more key, which has to be new. -/
def addField? (fields : Fields) (key : String) (v : Toml) : Option Fields :=
  match fields.lookup key with
  | some _ => none
  | none => some (fields ++ [(key, v)])

/--
The fields with one more pair. The parts of a dotted key before the last one name tables, which must
have been made by dotted keys too.
-/
def addPair? (fields : Fields) (path : List String) (key : String) (v : Toml) : Option Fields :=
  let change : TableOrigin → Fields → Option Fields := fun origin inner =>
    if path ≠ [] ∧ origin ≠ .dotted then none else addField? inner key v
  updateAt? true change path .header fields

end Toml

end SourceGraph
