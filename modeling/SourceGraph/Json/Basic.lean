/-!
# JSON values

The values of a JSON document. Objects keep their fields in the order in which they are written,
repeated names included; what a repeated name means is decided by the reader of the value. Of the
numbers only the non-negative integers are values of their own; any other number is kept as it is
written.

* `Json`: the values.
* `Json.field?`: the value of a field, the last one if the name is repeated.
* `Json.settle`: the same value with one field for each name.
* `Json.sortFields`: the same value with the fields of each object in the order of their names.
-/

set_option autoImplicit false

namespace SourceGraph

/-- A JSON value. -/
inductive Json where
  | null
  | bool (b : Bool)
  /-- A number written with digits only. -/
  | number (n : Nat)
  /-- Any other number, as it is written. -/
  | decimal (literal : String)
  | string (s : String)
  | array (items : List Json)
  | object (fields : List (String × Json))
deriving Inhabited

namespace Json

/-- The value of a field of an object; of fields with one name the last counts. -/
def field? (j : Json) (name : String) : Option Json :=
  match j with
  | object fields => (fields.reverse.find? (·.1 == name)).map (·.2)
  | _ => none

/-- Fields with the last value of each name, at the place of the first. -/
def lastWins (fields : List (String × Json)) : List (String × Json) :=
  fields.foldl (fun acc f =>
    if acc.any (·.1 == f.1) then acc.map fun g => if g.1 == f.1 then f else g else acc ++ [f]) []

mutual

/-- The value with one field for each name, the last one given. -/
def settle : Json → Json
  | array items => array (settleAll items)
  | object fields => object (lastWins (settleFields fields))
  | j => j

/-- `settle` for each item. -/
def settleAll : List Json → List Json
  | [] => []
  | j :: js => settle j :: settleAll js

/-- `settle` for each field. -/
def settleFields : List (String × Json) → List (String × Json)
  | [] => []
  | (name, j) :: fs => (name, settle j) :: settleFields fs

end

mutual

/-- The value with the fields of every object in the order of their names. -/
def sortFields : Json → Json
  | array items => array (sortItems items)
  | object fields => object ((sortInside fields).mergeSort fun f g => f.1 ≤ g.1)
  | j => j

/-- `sortFields` for each item. -/
def sortItems : List Json → List Json
  | [] => []
  | j :: js => sortFields j :: sortItems js

/-- `sortFields` for each field. -/
def sortInside : List (String × Json) → List (String × Json)
  | [] => []
  | (name, j) :: fs => (name, sortFields j) :: sortInside fs

end

end Json

end SourceGraph
