import SourceGraph.Decimal
import SourceGraph.Json.Parser

/-!
# Values in general

Reading a text as a value of any shape. Every number has to be in the range of doubles, and of
fields with one name the last counts.

* `Json.inRange`: whether the numbers of a value are in range.
* `Json.general?`: the value of a text.
-/

set_option autoImplicit false

namespace SourceGraph.Json

/-- The value of the exponent at the end of a number. -/
def exponentValue : List Char → Int
  | _ :: '-' :: ds => -(digitsValue ds : Int)
  | _ :: '+' :: ds => digitsValue ds
  | _ :: ds => digitsValue ds
  | [] => 0

/-- Whether a number, given as it is written, is in the range of doubles. -/
def literalInRange (literal : List Char) : Bool :=
  let unsigned := match literal with
    | '-' :: rest => rest
    | rest => rest
  let (whole, rest) := digits unsigned
  let (places, rest) := match rest with
    | '.' :: rest => digits rest
    | rest => ([], rest)
  !Decimal.isHuge (digitsValue (whole ++ places)) (exponentValue rest - places.length)

mutual

/-- Whether all numbers of a value are in the range of doubles. -/
def inRange : Json → Bool
  | number n => !Decimal.isHuge n 0
  | decimal literal => literalInRange literal.toList
  | array items => allInRange items
  | object fields => fieldsInRange fields
  | _ => true

/-- `inRange` for each item. -/
def allInRange : List Json → Bool
  | [] => true
  | j :: js => inRange j && allInRange js

/-- `inRange` for each field. -/
def fieldsInRange : List (String × Json) → Bool
  | [] => true
  | (_, j) :: fs => inRange j && fieldsInRange fs

end

/-- The value of a text, with one field for each name. -/
def general? (s : String) : Option Json :=
  match parse? usualDepth s with
  | some j => if j.inRange then some j.settle else none
  | none => none

end SourceGraph.Json
