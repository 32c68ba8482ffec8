import SourceGraph.Json.Basic

/-!
# Reading records

A record is given as an object, whose other fields do not matter, or as an array of its fields in
their order, with those at the end left out. In both forms a field may be required, may have a
default, or may be absent or `null`.

* `Json.record?`: the known fields of a value.
* `Record.required?`, `Record.default?`, `Record.optional?`: the three kinds of fields.
* `Json.nat?`, `Json.list?`, …: the values of fields.
-/

set_option autoImplicit false

namespace SourceGraph.Json

/-- The known fields that a value gives. -/
structure Record where
  entries : List (String × Json)

/--
The fields of a value that has the given names. A known field that is given twice is refused, and
so is an array that is longer than the list of names.
-/
def record? (names : List String) : Json → Option Record
  | object fields =>
    let known := fields.filter fun f => names.contains f.1
    if (known.map (·.1)).Nodup then some ⟨known⟩ else none
  | array items => if items.length ≤ names.length then some ⟨names.zip items⟩ else none
  | _ => none

namespace Record

variable {α : Type}

/-- The value given for a name. -/
def get? (r : Record) (name : String) : Option Json := r.entries.lookup name

/-- A field that has to be there. -/
def required? (r : Record) (name : String) (read : Json → Option α) : Option α :=
  (r.get? name).bind read

/-- A field with a default. -/
def default? (r : Record) (name : String) (read : Json → Option α) (default : α) : Option α :=
  match r.get? name with
  | none => some default
  | some j => read j

/-- A field that may be absent or `null`. -/
def optional? (r : Record) (name : String) (read : Json → Option α) : Option (Option α) :=
  match r.get? name with
  | none | some .null => some none
  | some j => (read j).map some

end Record

/-- A text. -/
def string? : Json → Option String
  | string s => some s
  | _ => none

/-- A truth value. -/
def bool? : Json → Option Bool
  | bool b => some b
  | _ => none

/-- An integer of 64 bits. -/
def nat? : Json → Option Nat
  | number n => if n < UInt64.size then some n else none
  | _ => none

/-- A list of values that `read` accepts. -/
def list? {α : Type} (read : Json → Option α) : Json → Option (List α)
  | array items => items.mapM read
  | _ => none

/-- One of some names, written as a text or as an object with that name and `null`. -/
def name? : Json → Option String
  | string s => some s
  | object [(s, null)] => some s
  | _ => none

/-- A table with values that `read` accepts, in the order of the document. -/
def table? {α : Type} (read : Json → Option α) : Json → Option (List (String × α))
  | object fields => fields.mapM fun f => (read f.2).map fun a => (f.1, a)
  | _ => none

/-- A field that is written only if there is a value. -/
def present (name : String) (j : Option Json) : List (String × Json) :=
  match j with
  | some j => [(name, j)]
  | none => []

end SourceGraph.Json
