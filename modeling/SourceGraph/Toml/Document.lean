import SourceGraph.Toml.Parser

/-!
# TOML documents

A document as one table, put together from its sections. A table with a header may have been made
before only by the headers of tables below it.

* `Toml.ofSections?`: the table of a list of sections.
* `Toml.parse?`: the table of a text.
-/

set_option autoImplicit false

namespace SourceGraph.Toml

/-- Fields with all pairs of a section. -/
def addPairs? (fields : Fields) (pairs : List (List String × String × Toml)) : Option Fields :=
  pairs.foldlM (fun acc p => addPair? acc p.1 p.2.1 p.2.2) fields

/-- A table with a header of its own, as a field. -/
def openTable? (pairs : List (List String × String × Toml)) (key : String) (fields : Fields) :
    Option Fields :=
  match fields.lookup key with
  | none => (addPairs? [] pairs).map fun inner => put fields key (table .header inner)
  | some (table .implied inner) =>
    (addPairs? inner pairs).map fun inner => put fields key (table .header inner)
  | some _ => none

/-- One more of the tables with one header, as a field. -/
def openElement? (pairs : List (List String × String × Toml)) (key : String) (fields : Fields) :
    Option Fields := do
  let inner ← addPairs? [] pairs
  match fields.lookup key with
  | none => return put fields key (tables [inner])
  | some (tables elements) => return put fields key (tables (elements ++ [inner]))
  | some _ => none

/-- The document with one more section. -/
def addSection? (doc : Fields) (s : Section) : Option Fields :=
  match s.header with
  | .document => addPairs? doc s.pairs
  | .table path key => updateAt? false (fun _ => openTable? s.pairs key) path .header doc
  | .element path key => updateAt? false (fun _ => openElement? s.pairs key) path .header doc

/-- The table of a list of sections. -/
def ofSections? (sections : List Section) : Option Fields := sections.foldlM addSection? []

/-- The table of a text. -/
def parse? (s : String) : Option Fields := (sections? s).bind ofSections?

end SourceGraph.Toml
