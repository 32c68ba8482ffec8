import SourceGraph.Artifact.Basic

/-!
# What a part of a file records

A part of a file records entities, each with its calls, and calls that belong to none of them: the
calls of a class itself, or those of the module.

Formalises what the `push_entity` and `push_call` of a walker leave behind.

* `Recording`: calls and entities.
* `Recording.append`: those of two parts, one after the other.
-/

set_option autoImplicit false

namespace SourceGraph

/-- Calls outside of entities, and entities. -/
structure Recording where
  calls : List CallSite := []
  entities : List Entity := []

/-- The calls and entities of two parts, one after the other. -/
def Recording.append (r s : Recording) : Recording where
  calls := r.calls ++ s.calls
  entities := r.entities ++ s.entities

end SourceGraph
