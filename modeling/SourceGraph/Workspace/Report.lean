import SourceGraph.Graph.Fragment

/-!
# Reports

What one cycle of work on a workspace did.

Formalises `SyncReport` with its `merge` and `is_noop`.

* `Report`: the counts.
* `Report.merge`: the counts of two cycles together.
* `Report.isNoop`: whether the cycle changed nothing.
-/

set_option autoImplicit false

namespace SourceGraph

/-- The counts of one cycle. -/
structure Report where
  /-- Files described and put into the graphs. -/
  indexed : Nat := 0
  /-- Files without a description. -/
  skipped : Nat := 0
  /-- Files whose description failed. -/
  failed : Nat := 0
  /-- Files that are not tracked any more. -/
  removed : Nat := 0
  /-- Nodes added to both graphs. -/
  nodes : Nat := 0
  /-- Edges added to both graphs. -/
  edges : Nat := 0
  /-- Unresolved calls recorded. -/
  unresolved : Nat := 0
deriving DecidableEq, Inhabited

namespace Report

/-- The counts of two cycles together. -/
def merge (r s : Report) : Report where
  indexed := r.indexed + s.indexed
  skipped := r.skipped + s.skipped
  failed := r.failed + s.failed
  removed := r.removed + s.removed
  nodes := r.nodes + s.nodes
  edges := r.edges + s.edges
  unresolved := r.unresolved + s.unresolved

/-- The counts of a fragment that was put into the graphs. -/
def ofFragment (f : Fragment) : Report where
  indexed := 1
  nodes := f.nodes.length
  edges := f.importEdges.length + f.callEdges.length
  unresolved := f.unresolved.length

/-- Whether no file was indexed or removed. -/
def isNoop (r : Report) : Bool := r.indexed == 0 && r.removed == 0

end Report

end SourceGraph
