import SourceGraph.Extract.Basic
import SourceGraph.Timestamp

/-!
# What operations are given

Operations on stores, trackers and workspaces depend on the world outside only through a toolkit:
the grammars, the digest of file contents, and the time of the operation.
-/

set_option autoImplicit false

namespace SourceGraph

/-- Grammars, digests and the time. -/
structure Toolkit where
  grammars : Grammars
  /-- The digest by which contents of files are compared. -/
  digest : ByteArray → String
  now : Timestamp

end SourceGraph
