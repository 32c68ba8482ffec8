import SourceGraph.Path

/-!
# Batches of changes

Events for single files are gathered until none has come for a quiet period. A batch then holds
each path once, by what happened to it last. Paths are compared by their components.

Formalises `ChangeBatcher` with its `push_at`, `is_ready`, `time_until_ready`, `take` and
`flush_if_ready`, and the `FileEvent` and `ChangeBatch` that it takes in and gives out.

* `FileEvent`: what happened to a file.
* `Batch`: the changed and the deleted paths, sorted.
* `Batcher.push`, `Batcher.isReady`, `Batcher.take`, `Batcher.flush`: gathering events and giving
  them out. Times are in milliseconds.
-/

set_option autoImplicit false

namespace SourceGraph

/-- What happened to a file. -/
inductive FileEvent where
  /-- A file appeared. -/
  | created (path : Path)
  /-- A known file was written. -/
  | modified (path : Path)
  /-- A file is gone. -/
  | deleted (path : Path)
deriving DecidableEq, Inhabited

namespace FileEvent

/-- The path of an event. -/
def path : FileEvent → Path
  | created p | modified p | deleted p => p

/-- Whether the file is gone. -/
def isDeletion : FileEvent → Bool
  | deleted _ => true
  | _ => false

end FileEvent

/-- Changes that are given out together. -/
structure Batch where
  modified : List Path := []
  deleted : List Path := []
deriving DecidableEq, Inhabited

namespace Batch

/-- The number of paths. -/
def size (b : Batch) : Nat := b.modified.length + b.deleted.length

/-- Whether there are no paths. -/
def isEmpty (b : Batch) : Bool := b.modified.isEmpty && b.deleted.isEmpty

end Batch

/-- Events that wait for a quiet period. -/
structure Batcher where
  /-- The length of the quiet period. -/
  quiet : Nat
  /-- The changed paths in order, and whether the last event of each was a deletion. -/
  changes : List (Path × Bool) := []
  /-- The time of the last event. -/
  lastEvent : Option Nat := none
deriving DecidableEq, Inhabited

namespace Batcher

/-- Changes with one more event; a path that is there already keeps its spelling. -/
def record (p : Path) (isDeletion : Bool) : List (Path × Bool) → List (Path × Bool)
  | [] => [(p, isDeletion)]
  | (q, d) :: rest =>
    match p.order q with
    | .lt => (p, isDeletion) :: (q, d) :: rest
    | .eq => (q, isDeletion) :: rest
    | .gt => (q, d) :: record p isDeletion rest

/-- The state after an event at time `now`. -/
def push (b : Batcher) (e : FileEvent) (now : Nat) : Batcher :=
  { b with changes := record e.path e.isDeletion b.changes, lastEvent := some now }

/-- Whether no changes wait. -/
def isEmpty (b : Batcher) : Bool := b.changes.isEmpty

/-- The number of paths that wait. -/
def size (b : Batcher) : Nat := b.changes.length

/-- Whether changes wait and the quiet period is over. -/
def isReady (b : Batcher) (now : Nat) : Bool :=
  match b.lastEvent with
  | some last => !b.isEmpty && b.quiet ≤ now - last
  | none => false

/-- The time until the changes that wait are ready. -/
def timeUntilReady (b : Batcher) (now : Nat) : Option Nat :=
  match b.lastEvent with
  | some last => if b.isEmpty then none else some (b.quiet - (now - last))
  | none => none

/-- The changes that wait, as a batch. -/
def batch (b : Batcher) : Batch where
  modified := (b.changes.filter (!·.2)).map (·.1)
  deleted := (b.changes.filter (·.2)).map (·.1)

/-- The changes that wait, and the state without them. -/
def take (b : Batcher) : Batch × Batcher := (b.batch, { quiet := b.quiet })

/-- The changes that wait if they are ready, and the state after that. -/
def flush (b : Batcher) (now : Nat) : Option Batch × Batcher :=
  if b.isReady now then (some b.batch, { quiet := b.quiet }) else (none, b)

end Batcher

end SourceGraph
