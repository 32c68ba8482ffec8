import SourceGraph.Proofs.Disk
import SourceGraph.Proofs.Slice
import SourceGraph.Proofs.Tracker
import SourceGraph.Workspace.Basic

/-!
# Runs of a workspace

A run is a sequence of operations on a workspace and of changes to the disk. Beside the workspace it
carries the fragments that the graphs should be made of: for each file the fragment of its last
description.

* `Latest`: the last fragments.
* `Operation`, `Operation.latest`: the operations, and what they do to the last fragments.
* `Run`: the states that operations and changes to the disk lead to.
* `Latest.getElem?_indexAll_of_mem`, `Latest.getElem?_outside`: the last fragments after an
  operation, file by file.
-/

set_option autoImplicit false

namespace SourceGraph

/-- For each file the fragment of its last description. -/
abbrev Latest := Std.ExtTreeMap String Fragment

/-- The id and the fragment of a file, if it can be described. -/
def Workspace.described? (k : Toolkit) (d : Disk) (w : Workspace) (p : Path) :
    Option (String × Fragment) :=
  match FileId.ofPath? w.root p, w.describe k d p with
  | some file, .ok (some a) => some (file, a.fragment file)
  | _, _ => none

namespace Latest

/-- What a file has in one of the two graphs. -/
def slice (last : Latest) (kind : StoreKind) (file : String) : Slice :=
  (last[file]?.map (·.slice kind)).getD {}

/-- The fragments after an attempt to describe a file. -/
def index (k : Toolkit) (d : Disk) (w : Workspace) (last : Latest) (p : Path) : Latest :=
  (w.described? k d p).elim last fun e => last.insert e.1 e.2

/-- The fragments after attempts to describe some files. -/
def indexAll (k : Toolkit) (d : Disk) (w : Workspace) (last : Latest) (ps : List Path) : Latest :=
  ps.foldl (index k d w) last

/-- The fragments of the files below a root whose path is not in a scope. -/
def outside (root : Path) (scope : Path → Bool) (last : Latest) : Latest :=
  last.filter fun file _ => !scope (root.join ⟨file⟩)

/-- The fragments after some changed files; the report of each tells whether it was described. -/
def modify (k : Toolkit) : List Path → Workspace → Disk → Latest → Latest
  | [], _, _, last => last
  | p :: ps, w, d, last =>
    match w.applyModified k p d with
    | (w, d, .ok r) => modify k ps w d (if r.indexed = 0 then last else last.index k d w p)
    | (_, _, .error _) => last

end Latest

/-- An operation on a workspace. -/
inductive Operation where
  | addFile (p : Path)
  | addFolder (folder : Path)
  | removeFile (p : Path)
  | removeFolder (folder : Path)
  | sync
  | apply (modified deleted : List Path)
  | reindex

namespace Operation

/-- The paths that an operation is given. -/
def paths : Operation → List Path
  | addFile p | addFolder p | removeFile p | removeFolder p => [p]
  | apply modified deleted => modified ++ deleted
  | sync | reindex => []

/-- What the operation does. -/
def run (k : Toolkit) : Operation → Workspace → Disk → Workspace.Outcome Report
  | addFile p => Workspace.addFile k p
  | addFolder folder => Workspace.addFolder k folder
  | removeFile p => Workspace.removeFile k p
  | removeFolder folder => Workspace.removeFolder k folder
  | sync => Workspace.sync k
  | apply modified deleted => Workspace.apply k modified deleted
  | reindex => Workspace.reindex k

/--
The last fragments after an operation. A description replaces the fragment of its file, a removal
takes the fragments of the files that it covers, and a new start takes all of them.
-/
def latest (k : Toolkit) (op : Operation) (w : Workspace) (d : Disk) (last : Latest) : Latest :=
  match op with
  | addFile p =>
    match w.supports p, w.tracker.addFile k p d with
    | true, (t, d, .ok _) => if t.isTracked p then last.index k d w p else last
    | _, _ => last
  | addFolder folder =>
    match w.tracker.addFolder k folder d with
    | (_, d, .ok added) => last.indexAll k d w added
    | (_, _, .error _) => last
  | removeFile p => last.outside w.root (·.same p)
  | removeFolder folder => last.outside w.root (·.isBelow folder)
  | sync =>
    match w.tracker.changedFiles k d with
    | (_, d, .ok changed) => last.indexAll k d w changed
    | (_, _, .error _) => last
  | apply modified deleted =>
    let rest := last.outside w.root fun q => deleted.any q.same
    match Workspace.forEach (Workspace.applyDeleted k) deleted w d with
    | (w, d, .ok _) => rest.modify k modified w d
    | (_, _, .error _) => rest
  | reindex => Latest.indexAll k d w ∅ w.tracker.files

variable {k : Toolkit} {w w' : Workspace} {d d' : Disk} {t : Tracker}

theorem latest_addFile_unsupported {p : Path} (h : w.supports p = false) (last : Latest) :
    (addFile p).latest k w d last = last := by
  unfold latest
  simp only [h]

theorem latest_addFile {p : Path} {b : Bool} (hs : w.supports p = true)
    (h : w.tracker.addFile k p d = (t, d', .ok b)) (last : Latest) :
    (addFile p).latest k w d last =
      if t.isTracked p then last.index k d' w p else last := by
  unfold latest
  simp only [hs, h]

theorem latest_addFolder {folder : Path} {added : List Path}
    (h : w.tracker.addFolder k folder d = (t, d', .ok added)) (last : Latest) :
    (addFolder folder).latest k w d last = last.indexAll k d' w added := by
  unfold latest
  simp only [h]

theorem latest_sync {changed : List Path}
    (h : w.tracker.changedFiles k d = (t, d', .ok changed)) (last : Latest) :
    sync.latest k w d last = last.indexAll k d' w changed := by
  unfold latest
  simp only [h]

theorem latest_apply {modified deleted : List Path} {r : Report}
    (h : Workspace.forEach (Workspace.applyDeleted k) deleted w d = (w', d', .ok r))
    (last : Latest) :
    (apply modified deleted).latest k w d last =
      (last.outside w.root fun q => deleted.any q.same).modify k modified w' d' := by
  unfold latest
  simp only [h]

end Operation

/-- A state of a run. -/
structure Moment where
  workspace : Workspace
  disk : Disk
  latest : Latest := ∅

/-- The operation is given clean paths below the root, and all names there are plain. -/
structure Operation.IsClean (op : Operation) (m : Moment) : Prop where
  paths : ∀ p ∈ op.paths, Path.IsUnder m.workspace.root p
  disk : m.disk.PlainBelow m.workspace.root

/--
The states that are reached from a start by operations that succeed and by changes to the disk. Each
operation is one that is allowed in the state, and has a time of its own.
-/
inductive Run (k : Toolkit) (allowed : Operation → Moment → Prop) (start : Moment) : Moment → Prop
  | start : Run k allowed start start
  | edit {m : Moment} (h : Run k allowed start m) (d : Disk) :
      Run k allowed start { m with disk := d }
  | step {m : Moment} (h : Run k allowed start m) (op : Operation) (now : Timestamp)
      {w : Workspace} {d : Disk} {r : Report} (hallowed : allowed op m)
      (hok : op.run { k with now } m.workspace m.disk = (w, d, .ok r)) :
      Run k allowed start ⟨w, d, op.latest { k with now } m.workspace m.disk m.latest⟩

theorem Operation.run_of_isOk {k : Toolkit} {op : Operation} {w : Workspace} {d : Disk}
    (h : (op.run k w d).2.2.isOk = true) :
    ∃ r, op.run k w d = ((op.run k w d).1, (op.run k w d).2.1, .ok r) := by
  cases hres : (op.run k w d).2.2 with
  | ok r => exact ⟨r, Prod.ext rfl (Prod.ext rfl hres)⟩
  | error f => simp [hres, Except.isOk, Except.toBool] at h

theorem Run.next {k : Toolkit} {allowed : Operation → Moment → Prop} {start m : Moment}
    (h : Run k allowed start m) (op : Operation) (hallowed : allowed op m)
    (hok : (op.run k m.workspace m.disk).2.2.isOk = true) :
    Run k allowed start
      ⟨(op.run k m.workspace m.disk).1, (op.run k m.workspace m.disk).2.1,
        op.latest k m.workspace m.disk m.latest⟩ := by
  obtain ⟨r, hr⟩ := Operation.run_of_isOk hok
  exact h.step op k.now hallowed hr

namespace Workspace

variable {k : Toolkit} {d d' : Disk} {w w' : Workspace} {p : Path} {last : Latest}

/-! ## Descriptions -/

theorem described?_eq_some {file : String} {f : Fragment} :
    w.described? k d p = some (file, f) ↔
      FileId.ofPath? w.root p = some file ∧
        ∃ a, w.describe k d p = .ok (some a) ∧ f = a.fragment file := by
  unfold described?
  split
  · rename_i id a hid ha
    simp only [Option.some.injEq, Prod.mk.injEq, hid, ha, Except.ok.injEq]
    constructor
    · rintro ⟨rfl, rfl⟩
      exact ⟨rfl, a, rfl, rfl⟩
    · rintro ⟨rfl, b, rfl, rfl⟩
      exact ⟨rfl, rfl⟩
  · rename_i hnot
    constructor
    · rintro h
      cases h
    · rintro ⟨hid, a, ha, _⟩
      exact absurd ha (hnot _ _ hid)

theorem index_fst (k : Toolkit) (d : Disk) (w : Workspace) (p : Path) :
    (w.index k d p).1 = (w.described? k d p).elim w fun e => w.putFragment e.1 e.2 := by
  unfold index described?
  cases FileId.ofPath? w.root p with
  | none => rfl
  | some file =>
    cases w.describe k d p with
    | ok o => cases o <;> rfl
    | error f => cases f <;> rfl

/-- Only files with the extension of a language of the workspace are described. -/
theorem supports_of_describe {a : Artifact} (h : w.describe k d p = .ok (some a)) :
    (Language.among? w.languages p).isSome = true := by
  cases hl : Language.among? w.languages p with
  | none => simp [describe, extract, identify, hl, bind, Except.bind] at h
  | some l => rfl

/-- A file below the root owns its fragment. -/
theorem isOwned_of_described? (hp : Path.IsUnder w.root p) {file : String} {f : Fragment}
    (h : w.described? k d p = some (file, f)) (kind : StoreKind) :
    (f.slice kind).IsOwned file := by
  obtain ⟨hid, a, ha, rfl⟩ := described?_eq_some.mp h
  obtain ⟨names, hnames, hne, hfile⟩ := hp.names hid
  have howner : FileId.IsOwner file := by
    rw [hfile]
    exact hnames.isOwner hne (supports_of_describe ha)
  exact a.isOwned_slice howner kind

theorem putFragment_eq (w : Workspace) (file : String) (f : Fragment) :
    w.putFragment file f =
      { w with
        imports := (w.imports.removeFile file).put (f.slice .import)
        calls := (w.calls.removeFile file).put (f.slice .call) } := by
  simp [putFragment, dropFile, Store.put, Fragment.slice, Store.addUnresolved]

theorem indexAll_singleton (k : Toolkit) (d : Disk) (w : Workspace) (p : Path) :
    (w.indexAll k d [p]).1 = (w.index k d p).1 := rfl

/-- The description of files touches nothing but what the graphs hold. -/
theorem indexAll_fst (k : Toolkit) (d : Disk) (w : Workspace) (ps : List Path) :
    ∃ imports calls, imports.path = w.imports.path ∧ calls.path = w.calls.path ∧
      (w.indexAll k d ps).1 = { w with imports, calls } := by
  induction ps generalizing w with
  | nil => exact ⟨_, _, rfl, rfl, rfl⟩
  | cons p ps ih =>
    have hcons : (w.indexAll k d (p :: ps)).1 = ((w.index k d p).1.indexAll k d ps).1 := rfl
    obtain ⟨imports, calls, himports, hcalls, h⟩ := ih (w.index k d p).1
    rw [index_fst] at himports hcalls h
    rw [hcons, index_fst, h]
    cases hdesc : w.described? k d p with
    | none =>
      rw [hdesc] at himports hcalls
      exact ⟨imports, calls, himports, hcalls, rfl⟩
    | some e =>
      rw [hdesc, Option.elim_some, putFragment_eq] at himports hcalls
      refine ⟨imports, calls, himports.trans ?_, hcalls.trans ?_, ?_⟩
      · exact Store.put_path _ _
      · exact Store.put_path _ _
      · rw [Option.elim_some, putFragment_eq]

end Workspace

namespace Latest

variable {k : Toolkit} {d : Disk} {w : Workspace} {last : Latest} {ps : List Path} {file : String}

theorem slice_insert (last : Latest) (file : String) (f : Fragment) (kind : StoreKind) :
    slice (last.insert file f) kind = Function.update (last.slice kind) file (f.slice kind) := by
  funext other
  by_cases hother : other = file
  · simp [slice, hother]
  · simp [slice, Std.ExtTreeMap.getElem?_insert, Function.update_of_ne hother, Ne.symm hother]

theorem getElem?_outside (root : Path) (scope : Path → Bool) (last : Latest) (file : String) :
    (last.outside root scope)[file]? =
      if scope (root.join ⟨file⟩) then none else last[file]? := by
  simp only [outside, Std.ExtTreeMap.getElem?_filter']
  cases last[file]? with
  | none => simp
  | some f => cases scope (root.join ⟨file⟩) <;> simp [Option.filter]

theorem outside_none (root : Path) (last : Latest) : last.outside root (fun _ => false) = last := by
  apply Std.ExtTreeMap.ext_getElem?
  intro file
  simp [getElem?_outside]

theorem outside_outside (root : Path) (scope scope' : Path → Bool) (last : Latest) :
    (last.outside root scope).outside root scope' =
      last.outside root fun q => scope q || scope' q := by
  apply Std.ExtTreeMap.ext_getElem?
  intro file
  simp only [getElem?_outside, Bool.or_eq_true]
  by_cases h : scope (root.join ⟨file⟩) = true
  · simp [h]
  · simp [h]

theorem mem_outside {root : Path} {scope : Path → Bool} :
    file ∈ last.outside root scope ↔ scope (root.join ⟨file⟩) = false ∧ file ∈ last := by
  rw [← Std.ExtTreeMap.isSome_getElem?_iff_mem, ← Std.ExtTreeMap.isSome_getElem?_iff_mem,
    getElem?_outside]
  cases scope (root.join ⟨file⟩) <;> simp

/-- Files that are not described keep their fragments. -/
theorem getElem?_indexAll_of_not_mem
    (h : ∀ p ∈ ps, ∀ f, w.described? k d p ≠ some (file, f)) :
    (last.indexAll k d w ps)[file]? = last[file]? := by
  induction ps generalizing last with
  | nil => rfl
  | cons p ps ih =>
    have hcons : last.indexAll k d w (p :: ps) = (last.index k d w p).indexAll k d w ps := rfl
    rw [hcons, ih fun q hq => h q (List.mem_cons_of_mem _ hq), index]
    cases he : w.described? k d p with
    | none => rfl
    | some e =>
      have hne : e.1 ≠ file := fun hfile => h p List.mem_cons_self e.2 (by rw [he, ← hfile])
      simp [Std.ExtTreeMap.getElem?_insert, hne]

/-- A file that is described has the fragment of that description. -/
theorem getElem?_indexAll_of_mem {p : Path} {f : Fragment} (hp : p ∈ ps)
    (hf : w.described? k d p = some (file, f))
    (hunique : ∀ q ∈ ps, FileId.ofPath? w.root q = some file → q = p) :
    (last.indexAll k d w ps)[file]? = some f := by
  induction ps generalizing last with
  | nil => exact absurd hp List.not_mem_nil
  | cons q ps ih =>
    have hcons : last.indexAll k d w (q :: ps) = (last.index k d w q).indexAll k d w ps := rfl
    rw [hcons]
    by_cases hrest : p ∈ ps
    · exact ih hrest fun r hr => hunique r (List.mem_cons_of_mem _ hr)
    · obtain rfl : p = q := (List.mem_cons.mp hp).resolve_right hrest
      rw [getElem?_indexAll_of_not_mem, index, hf]
      · simp
      · intro r hr g hg
        have hrp := hunique r (List.mem_cons_of_mem _ hr) (Workspace.described?_eq_some.mp hg).1
        exact hrest (hrp ▸ hr)

end Latest

end SourceGraph
