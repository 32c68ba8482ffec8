import Mathlib.Data.List.Forall2
import SourceGraph.Proofs.TidyPath
import SourceGraph.Proofs.Traces

/-!
# Runs under other spellings

The states of a run depend on the spellings of its paths only as far as their keys do. In runs on
tidy spellings keys and components agree, so no file is tracked twice, and a removal goes by
components. In general the tracker goes by keys and the graphs by components.

* `Operation.Respells`: an operation with other spellings of its paths that keep their keys.
* `Workspace.trace_respelled`, `Workspace.tidy_trace`: the states of such runs, and of tidy ones.
* `Operation.Renames`: an operation on a path with the same components.
* `Workspace.trace_renamed`: the graphs in the states of such runs.
* `Workspace.independent_of_outer_spelling`: what does not depend on spellings.
-/

set_option autoImplicit false

namespace SourceGraph

/-! ## Spellings with the same keys -/

namespace Operation

open Workspace

variable {k : Toolkit} {d : Disk} {w : Workspace}

/-- An operation with alike spellings of its paths. What is read ends in the same way. -/
inductive Respells (root : Path) (d : Disk) : Operation → Operation → Prop
  | addFile {p q : Path} (h : (root.absolutize p).ReadAlike (root.absolutize q)) :
      Respells root d (.addFile p) (.addFile q)
  | addFolder {p q : Path} (h : (root.absolutize p).OpenAlike d (root.absolutize q)) :
      Respells root d (.addFolder p) (.addFolder q)
  | removeFile {p q : Path} (h : (root.absolutize p).Alike (root.absolutize q)) :
      Respells root d (.removeFile p) (.removeFile q)
  | removeFolder {p q : Path} (h : (root.absolutize p).Alike (root.absolutize q)) :
      Respells root d (.removeFolder p) (.removeFolder q)
  | apply {modified modified' deleted deleted' : List Path}
      (hmodified : List.Forall₂ (fun p q => (root.absolutize p).ReadAlike (root.absolutize q))
        modified modified')
      (hdeleted : List.Forall₂ (fun p q => (root.absolutize p).Alike (root.absolutize q))
        deleted deleted') :
      Respells root d (.apply modified deleted) (.apply modified' deleted')
  | sync : Respells root d .sync .sync
  | reindex : Respells root d .reindex .reindex

theorem forEach_congr {op : Path → Workspace → Disk → Outcome Report} {R : Path → Path → Prop}
    {root : Path} {ps qs : List Path}
    (hop : ∀ {p q}, R p q → ∀ {v : Workspace} {d}, v.root = root → op p v d = op q v d)
    (hkeep : ∀ (p) (v : Workspace) (d), (op p v d).1.root = v.root) (h : List.Forall₂ R ps qs)
    (hroot : w.root = root) : forEach op ps w d = forEach op qs w d := by
  induction h generalizing w d with
  | nil => rfl
  | @cons p q ps qs hfirst _ ih =>
    have hv := hkeep q w d
    rw [forEach, forEach, hop hfirst hroot]
    generalize op q w d = o at hv
    obtain ⟨v, d', result⟩ := o
    cases result with
    | error f => rfl
    | ok r =>
      dsimp only
      rw [ih (hv.trans hroot)]

theorem run_respelled {o o' : Operation} (h : Respells w.root d o o') :
    o.run k w d = o'.run k w d := by
  cases h with
  | addFile h => exact addFile_congr h
  | addFolder h => exact addFolder_congr h
  | removeFile h => exact removeFile_congr h
  | removeFolder h => exact removeFolder_congr h
  | @apply modified modified' deleted deleted' hmodified hdeleted =>
    have hfirst : forEach (applyDeleted k) deleted w d = forEach (applyDeleted k) deleted' w d := by
      refine forEach_congr (fun hpq v e hv => applyDeleted_congr ?_)
        (fun p v e => frame_applyDeleted.root) hdeleted rfl
      rwa [absolute, absolute, hv]
    have hgains : w.Gains (forEach (applyDeleted k) deleted' w d).1 fun _ => True :=
      gains_forEach fun p _ v e _ _ => .of_tracker frame_applyDeleted Tracker.revises_removeFile
        fun _ _ => Or.inr trivial
    have hkeep := hgains.root
    rw [run, run, Workspace.apply, Workspace.apply, hfirst]
    generalize forEach (applyDeleted k) deleted' w d = o at hkeep
    obtain ⟨v, d', result⟩ := o
    cases result with
    | error f => rfl
    | ok r =>
      have hrest : forEach (applyModified k) modified v d' =
          forEach (applyModified k) modified' v d' := by
        refine forEach_congr (fun hpq u e hu => applyModified_congr ?_) (fun p u e => ?_)
          hmodified hkeep
        · rwa [absolute, absolute, hu]
        · obtain ⟨t, hframe, -⟩ := frame_applyModified (k := k) (d := e) (w := u) (p := p)
          exact hframe.root
      dsimp only
      rw [hrest]
  | sync => rfl
  | reindex => rfl

end Operation

theorem Workspace.trace_respelled {k : Toolkit} {w : Workspace}
    {steps steps' : List (Disk × Operation)} {root : Path} (hroot : w.root = root)
    (h : List.Forall₂ (fun s s' => s.1 = s'.1 ∧ s.2.Respells root s.1 s'.2) steps steps') :
    w.trace k steps = w.trace k steps' := by
  induction h generalizing w with
  | nil => rfl
  | @cons s s' steps steps' hfirst _ ih =>
    obtain ⟨d, o⟩ := s
    obtain ⟨d', o'⟩ := s'
    obtain ⟨rfl, hop⟩ : d = d' ∧ o.Respells root d o' := hfirst
    rw [trace, trace, Operation.run_respelled (hroot ▸ hop),
      ih ((Operation.root_run o').trans hroot)]

/-! ## Runs on tidy spellings -/

/--
The paths of the files that an operation may track are tidy, and so are the names on the disk where
a folder is expanded.
-/
def Operation.IsTidy (root : Path) (d : Disk) : Operation → Prop
  | addFile p => (root.absolutize p).IsTidy
  | addFolder folder => d.top.AllNames Path.IsSegment ∧ ∃ names, (∀ n ∈ names, Path.IsSegment n) ∧
      (root.absolutize folder = Disk.absolute names ∨
        names ≠ [] ∧ root.absolutize folder = (Disk.absolute names).slashed 1)
  | apply modified _ => ∀ p ∈ modified, (root.absolutize p).IsTidy
  | removeFile _ | removeFolder _ | sync | reindex => True

theorem Operation.tidy_run {k : Toolkit} {d : Disk} {w : Workspace} {o : Operation}
    (hw : w.tracker.IsTidy) (h : o.IsTidy w.root d) : (o.run k w d).1.tracker.IsTidy := by
  have hkey : ∀ {p : Path}, p.IsTidy →
      ∃ names, (∀ n ∈ names, Path.IsSegment n) ∧ p.normalized = (Disk.absolute names).text := by
    intro p hp
    obtain ⟨names, hnames, -, hkey⟩ := hp.segments
    exact ⟨names, hnames, hkey⟩
  have hadds : o.Adds w.root d fun key => ∃ names, (∀ n ∈ names, Path.IsSegment n) ∧
      key = (Disk.absolute names).text := by
    cases o with
    | addFile p => exact hkey h
    | addFolder folder =>
      obtain ⟨hd, names, hnames, hfolder⟩ := h
      exact fun extensions f hf =>
        hkey (Disk.tidy_of_mem_enumerate extensions hd hnames hfolder hf)
    | apply modified deleted => exact fun p hp => hkey (h p hp)
    | removeFile p => trivial
    | removeFolder folder => trivial
    | sync => trivial
    | reindex => trivial
  intro key hmem
  exact ((gains_run hadds).watched key hmem).elim (hw key) id

/-- In every state of a run on tidy spellings the tracked files are tidy. -/
theorem Workspace.tidy_trace {k : Toolkit} {w : Workspace} {root : Path}
    {steps : List (Disk × Operation)} (hroot : w.root = root) (hw : w.tracker.IsTidy)
    (h : ∀ s ∈ steps, s.2.IsTidy root s.1) :
    ∀ s ∈ w.trace k steps, s.1.root = root ∧ s.1.tracker.IsTidy := by
  induction steps generalizing w with
  | nil => simp [trace]
  | cons s steps ih =>
    obtain ⟨hfirst, hrest⟩ := List.forall_mem_cons.mp h
    have hv := Operation.tidy_run (k := k) hw (hroot ▸ hfirst)
    have hvroot := (Operation.root_run (k := k) (d := s.1) (w := w) s.2).trans hroot
    rw [trace]
    exact List.forall_mem_cons.mpr ⟨⟨hvroot, hv⟩, ih hvroot hv hrest⟩

/-! ## Removals -/

namespace Workspace

variable {k : Toolkit} {d : Disk} {w : Workspace} {p q folder f : Path}

theorem mem_files_removeFile : f ∈ (w.removeFile k p d).1.tracker.files ↔
    f ∈ w.tracker.files ∧ f.text ≠ (w.absolute p).normalized := by
  rw [frame_removeFile.tracker, Tracker.mem_files, Tracker.mem_watched_removeFile,
    ← Tracker.mem_files]

theorem mem_files_removeFolder : f ∈ (w.removeFolder k folder d).1.tracker.files ↔
    f ∈ w.tracker.files ∧ FileId.isWithin f.text (w.absolute folder).normalized = false := by
  rw [frame_removeFolder.tracker, Tracker.mem_files, Tracker.mem_watched_removeFolder,
    ← Tracker.mem_files]

/-- Files are tracked once, and what a removal untracks goes by components. -/
structure GoesByComponents (k : Toolkit) (w : Workspace) : Prop where
  unique : ∀ f ∈ w.tracker.files, ∀ g ∈ w.tracker.files, f.same g = true → f = g
  removeFile : ∀ (d : Disk) (p : Path), (w.absolute p).IsTidy → ∀ f,
    f ∈ (w.removeFile k p d).1.tracker.files ↔
      f ∈ w.tracker.files ∧ f.same (w.absolute p) = false
  removeFolder : ∀ (d : Disk) (folder : Path), (w.absolute folder).IsTidy → ∀ f,
    f ∈ (w.removeFolder k folder d).1.tracker.files ↔
      f ∈ w.tracker.files ∧ f.isBelow (w.absolute folder) = false

theorem goesByComponents (h : w.tracker.IsTidy) : w.GoesByComponents k where
  unique _ hf _ hg := h.eq_of_same hf hg
  removeFile d p hp f := by
    rw [mem_files_removeFile, ← Bool.not_eq_true]
    exact and_congr_right fun hf => not_congr (h.eq_key_iff hf hp)
  removeFolder d folder hfolder f := by
    rw [mem_files_removeFolder, ← Bool.not_eq_true, ← Bool.not_eq_true]
    exact and_congr_right fun hf => not_congr (h.isWithin_key_iff hf hfolder)

end Workspace

/-! ## Graphs in memory -/

namespace Workspace

variable {k : Toolkit} {d : Disk} {w : Workspace} {p q folder f : Path}

theorem index_withTracker (w : Workspace) (t : Tracker) :
    (index k d { w with tracker := t } p).1 = { (w.index k d p).1 with tracker := t } := by
  rw [index_fst, index_fst]
  change (w.described? k d p).elim _ _ = _
  cases w.described? k d p <;> rfl

theorem index_of_not_described (h : w.described? k d p = none) : (w.index k d p).1 = w := by
  rw [index_fst, h]
  rfl

/-- In memory an addition draws the file anew. All else is a matter of the tracker. -/
theorem addFile_in_memory (h : w.IsInMemory) (k : Toolkit) (p : Path) (d : Disk) :
    ∃ t : Tracker, t.path = none ∧
      (w.addFile k p d).1 = { (w.index k d (w.absolute p)).1 with tracker := t } ∧
      ∀ key, key ∈ t.watched ↔ key ∈ w.tracker.watched ∨ w.supports (w.absolute p) = true ∧
        (d.read (w.absolute p)).toOption.isSome = true ∧ key = (w.absolute p).normalized := by
  have hneeds : ∀ e, w.described? k d (w.absolute p) = some e →
      w.supports (w.absolute p) = true ∧
        (d.read (w.absolute p)).toOption.isSome = true := by
    intro e he
    obtain ⟨_, a, ha, _⟩ := described?_eq_some.mp he
    obtain ⟨content, hread⟩ := read_of_described? he
    exact ⟨supports_of_describe ha, by rw [hread]; rfl⟩
  have hnone : ¬ (w.supports (w.absolute p) = true ∧
      (d.read (w.absolute p)).toOption.isSome = true) →
      w.described? k d (w.absolute p) = none := by
    intro hnot
    rw [← Option.not_isSome_iff_eq_none, Option.isSome_iff_exists]
    exact fun ⟨e, he⟩ => hnot (hneeds e he)
  rw [addFile]
  dsimp only
  split
  · rename_i hsupports
    have hnot : w.supports (w.absolute p) ≠ true := by simpa using hsupports
    refine ⟨w.tracker, h.tracker, ?_, fun key => ?_⟩
    · rw [index_of_not_described (hnone fun hboth => hnot hboth.1)]
    · simp [hnot]
  · rename_i hsupports
    have hyes : w.supports (w.absolute p) = true := by simpa using hsupports
    have hwatched := Tracker.mem_watched_track? k.digest d w.tracker (w.absolute p)
    have hpath : ((Tracker.track? k.digest d w.tracker (w.absolute p)).getD w.tracker).path =
        w.tracker.path := by
      cases htrack : Tracker.track? k.digest d w.tracker (w.absolute p) with
      | none => rfl
      | some t => exact (Tracker.revises_track? htrack).path
    rw [Tracker.addFile_of_no_path h.tracker]
    generalize (Tracker.track? k.digest d w.tracker (w.absolute p)).getD w.tracker = t at *
    have hmemory : (index k d { w with tracker := t } (w.absolute p)).1.IsInMemory :=
      h.frame hpath (frame_index _ _ _ _)
    refine ⟨t, hpath.trans h.tracker, ?_, fun key => by simp [hwatched, hyes]⟩
    dsimp only [withTracker]
    split
    · rw [saved_of_isInMemory hmemory]
      exact index_withTracker w t
    · rename_i huntracked
      have hunread : ¬ (d.read (w.absolute p)).toOption.isSome = true := by
        intro hread
        exact huntracked (Tracker.isTracked_iff.mpr ((hwatched _).mpr (Or.inr ⟨hread, rfl⟩)))
      rw [index_of_not_described (hnone fun hboth => hunread hboth.2)]

/-- In memory a removal drops the slice of the file. All else is a matter of the tracker. -/
theorem removeFile_in_memory (h : w.IsInMemory) (k : Toolkit) (p : Path) (d : Disk) :
    ∃ t : Tracker, t.path = none ∧ (w.removeFile k p d).1 =
      { (FileId.ofPath? w.root (w.absolute p)).elim w w.dropFile with tracker := t } := by
  obtain ⟨t, b, hremove, hpath⟩ := Tracker.removeFile_of_no_path h.tracker k (w.absolute p) d
  have hmemory : ((FileId.ofPath? w.root (w.absolute p)).elim { w with tracker := t }
      (dropFile { w with tracker := t })).IsInMemory :=
    h.frame hpath (frame_dropFile _ _)
  simp only [removeFile, hremove, withTracker, saved_of_isInMemory hmemory]
  refine ⟨t, hpath.trans h.tracker, ?_⟩
  cases FileId.ofPath? w.root (w.absolute p) <;> rfl

theorem dropBelow_withTracker (w : Workspace) (t : Tracker) :
    dropBelow { w with tracker := t } folder = { w.dropBelow folder with tracker := t } := by
  unfold dropBelow
  split
  · rfl
  · cases FileId.ofPath? w.root folder <;> rfl

theorem removeFolder_in_memory (h : w.IsInMemory) (k : Toolkit) (folder : Path) (d : Disk) :
    ∃ t : Tracker, t.path = none ∧
      (w.removeFolder k folder d).1 = { w.dropBelow (w.absolute folder) with tracker := t } := by
  obtain ⟨t, removed, hremove, hpath⟩ :=
    Tracker.removeFolder_of_no_path h.tracker k (w.absolute folder) d
  have hmemory : (dropBelow { w with tracker := t } (w.absolute folder)).IsInMemory :=
    h.frame hpath (frame_dropBelow _ _)
  simp only [removeFolder, hremove, withTracker, saved_of_isInMemory hmemory]
  exact ⟨t, hpath.trans h.tracker, dropBelow_withTracker w t⟩

/-- Workspaces in memory that differ in their trackers at most. -/
structure SameGraphs (w v : Workspace) : Prop where
  left : w.IsInMemory
  right : v.IsInMemory
  eq : v = { w with tracker := v.tracker }

end Workspace

namespace Operation

open Workspace

variable {k : Toolkit} {d : Disk} {w v : Workspace} {root : Path} {o o' : Operation}

/-- An operation on a path with the same components. A file that is added reads the same. -/
inductive Renames (root : Path) (d : Disk) : Operation → Operation → Prop
  | addFile {p q : Path} (h : (root.absolutize p).components = (root.absolutize q).components)
      (hread : (d.read (root.absolutize p)).toOption = (d.read (root.absolutize q)).toOption) :
      Renames root d (.addFile p) (.addFile q)
  | removeFile {p q : Path}
      (h : (root.absolutize p).components = (root.absolutize q).components) :
      Renames root d (.removeFile p) (.removeFile q)
  | removeFolder {p q : Path}
      (h : (root.absolutize p).components = (root.absolutize q).components) :
      Renames root d (.removeFolder p) (.removeFolder q)

theorem Renames.symm (h : Renames root d o o') : Renames root d o' o := by
  cases h with
  | addFile h hread => exact .addFile h.symm hread.symm
  | removeFile h => exact .removeFile h.symm
  | removeFolder h => exact .removeFolder h.symm

/-- The workspace with the graphs that an operation on a path leaves. -/
def redrawn (k : Toolkit) (d : Disk) (w : Workspace) : Operation → Workspace
  | addFile p => (w.index k d (w.absolute p)).1
  | removeFile p => (FileId.ofPath? w.root (w.absolute p)).elim w w.dropFile
  | removeFolder folder => w.dropBelow (w.absolute folder)
  | _ => w

theorem frame_redrawn (o : Operation) : w.Frame (o.redrawn k d w) := by
  cases o with
  | addFile p => exact frame_index k d w _
  | removeFile p => exact frame_dropFile w _
  | removeFolder folder => exact frame_dropBelow w _
  | _ => exact .refl w

theorem redrawn_withTracker (o : Operation) (t : Tracker) :
    o.redrawn k d { w with tracker := t } = { o.redrawn k d w with tracker := t } := by
  cases o with
  | addFile p => exact index_withTracker w t
  | removeFile p =>
    change (FileId.ofPath? w.root (w.absolute p)).elim _ _ = _
    rw [redrawn]
    cases FileId.ofPath? w.root (w.absolute p) <;> rfl
  | removeFolder folder => exact dropBelow_withTracker w t
  | _ => rfl

theorem Renames.redrawn (h : Renames w.root d o o') : o.redrawn k d w = o'.redrawn k d w := by
  cases h with
  | addFile h hread => exact congrArg Prod.fst (index_congr h hread)
  | @removeFile p q h =>
    rw [Operation.redrawn, Operation.redrawn, absolute, absolute, FileId.ofPath?_congr h]
  | removeFolder h => exact dropBelow_congr h

/-- In memory an operation on a path leaves the graphs that are drawn for it. -/
theorem Renames.run_in_memory (h : Renames root d o o') (hw : w.IsInMemory) :
    ∃ t : Tracker, t.path = none ∧ (o.run k w d).1 = { o.redrawn k d w with tracker := t } := by
  cases h with
  | @addFile p q _ _ =>
    obtain ⟨t, hpath, hrun, -⟩ := addFile_in_memory hw k p d
    exact ⟨t, hpath, hrun⟩
  | @removeFile p q _ => exact removeFile_in_memory hw k p d
  | @removeFolder p q _ => exact removeFolder_in_memory hw k p d

theorem Renames.sameGraphs (h : Renames w.root d o o') (hwv : w.SameGraphs v) :
    Workspace.SameGraphs (o.run k w d).1 (o'.run k v d).1 := by
  obtain ⟨t, ht, hw⟩ := h.run_in_memory (k := k) hwv.left
  obtain ⟨u, hu, hv⟩ := h.symm.run_in_memory (k := k) hwv.right
  have hmemory : ∀ {x : Tracker}, x.path = none →
      IsInMemory { o.redrawn k d w with tracker := x } := by
    intro x hx
    have hframe := frame_redrawn (k := k) (d := d) (w := w) o
    exact ⟨hframe.importsPath.trans hwv.left.imports, hframe.callsPath.trans hwv.left.calls, hx⟩
  have hsame : (o'.run k v d).1 = { o.redrawn k d w with tracker := u } := by
    rw [hv, hwv.eq, redrawn_withTracker, h.redrawn]
  refine ⟨hw ▸ hmemory ht, hsame ▸ hmemory hu, ?_⟩
  rw [hsame, hw]

end Operation

theorem Workspace.trace_renamed {k : Toolkit} {w v : Workspace}
    {steps steps' : List (Disk × Operation)} {root : Path} (hroot : w.root = root)
    (hwv : w.SameGraphs v)
    (h : List.Forall₂ (fun s s' => s.1 = s'.1 ∧ s.2.Renames root s.1 s'.2) steps steps') :
    List.Forall₂ (fun s s' => s.1.SameGraphs s'.1) (w.trace k steps) (v.trace k steps') := by
  have hstates := forall₂_trace (k := k) (R := fun w v => w.root = root ∧ w.SameGraphs v)
    (fun s s' w v hs hwv => ?_) h ⟨hroot, hwv⟩
  · exact hstates.imp fun _ _ hwv => hwv.2
  · obtain ⟨d, o⟩ := s
    obtain ⟨d', o'⟩ := s'
    obtain ⟨rfl, hop⟩ : d = d' ∧ o.Renames root d o' := hs
    obtain ⟨rfl, hsame⟩ := hwv
    exact ⟨Operation.root_run o, hop.sameGraphs hsame⟩

/-! ## Ids of tracked files -/

/-- The file with an id is tracked. -/
def Workspace.Tracks (w : Workspace) (id : String) : Prop :=
  ∃ f ∈ w.tracker.files, FileId.ofPath? w.root f = some id

/-- A file is added at an absolute path in which nothing but `/` is read as a separator. -/
def Operation.IsAddition (root : Path) (o : Operation) : Prop :=
  ∃ p, o = .addFile p ∧ (root.absolutize p).isAbsolute = true ∧
    '\\' ∉ (root.absolutize p).text.toList

theorem Workspace.tracks_addFile {k : Toolkit} {d : Disk} {w : Workspace} {p : Path}
    (hw : w.IsInMemory) (habs : (w.absolute p).isAbsolute = true)
    (hplain : '\\' ∉ (w.absolute p).text.toList) {id : String} :
    (w.addFile k p d).1.Tracks id ↔ w.Tracks id ∨ w.supports (w.absolute p) = true ∧
      (d.read (w.absolute p)).toOption.isSome = true ∧
        FileId.ofPath? w.root (w.absolute p) = some id := by
  obtain ⟨t, -, hrun, hwatched⟩ := addFile_in_memory hw k p d
  have hroot : (w.addFile k p d).1.root = w.root := by
    rw [hrun]
    exact (frame_index k d w _).root
  have hkey : FileId.ofPath? w.root ⟨(w.absolute p).normalized⟩ =
      FileId.ofPath? w.root (w.absolute p) :=
    FileId.ofPath?_congr (Path.components_normalized habs hplain)
  rw [Tracks, Tracks, hroot, hrun]
  simp only [Tracker.mem_files, hwatched]
  generalize (w.absolute p).normalized = key at hkey ⊢
  constructor
  · rintro ⟨f, hold | ⟨hsupports, hread, htext⟩, hid⟩
    · exact Or.inl ⟨f, hold, hid⟩
    · subst htext
      exact Or.inr ⟨hsupports, hread, hkey ▸ hid⟩
  · rintro (⟨f, hold, hid⟩ | ⟨hsupports, hread, hid⟩)
    · exact ⟨f, Or.inl hold, hid⟩
    · exact ⟨⟨key⟩, Or.inr ⟨hsupports, hread, rfl⟩, hkey.trans hid⟩

/-- Additions under other spellings track the same ids. -/
theorem Operation.Renames.tracks_iff {k : Toolkit} {d : Disk} {w v : Workspace} {o o' : Operation}
    (h : o.Renames w.root d o') (hwv : w.SameGraphs v) (ho : o.IsAddition w.root)
    (ho' : o'.IsAddition w.root) (hids : ∀ id, w.Tracks id ↔ v.Tracks id) (id : String) :
    (o.run k w d).1.Tracks id ↔ (o'.run k v d).1.Tracks id := by
  obtain ⟨p, rfl, habs, hplain⟩ := ho
  obtain ⟨q, rfl, habs', hplain'⟩ := ho'
  obtain ⟨hsame, hread⟩ : (w.absolute p).components = (w.absolute q).components ∧
      (d.read (w.absolute p)).toOption = (d.read (w.absolute q)).toOption := by
    cases h with
    | addFile h hread => exact ⟨h, hread⟩
  have hroot : v.root = w.root := by rw [hwv.eq]
  have hlanguages : v.languages = w.languages := by rw [hwv.eq]
  have habsolute : v.absolute q = w.absolute q := by
    rw [Workspace.absolute, Workspace.absolute, hroot]
  have hsupports : v.supports (w.absolute q) = w.supports (w.absolute p) := by
    rw [Workspace.supports, Workspace.supports, hlanguages]
    exact Workspace.supports_congr (w := w) hsame.symm
  change (w.addFile k p d).1.Tracks id ↔ (v.addFile k q d).1.Tracks id
  rw [Workspace.tracks_addFile hwv.left habs hplain,
    Workspace.tracks_addFile hwv.right (habsolute ▸ habs') (habsolute ▸ hplain'), habsolute, hroot,
    hids, hsupports, hread, FileId.ofPath?_congr hsame]

theorem Workspace.trace_tracks {k : Toolkit} {w v : Workspace}
    {steps steps' : List (Disk × Operation)} {root : Path} (hroot : w.root = root)
    (hwv : w.SameGraphs v) (hids : ∀ id, w.Tracks id ↔ v.Tracks id)
    (h : List.Forall₂ (fun s s' => s.1 = s'.1 ∧ s.2.Renames root s.1 s'.2) steps steps')
    (hsteps : ∀ s ∈ steps, s.2.IsAddition root) (hsteps' : ∀ s ∈ steps', s.2.IsAddition root) :
    List.Forall₂ (fun s s' => ∀ id, s.1.Tracks id ↔ s'.1.Tracks id)
      (w.trace k steps) (v.trace k steps') := by
  have hleft := (List.forall₂_and_left steps steps').mpr ⟨hsteps, h⟩
  have hboth := (List.forall₂_and_left steps' steps).mpr ⟨hsteps', hleft.flip⟩
  have hstates := forall₂_trace (k := k) (R := fun w v => w.root = root ∧ w.SameGraphs v ∧
    ∀ id, w.Tracks id ↔ v.Tracks id) (fun s s' w v hs hwv => ?_) hboth.flip ⟨hroot, hwv, hids⟩
  · exact hstates.imp fun _ _ hwv => hwv.2.2
  · obtain ⟨d, o⟩ := s
    obtain ⟨d', o'⟩ := s'
    obtain ⟨ho', ho, rfl, hop⟩ : o'.IsAddition root ∧ o.IsAddition root ∧ d = d' ∧
      o.Renames root d o' := hs
    obtain ⟨rfl, hsame, hids⟩ := hwv
    exact ⟨Operation.root_run o, hop.sameGraphs hsame, hop.tracks_iff hsame ho ho' hids⟩

/-! ## Main statement -/

/--
A run gives the same states and results under other spellings of its paths that keep their keys, as
those do that differ in separators at the end. Tidy spellings of the same components have the same
key. In every state of a run on tidy spellings no file is tracked twice, and a removal untracks what
has its components. Under any spelling a removal untracks what has its key. In memory the graphs go
by components: additions and removals leave the same graphs under all spellings that are read in the
same way, and the same ids are tracked as long as nothing is removed.
-/
theorem Workspace.independent_of_outer_spelling (k : Toolkit) (w : Workspace) :
    (∀ steps steps' : List (Disk × Operation),
      List.Forall₂ (fun s s' => s.1 = s'.1 ∧ s.2.Respells w.root s.1 s'.2) steps steps' →
        w.trace k steps = w.trace k steps') ∧
    (∀ p q : Path, p.IsTidy → q.IsTidy → p.components = q.components → p.Alike q) ∧
    (w.tracker.IsTidy → ∀ steps : List (Disk × Operation),
      (∀ s ∈ steps, s.2.IsTidy w.root s.1) →
        ∀ v ∈ w :: (w.trace k steps).map Prod.fst, v.root = w.root ∧ v.GoesByComponents k) ∧
    (∀ (d : Disk) (p f : Path),
      (f ∈ (w.removeFile k p d).1.tracker.files ↔
        f ∈ w.tracker.files ∧ f.text ≠ (w.absolute p).normalized) ∧
      (f ∈ (w.removeFolder k p d).1.tracker.files ↔
        f ∈ w.tracker.files ∧ FileId.isWithin f.text (w.absolute p).normalized = false)) ∧
    (w.IsInMemory → ∀ steps steps' : List (Disk × Operation),
      List.Forall₂ (fun s s' => s.1 = s'.1 ∧ s.2.Renames w.root s.1 s'.2) steps steps' →
        List.Forall₂ (fun s s' => s.1.SameGraphs s'.1) (w.trace k steps) (w.trace k steps') ∧
        ((∀ s ∈ steps ++ steps', s.2.IsAddition w.root) →
          List.Forall₂ (fun s s' => ∀ id, s.1.Tracks id ↔ s'.1.Tracks id)
            (w.trace k steps) (w.trace k steps'))) := by
  refine ⟨fun steps steps' h => trace_respelled rfl h, fun p q => Path.IsTidy.alike, ?_,
    fun d p f => ⟨mem_files_removeFile, mem_files_removeFolder⟩, ?_⟩
  · intro hw steps hsteps
    have hstates := tidy_trace (k := k) rfl hw hsteps
    refine List.forall_mem_cons.mpr ⟨⟨rfl, goesByComponents hw⟩, ?_⟩
    intro v hv
    obtain ⟨s, hs, rfl⟩ := List.mem_map.mp hv
    exact ⟨(hstates s hs).1, goesByComponents (hstates s hs).2⟩
  · intro hmemory steps steps' h
    have hsame : w.SameGraphs w := ⟨hmemory, hmemory, rfl⟩
    refine ⟨trace_renamed rfl hsame h, fun hsteps => ?_⟩
    obtain ⟨hleft, hright⟩ := List.forall_mem_append.mp hsteps
    exact trace_tracks rfl hsame (fun _ => Iff.rfl) h hleft hright

namespace Echo

/-- The folder is added, its file changes and is removed. -/
def visit : List (Disk × Operation) :=
  [(disk "f", .addFolder ⟨"/w/"⟩), (disk "g", .apply [⟨"a.ts"⟩] []),
    (disk "g", .removeFile ⟨"a.ts/"⟩)]

/-- The same under other spellings. -/
def respelledVisit : List (Disk × Operation) :=
  [(disk "f", .addFolder ⟨"/w"⟩), (disk "g", .apply [file] []), (disk "g", .removeFile file)]

/-- The file is added and removed. -/
def passage (p q : Path) : List (Disk × Operation) :=
  [(disk "f", .addFile p), (disk "f", .removeFile q)]

/-- The workspace with its file tracked. -/
def tracking : Workspace := (workspace.addFile toolkit file (disk "f")).1

end Echo

theorem Workspace.independent_of_outer_spelling_echo :
    Echo.workspace.trace Echo.toolkit Echo.visit =
      Echo.workspace.trace Echo.toolkit Echo.respelledVisit ∧
    (∀ v ∈ Echo.workspace :: (Echo.workspace.trace Echo.toolkit Echo.visit).map Prod.fst,
      v.root = Echo.workspace.root ∧ v.GoesByComponents Echo.toolkit) ∧
    List.Forall₂ (fun s s' => s.1.SameGraphs s'.1)
      (Echo.workspace.trace Echo.toolkit (Echo.passage ⟨"/w//a.ts"⟩ Echo.file))
      (Echo.workspace.trace Echo.toolkit (Echo.passage Echo.file ⟨"./a.ts"⟩)) ∧
    List.Forall₂ (fun s s' => ∀ id, s.1.Tracks id ↔ s'.1.Tracks id)
      (Echo.workspace.trace Echo.toolkit [(Echo.disk "f", .addFile ⟨"./a.ts"⟩)])
      (Echo.workspace.trace Echo.toolkit [(Echo.disk "f", .addFile Echo.file)]) ∧
    Echo.file ∉ (Echo.tracking.removeFile Echo.toolkit ⟨"a.ts"⟩ (Echo.disk "f")).1.tracker.files ∧
    Echo.file ∈
      (Echo.tracking.removeFile Echo.toolkit ⟨"./a.ts"⟩ (Echo.disk "f")).1.tracker.files := by
  obtain ⟨hrespelled, -, htidy, -, hrenamed⟩ :=
    Workspace.independent_of_outer_spelling Echo.toolkit Echo.workspace
  obtain ⟨-, -, -, hremoved, -⟩ :=
    Workspace.independent_of_outer_spelling Echo.toolkit Echo.tracking
  have hfile : Path.absolutize ⟨"/w"⟩ ⟨"a.ts"⟩ = Disk.absolute ["w", "a.ts"] := by decide +kernel
  have hrenamed := hrenamed ⟨rfl, rfl, rfl⟩
  refine ⟨hrespelled _ _ ?_, htidy ?_ _ ?_, (hrenamed _ _ ?_).1, (hrenamed _ _ ?_).2 ?_, ?_, ?_⟩
  · refine .cons ⟨rfl, .addFolder (Or.inr ⟨⟨"/w"⟩, ?_⟩)⟩ (.cons ⟨rfl, .apply (.cons ?_ .nil) .nil⟩
      (.cons ⟨rfl, .removeFile ?_⟩ .nil))
    · decide +kernel
    · exact ⟨⟨by decide +kernel, by decide +kernel⟩, Or.inl (by decide +kernel)⟩
    · exact ⟨by decide +kernel, by decide +kernel⟩
  · exact fun key hkey => absurd hkey Std.ExtTreeSet.not_mem_empty
  · simp only [Echo.visit, List.forall_mem_cons, List.not_mem_nil, false_imp_iff, implies_true,
      and_true, Operation.IsTidy]
    refine ⟨⟨⟨by decide +kernel, ⟨by decide +kernel, trivial⟩, trivial⟩, ["w"], by decide +kernel,
      Or.inr (by decide +kernel)⟩, ["w", "a.ts"], 0, by decide +kernel, ?_⟩
    rw [Path.slashed_zero]
    exact hfile
  · exact .cons ⟨rfl, .addFile (by decide +kernel) (by decide +kernel)⟩
      (.cons ⟨rfl, .removeFile (by decide +kernel)⟩ .nil)
  · exact .cons ⟨rfl, .addFile (by decide +kernel) (by decide +kernel)⟩ .nil
  · rw [List.forall_mem_append, List.forall_mem_singleton, List.forall_mem_singleton]
    exact ⟨⟨_, rfl, by decide +kernel, by decide +kernel⟩,
      ⟨_, rfl, by decide +kernel, by decide +kernel⟩⟩
  · rw [(hremoved _ _ _).1]
    exact fun h => h.2 (by decide +kernel)
  · exact (hremoved _ _ _).1.mpr ⟨by decide +kernel, by decide +kernel⟩

end SourceGraph
