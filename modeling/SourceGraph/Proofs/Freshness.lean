import SourceGraph.Proofs.Reflection

/-!
# Freshness after a sync

A sync describes the files whose digest changed. Whether the graphs are up to date after it depends
on the files whose digest did not: the digest of a file is taken when the file is tracked and when
it is found to be changed, but its fragment also when it is added again and when all files are
described anew.

* `Workspace.IsFresh`: the graphs hold the fragments of the current contents of tracked files.
* `Workspace.MatchesRebuild`: the graphs are those that are built when all files are described anew.
* `Workspace.IsTrusty`: files with a current digest have a current fragment.
* `Workspace.Reflects.sync_isFresh_iff`: that is what a sync needs.
* `Operation.IsCareful`, `Workspace.Vouches`: operations after which it holds.
-/

set_option autoImplicit false

namespace SourceGraph

/-! ## The part of a store that belongs to a file -/

namespace Store

/-- What a store holds for a file is a slice, in any order. -/
structure Shows (s : Store) (file : String) (t : Slice) : Prop where
  nodes : ∀ id, owningFile id = file → s.nodes[id]? = t.node? id
  edges : (s.edges.filter (·.sourceFile == file)).Perm t.edges
  unresolved : (s.unresolved.filter (·.sourceFile == file)).Perm t.unresolved

namespace Mirrors

variable {s s' : Store} {slices slices' : String → Slice} {file : String} {t : Slice}

theorem shows (h : s.Mirrors slices) (file : String) : s.Shows file (slices file) where
  nodes id hid := by rw [h.nodes, hid]
  edges := List.Perm.of_eq (h.edges file)
  unresolved := List.Perm.of_eq (h.unresolved file)

/-- Stores with the same slice for a file show the same for it. -/
theorem shows_of_eq (h : s.Mirrors slices) (h' : s'.Mirrors slices')
    (hslice : slices file = slices' file) (hs : s.Shows file t) : s'.Shows file t where
  nodes id hid := by
    rw [← hs.nodes id hid, h.nodes, h'.nodes, hid, hslice]
  edges := by
    have hedges := hs.edges
    rwa [h.edges, hslice, ← h'.edges] at hedges
  unresolved := by
    have hunresolved := hs.unresolved
    rwa [h.unresolved, hslice, ← h'.unresolved] at hunresolved

/-- Two stores are alike if and only if they are so for each file. -/
theorem similar_iff_shows (h' : s'.Mirrors slices') :
    s.Similar s' ↔ ∀ file, s.Shows file (slices' file) := by
  constructor
  · intro hsim file
    refine ⟨fun id hid => ?_, ?_, ?_⟩
    · rw [hsim.nodes, h'.nodes, hid]
    · rw [← h'.edges]
      exact hsim.edges.filter _
    · rw [← h'.unresolved]
      exact hsim.unresolved.filter _
  · intro hshows
    refine ⟨Std.ExtTreeMap.ext_getElem? fun id => ?_, ?_, ?_⟩
    · rw [(hshows (owningFile id)).nodes id rfl, h'.nodes]
    · refine perm_of_filter_owner (·.sourceFile) fun file => ?_
      rw [h'.edges]
      exact (hshows file).edges
    · refine perm_of_filter_owner (·.sourceFile) fun file => ?_
      rw [h'.unresolved]
      exact (hshows file).unresolved

end Mirrors

end Store

namespace Workspace

variable {k : Toolkit} {d d' : Disk} {w w' : Workspace} {p : Path} {last : Latest} {r : Report}

/-! ## Fresh graphs -/

/-- What the graphs hold for a file is a fragment. -/
def ShowsFragment (w : Workspace) (file : String) (f : Fragment) : Prop :=
  w.imports.Shows file (f.slice .import) ∧ w.calls.Shows file (f.slice .call)

/-- What the graphs hold for a tracked file is the fragment of its current contents. -/
def IsFresh (k : Toolkit) (d : Disk) (w : Workspace) : Prop :=
  ∀ p ∈ w.tracker.files, ∀ file f, w.described? k d p = some (file, f) → w.ShowsFragment file f

/-- The graphs are those that are built when all tracked files are described anew. -/
def MatchesRebuild (k : Toolkit) (d : Disk) (w : Workspace) : Prop :=
  w.imports.Similar (w.reindex k d).1.imports ∧ w.calls.Similar (w.reindex k d).1.calls

/-- The graphs are up to date for the tracked files whose digest is. -/
def IsTrusty (k : Toolkit) (d : Disk) (w : Workspace) : Prop :=
  ∀ p ∈ w.tracker.files, w.tracker.hash? p = Tracker.hashOf? k.digest d p →
    ∀ file f, w.described? k d p = some (file, f) → w.ShowsFragment file f

/-- A workspace without documents. -/
structure IsInMemory (w : Workspace) : Prop where
  imports : w.imports.path = none
  calls : w.calls.path = none
  tracker : w.tracker.path = none

theorem IsInMemory.frame (h : w.IsInMemory) {t : Tracker} (htracker : t.path = w.tracker.path)
    (hframe : Frame { w with tracker := t } w') : w'.IsInMemory where
  imports := hframe.importsPath.trans h.imports
  calls := hframe.callsPath.trans h.calls
  tracker := by
    rw [hframe.tracker]
    exact htracker.trans h.tracker

theorem saved_of_isInMemory {α : Type} (h : w.IsInMemory) (a : α) :
    w.saved k d a = (w, d, .ok a) := by
  simp [saved, Store.save, h.imports, h.calls]

/-- The description of a file depends on its contents. -/
theorem described?_congr (h : d.read p = d'.read p) :
    w.described? k d p = w.described? k d' p := by
  have htext : d.readText p = d'.readText p := by
    rw [Disk.readText, Disk.readText, h]
  have hdescribe : w.describe k d p = w.describe k d' p := by
    rw [describe, describe, htext]
  rw [described?, described?, hdescribe]

theorem read_of_described? {e : String × Fragment} (h : w.described? k d p = some e) :
    ∃ content, d.read p = .ok content := by
  cases hread : d.read p with
  | ok content => exact ⟨content, rfl⟩
  | error f =>
    have htext : d.readText p = .error f := by rw [Disk.readText, hread]; rfl
    obtain ⟨_, a, ha, _⟩ := described?_eq_some.mp h
    rw [describe, htext, extract] at ha
    cases hl : identify w.languages w.root p with
    | error e => rw [hl] at ha; cases ha
    | ok found => rw [hl] at ha; cases ha

theorem slice_of_getElem? {file : String} {f : Fragment} (h : last[file]? = some f)
    (kind : StoreKind) : last.slice kind file = f.slice kind := by
  rw [Latest.slice, h]
  rfl

theorem Reflects.showsFragment (h : w.Reflects last) {file : String} {f : Fragment}
    (hf : last[file]? = some f) : w.ShowsFragment file f := by
  rw [ShowsFragment, ← slice_of_getElem? hf, ← slice_of_getElem? hf]
  exact ⟨h.imports.shows file, h.calls.shows file⟩

/-- Workspaces with the same last fragment for a file show the same for it. -/
theorem Reflects.showsFragment_of_eq {last' : Latest} (h : w.Reflects last)
    (h' : w'.Reflects last') {file : String} {f : Fragment} (hsame : last[file]? = last'[file]?)
    (hs : w.ShowsFragment file f) : w'.ShowsFragment file f := by
  have hslice : ∀ kind, last.slice kind file = last'.slice kind file := by
    intro kind
    rw [Latest.slice, hsame, Latest.slice]
  exact ⟨h.imports.shows_of_eq h'.imports (hslice _) hs.1,
    h.calls.shows_of_eq h'.calls (hslice _) hs.2⟩

/-- When all tracked files have ids, so do the keys that files with fragments are tracked by. -/
theorem Reflects.exists_mem_files (h : w.Reflects last) {file : String} (hfile : file ∈ last)
    (hall : ∀ p ∈ w.tracker.files, FileId.ofPath? w.root p ≠ none) :
    ∃ p ∈ w.tracker.files, FileId.ofPath? w.root p = some file := by
  obtain ⟨q, ⟨names, hnames⟩, hid, hkey⟩ := h.files file hfile
  have hq := Tracker.mk_mem_files.mpr hkey
  rcases hnames.key_eq_or_outside with hsame | hnone
  · exact ⟨q, hsame ▸ hq, hid⟩
  · exact absurd hnone (hall _ hq)

/-- The description of all tracked files gives a fragment to those that can be described. -/
theorem Reflects.getElem?_rebuild (h : w.Reflects last) {file : String} {f : Fragment}
    (hp : p ∈ w.tracker.files) (hf : w.described? k d p = some (file, f)) :
    (Latest.indexAll k d w ∅ w.tracker.files)[file]? = some f := by
  have hid := (described?_eq_some.mp hf).1
  refine Latest.getElem?_indexAll_of_mem hp hf fun q hq hqid => ?_
  exact (h.isUnder_of_mem_files hq hqid).1.eq_of_fileId (h.isUnder_of_mem_files hp hid).1 hqid hid

theorem reindex_ok_of_isInMemory (h : w.IsInMemory) :
    ∃ r, w.reindex k d = ((w.reindex k d).1, d, .ok r) := by
  have hframe := (frame_clear w).trans (frame_indexAll k d _ w.tracker.files)
  have hreindex : w.reindex k d = saved k
      (indexAll k d { w with imports := w.imports.clear, calls := w.calls.clear }
        w.tracker.files).1 d
      (indexAll k d { w with imports := w.imports.clear, calls := w.calls.clear }
        w.tracker.files).2 := rfl
  generalize indexAll k d { w with imports := w.imports.clear, calls := w.calls.clear }
    w.tracker.files = built at hframe hreindex
  rw [saved_of_isInMemory (h.frame rfl hframe)] at hreindex
  exact ⟨built.2, by rw [hreindex]⟩

/-- When all tracked files can be described, the graphs are fresh if they are those of a rebuild. -/
theorem Reflects.isFresh_iff_matchesRebuild (h : w.Reflects last) (hmemory : w.IsInMemory)
    (hall : ∀ p ∈ w.tracker.files, (w.described? k d p).isSome = true) :
    w.IsFresh k d ↔ w.MatchesRebuild k d := by
  obtain ⟨r, hok⟩ := reindex_ok_of_isInMemory (k := k) (d := d) hmemory
  have hrebuild := h.reindex hok
  have hlatest : Operation.reindex.latest k w d last =
    Latest.indexAll k d w ∅ w.tracker.files := rfl
  rw [hlatest] at hrebuild
  rw [MatchesRebuild, hrebuild.imports.similar_iff_shows, hrebuild.calls.similar_iff_shows,
    ← forall_and]
  constructor
  · intro hfresh file
    by_cases htracked : ∃ p ∈ w.tracker.files, FileId.ofPath? w.root p = some file
    · obtain ⟨p, hp, hid⟩ := htracked
      obtain ⟨⟨other, f⟩, hf⟩ := Option.isSome_iff_exists.mp (hall p hp)
      obtain rfl : other = file :=
        Option.some.inj ((described?_eq_some.mp hf).1.symm.trans hid)
      have hsome := h.getElem?_rebuild hp hf
      rw [slice_of_getElem? hsome, slice_of_getElem? hsome]
      exact hfresh p hp other f hf
    · -- a file that is not tracked has nothing in either graph
      have hnone : file ∉ last := by
        refine fun hfile => htracked (h.exists_mem_files hfile fun p hp hnone => ?_)
        obtain ⟨⟨other, f⟩, hf⟩ := Option.isSome_iff_exists.mp (hall p hp)
        rw [(described?_eq_some.mp hf).1] at hnone
        cases hnone
      have hrebuilt : (Latest.indexAll k d w ∅ w.tracker.files)[file]? = none := by
        rw [Latest.getElem?_indexAll_of_not_mem]
        · simp
        · intro q hq f hf
          exact htracked ⟨q, hq, (described?_eq_some.mp hf).1⟩
      have hslice : ∀ kind, Latest.slice (Latest.indexAll k d w ∅ w.tracker.files) kind file =
          last.slice kind file := by
        intro kind
        rw [Latest.slice, Latest.slice, hrebuilt]
        simp [hnone]
      rw [hslice, hslice]
      exact ⟨h.imports.shows file, h.calls.shows file⟩
  · intro hshows p hp file f hf
    have hsome := h.getElem?_rebuild hp hf
    have hfile := hshows file
    rwa [slice_of_getElem? hsome, slice_of_getElem? hsome] at hfile

/-! ## What a sync does -/

theorem Frame.described? (h : w.Frame w') : w'.described? k d p = w.described? k d p := by
  unfold Workspace.described? describe
  rw [h.root, h.languages]

/-- In memory an operation leaves the disk as it is. -/
theorem IsInMemory.settles (h : w.IsInMemory) {v : Workspace} {t : Tracker} {d₁ : Disk}
    (htracker : t.path = w.tracker.path) (hdisk : w.tracker.path = none → d₁ = d)
    (hframe : Frame { w with tracker := t } v) (hs : v.Settles d₁ w' d') :
    w'.IsInMemory ∧ d' = d := by
  have hv := h.frame htracker hframe
  refine ⟨h.frame htracker (hframe.trans hs.frame), ?_⟩
  rw [hs.2 hv.imports hv.calls]
  exact hdisk h.tracker

/-- A sync tracks the same files, and their descriptions depend on nothing that it changes. -/
theorem sync_keeps (hok : w.sync k d = (w', d', .ok r)) :
    w'.tracker.files = w.tracker.files ∧
      ∀ (k' : Toolkit) (e : Disk) (p : Path), w'.described? k' e p = w.described? k' e p := by
  obtain ⟨t, d₁, keys, hscan, _, hs, _⟩ := sync_ok hok
  have hframe := (frame_indexAll _ _ _ _).trans hs.frame
  refine ⟨?_, fun _ _ _ => hframe.described?⟩
  rw [hframe.tracker]
  exact Tracker.files_congr hscan.watched

/-- A file with a current digest is left alone, any other is described. -/
theorem Reflects.getElem?_sync (h : w.Reflects last) {t : Tracker} {keys : List String}
    (hscan : w.tracker.Rescans k.digest d t keys) (hp : p ∈ w.tracker.files) {file : String}
    {f : Fragment} (hf : w.described? k d p = some (file, f)) :
    (last.indexAll k d w (keys.map Path.mk))[file]? =
      if w.tracker.hash? p = Tracker.hashOf? k.digest d p then last[file]? else some f := by
  have hid := (described?_eq_some.mp hf).1
  obtain ⟨hunder, hkey⟩ := h.spelled_of_mem_files hp hid
  obtain ⟨content, hread⟩ := read_of_described? hf
  have hhash : Tracker.hashOf? k.digest d p = some (k.digest content) := by
    rw [Tracker.hashOf?, hread]
  have hfiles : ∀ q ∈ keys.map Path.mk, q ∈ w.tracker.files := by
    intro q hq
    obtain ⟨key, hmem, rfl⟩ := List.mem_map.mp hq
    exact Tracker.mk_mem_files.mpr ((hscan.mem_changed key).mp hmem).1
  have hunique : ∀ q ∈ keys.map Path.mk, FileId.ofPath? w.root q = some file → q = p := by
    intro q hq hqid
    exact (h.isUnder_of_mem_files (hfiles q hq) hqid).1.eq_of_fileId hunder hqid hid
  have hchanged : p ∈ keys.map Path.mk ↔ w.tracker.hash? p ≠ Tracker.hashOf? k.digest d p := by
    have hmem : p ∈ keys.map Path.mk ↔ p.text ∈ keys := by
      rw [List.mem_map]
      constructor
      · rintro ⟨key, hmem, rfl⟩
        exact hmem
      · exact fun hmem => ⟨p.text, hmem, rfl⟩
    have heta : Path.mk p.text = p := rfl
    rw [hmem, hscan.mem_changed, heta, hhash, Tracker.hash?, hkey]
    constructor
    · rintro ⟨_, hash, hsome, hne⟩
      rwa [hsome]
    · exact fun hne => ⟨Tracker.mem_files.mp hp, _, rfl, hne⟩
  split
  · rename_i hcurrent
    refine Latest.getElem?_indexAll_of_not_mem fun q hq g hg => ?_
    rw [hunique q hq (described?_eq_some.mp hg).1] at hq
    exact hchanged.mp hq hcurrent
  · rename_i hstale
    exact Latest.getElem?_indexAll_of_mem (hchanged.mpr hstale) hf hunique

/-- A sync makes the graphs fresh if and only if they were so where digests tell no change. -/
theorem Reflects.sync_isFresh_iff (h : w.Reflects last) (hmemory : w.IsInMemory)
    (hok : w.sync k d = (w', d', .ok r)) :
    w'.IsInMemory ∧ d' = d ∧ (w'.IsFresh k d ↔ w.IsTrusty k d) := by
  have h' := h.sync hok
  obtain ⟨hfiles, hdescribed⟩ := sync_keeps hok
  obtain ⟨t, d₁, keys, hscan, hdisk, hs, hlatest⟩ := sync_ok hok
  obtain ⟨hmemory', hdisk'⟩ := hmemory.settles hscan.path hdisk (frame_indexAll _ _ _ _) hs
  obtain rfl : d₁ = d := hdisk hmemory.tracker
  rw [hlatest] at h'
  refine ⟨hmemory', hdisk', ?_, ?_⟩
  · intro hfresh p hp hcurrent file f hf
    have hshows := hfresh p (hfiles ▸ hp) file f ((hdescribed k d₁ p).trans hf)
    have hsame := h.getElem?_sync hscan hp hf
    rw [if_pos hcurrent] at hsame
    exact h'.showsFragment_of_eq h hsame hshows
  · intro htrusty p hp file f hf
    rw [hfiles] at hp
    rw [hdescribed] at hf
    have hsame := h.getElem?_sync hscan hp hf
    split at hsame
    · rename_i hcurrent
      exact h.showsFragment_of_eq h' hsame.symm (htrusty p hp hcurrent file f hf)
    · exact h'.showsFragment hsame

end Workspace

/-! ## Workspaces in memory -/

namespace Workspace.IsInMemory

variable {k : Toolkit} {d d' : Disk} {w w' : Workspace} {p : Path} {r : Report}

theorem applyDeleted (h : w.IsInMemory) (hp : Path.IsUnder w.root p)
    (hok : w.applyDeleted k p d = (w', d', .ok r)) :
    (w'.IsInMemory ∧ d' = d) ∧ w'.root = w.root := by
  obtain ⟨t, hdrops, hdisk, hw⟩ := applyDeleted_ok hp.isAbsolute hok
  have hframe : Frame { w with tracker := t } w' := hw ▸ frame_dropFile_if _ _ _
  exact ⟨h.settles hdrops.path hdisk hframe (.refl _ _), hframe.root⟩

theorem applyModified (h : w.IsInMemory) (hp : Path.IsUnder w.root p)
    (hok : w.applyModified k p d = (w', d', .ok r)) :
    (w'.IsInMemory ∧ d' = d) ∧ w'.root = w.root := by
  obtain ⟨t, b, htracker, hw, _⟩ := applyModified_ok hp.isAbsolute hok
  have hframe : Frame { w with tracker := t } w' := hw ▸ frame_indexAll _ _ _ _
  refine ⟨?_, hframe.root⟩
  rcases htracker with ⟨_, hrefresh⟩ | ⟨hext, hdisk⟩
  · obtain ⟨hpath, _, _, hdisk⟩ := Tracker.refreshFile_ok hrefresh
    exact h.settles hpath hdisk hframe (.refl _ _)
  · exact h.settles hext.path hdisk hframe (.refl _ _)

/-- Operations leave a workspace in memory, and the disk as it is. -/
theorem step (h : w.IsInMemory) {op : Operation} (hpaths : ∀ p ∈ op.paths, Path.IsUnder w.root p)
    (hok : op.run k w d = (w', d', .ok r)) : w'.IsInMemory ∧ d' = d := by
  cases op with
  | addFile p =>
    obtain ⟨t, d₁, _, _, hext, hdisk, _, _, _, hs, _⟩ :=
      addFile_ok (hpaths p List.mem_cons_self).isAbsolute hok
    exact h.settles hext.path hdisk (frame_indexAll _ _ _ _) hs
  | addFolder folder =>
    obtain ⟨t, d₁, _, hext, hdisk, _, hs, _⟩ :=
      addFolder_ok (hpaths folder List.mem_cons_self).isAbsolute hok
    exact h.settles hext.path hdisk (frame_indexAll _ _ _ _) hs
  | removeFile p =>
    obtain ⟨t, d₁, hdrops, hdisk, hs⟩ := removeFile_ok (hpaths p List.mem_cons_self).isAbsolute hok
    exact h.settles hdrops.path hdisk (frame_dropFile _ _) hs
  | removeFolder folder =>
    obtain ⟨t, d₁, hdrops, hdisk, hs⟩ :=
      removeFolder_ok (hpaths folder List.mem_cons_self).isAbsolute hok
    exact h.settles hdrops.path hdisk (frame_dropBelow _ _) hs
  | sync =>
    obtain ⟨t, d₁, _, hscan, hdisk, hs, _⟩ := sync_ok hok
    exact h.settles hscan.path hdisk (frame_indexAll _ _ _ _) hs
  | apply modified deleted =>
    obtain ⟨w₁, d₁, ⟨⟨hmemory, rfl⟩, _⟩, hs⟩ := apply_ok w.root
      (motive := fun v e _ => (v.IsInMemory ∧ e = d) ∧ v.root = w.root)
      (by
        rintro p hp v e v' e' r last ⟨⟨hv, rfl⟩, hroot⟩ hstep
        rw [← hroot] at hpaths ⊢
        exact hv.applyDeleted (hpaths p (List.mem_append_right _ hp)) hstep)
      (by
        rintro p hp v e v' e' r last ⟨⟨hv, rfl⟩, hroot⟩ hstep
        rw [← hroot] at hpaths ⊢
        exact hv.applyModified (hpaths p (List.mem_append_left _ hp)) hstep)
      ∅ ⟨⟨h, rfl⟩, rfl⟩ rfl hok
    exact hmemory.settles rfl (fun _ => rfl) (.refl _) hs
  | reindex =>
    exact h.settles rfl (fun _ => rfl) ((frame_clear w).trans (frame_indexAll _ _ _ _))
      (reindex_ok hok)

end Workspace.IsInMemory

/-! ## Careful runs -/

/--
A file that is tracked is added again only while its digest is current, and all files are described
anew only while all digests are.
-/
def Operation.IsCareful (k : Toolkit) (op : Operation) (m : Moment) : Prop :=
  match op with
  | addFile p => m.workspace.tracker.isTracked p = true →
      m.workspace.tracker.hash? p = Tracker.hashOf? k.digest m.disk p
  | reindex => ∀ p ∈ m.workspace.tracker.files,
      m.workspace.tracker.hash? p = Tracker.hashOf? k.digest m.disk p
  | _ => True

/-- The digest and the fragment of a tracked file were once taken from the same contents. -/
def Workspace.Vouches (k : Toolkit) (w : Workspace) (last : Latest) : Prop :=
  ∀ p file hash, p ∈ w.tracker.files → FileId.ofPath? w.root p = some file →
    w.tracker.hash? p = some hash →
    ∃ e : Disk, Tracker.hashOf? k.digest e p = some hash ∧
      ∀ f, w.described? k e p = some (file, f) → last[file]? = some f

namespace Workspace.Vouches

variable {k : Toolkit} {d d' d₁ : Disk} {w w' : Workspace} {p folder : Path} {ps : List Path}
  {last last' : Latest} {t : Tracker} {r : Report}

/-- Contents that have the digest of a file are those that its fragment was taken from. -/
theorem isTrusty (hv : w.Vouches k last) (h : w.Reflects last)
    (hdigest : Function.Injective k.digest) : w.IsTrusty k d := by
  intro p hp hcurrent file f hf
  obtain ⟨content, hread⟩ := read_of_described? hf
  have hhash : Tracker.hashOf? k.digest d p = some (k.digest content) := by
    rw [Tracker.hashOf?, hread]
  have hid := (described?_eq_some.mp hf).1
  obtain ⟨e, hsame, hlast⟩ := hv p file _ hp hid (hcurrent.trans hhash)
  have hcontent : e.read p = d.read p := by
    rw [hread]
    unfold Tracker.hashOf? at hsame
    split at hsame
    · rename_i other hother
      rw [hother, hdigest (Option.some.inj hsame)]
    · cases hsame
  exact h.showsFragment (hlast f ((described?_congr hcontent).trans hf))

/-- Described files have their current digest, and for the others nothing changed. -/
theorem indexAll (h' : w'.Reflects last') (hframe : Frame { w with tracker := t } w')
    (hps : ∀ q ∈ ps, ∀ file, FileId.ofPath? w.root q = some file → Path.IsUnder w.root q)
    (hcase : ∀ p file hash, p ∈ t.files → Path.IsUnder w.root p → p.normalized = p.text →
      FileId.ofPath? w.root p = some file → t.hash? p = some hash →
      p ∈ ps ∧ Tracker.hashOf? k.digest d p = some hash ∨
      p ∉ ps ∧ ∃ e : Disk, Tracker.hashOf? k.digest e p = some hash ∧
        ∀ f, w.described? k e p = some (file, f) → last[file]? = some f) :
    w'.Vouches k (last.indexAll k d w ps) := by
  intro p file hash hp hid hhash
  have hdescribed : ∀ e, w'.described? k e p = w.described? k e p := fun e => hframe.described?
  obtain ⟨hunder, hkey⟩ := h'.spelled_of_mem_files hp hid
  rw [hframe.tracker] at hp hhash
  rw [hframe.root] at hid hunder
  have hunique : ∀ q ∈ ps, FileId.ofPath? w.root q = some file → q = p := fun q hq hqid =>
    (hps q hq file hqid).eq_of_fileId hunder hqid hid
  rcases hcase p file hash hp hunder hkey hid hhash with ⟨hmem, hcurrent⟩ | ⟨hmem, e, he, hlast⟩
  · -- digest and fragment are of the current contents
    refine ⟨d, hcurrent, fun f hf => ?_⟩
    rw [hdescribed] at hf
    exact Latest.getElem?_indexAll_of_mem hmem hf hunique
  · -- digest and fragment are those from before
    refine ⟨e, he, fun f hf => ?_⟩
    rw [hdescribed] at hf
    rw [Latest.getElem?_indexAll_of_not_mem]
    · exact hlast f hf
    · intro q hq g hg
      exact hmem (hunique q hq (described?_eq_some.mp hg).1 ▸ hq)

/-- Files are tracked and described, or only described while their digests are current. -/
theorem of_extends (hv : w.Vouches k last) {added : List Path}
    (hext : w.tracker.Extends k.digest d t added) (hps : ∀ q ∈ ps, Path.IsUnder w.root q)
    (hcase : added = ps ∨
      added = [] ∧ ∀ q ∈ ps, w.tracker.hash? q = Tracker.hashOf? k.digest d q)
    (h' : w'.Reflects last') (hframe : Frame { w with tracker := t } w') :
    w'.Vouches k (last.indexAll k d w ps) := by
  refine indexAll h' hframe (fun q hq _ _ => hps q hq) ?_
  intro p file hash hp hunder hkey hid hhash
  by_cases hadded : p ∈ added
  · left
    have hmem : p ∈ ps := by
      rcases hcase with rfl | ⟨rfl, _⟩
      · exact hadded
      · exact absurd hadded List.not_mem_nil
    exact ⟨hmem, (hext.hash p hadded).symm.trans hhash⟩
  · have hnew : p.normalized ∉ added.map Path.normalized := by
      intro hmem
      obtain ⟨q, hq, hqkey⟩ := List.mem_map.mp hmem
      have hqunder : Path.IsUnder w.root q := by
        rcases hcase with rfl | ⟨rfl, _⟩
        · exact hps q hq
        · exact absurd hq List.not_mem_nil
      exact hadded (hqunder.eq_of_key hunder hqkey ▸ hq)
    have hold : w.tracker.hash? p = some hash := (hext.others _ hnew).symm.trans hhash
    have hfile : p ∈ w.tracker.files := by
      have hmem := Tracker.mem_files.mp hp
      rw [← hkey, hext.watched] at hmem
      rw [Tracker.mem_files, ← hkey]
      exact hmem.resolve_right hnew
    by_cases hmem : p ∈ ps
    · -- described without a new digest, which is allowed while the old one is current
      left
      rcases hcase with rfl | ⟨rfl, hcurrent⟩
      · exact absurd hmem hadded
      · exact ⟨hmem, (hcurrent p hmem).symm.trans hold⟩
    · exact Or.inr ⟨hmem, hv p file hash hfile hid hold⟩

/-- Files are taken out of the tracker and of the graphs alike. -/
theorem of_drops (hv : w.Vouches k last) {gone : String → Prop} {scope : Path → Bool}
    (hdrops : w.tracker.Drops t gone) (h' : w'.Reflects last')
    (hframe : Frame { w with tracker := t } w')
    (hscope : ∀ p file, Path.IsUnder w.root p → FileId.ofPath? w.root p = some file →
      scope (w.root.join ⟨file⟩) = true → gone p.normalized) :
    w'.Vouches k (last.outside w.root scope) := by
  intro p file hash hp hid hhash
  have hdescribed : ∀ e, w'.described? k e p = w.described? k e p := fun e => hframe.described?
  obtain ⟨hunder, hkey⟩ := h'.spelled_of_mem_files hp hid
  rw [hframe.tracker] at hp hhash
  rw [hframe.root] at hid hunder
  have hmem := Tracker.mem_files.mp hp
  rw [← hkey, hdrops.watched] at hmem
  have hfile : p ∈ w.tracker.files := by
    rw [Tracker.mem_files, ← hkey]
    exact hmem.1
  obtain ⟨e, he, hlast⟩ := hv p file hash hfile hid ((hdrops.hash _ hmem.2).symm.trans hhash)
  refine ⟨e, he, fun f hf => ?_⟩
  rw [hdescribed] at hf
  rw [Latest.getElem?_outside, if_neg fun hin => hmem.2 (hscope p file hunder hid hin)]
  exact hlast f hf

theorem gone_of_same (hp : Path.IsUnder w.root p) :
    ∀ q file, Path.IsUnder w.root q → FileId.ofPath? w.root q = some file →
      (w.root.join ⟨file⟩).same p = true → q.normalized = p.normalized := by
  intro q file hq hid hsame
  have hqp : q.same p = true := by
    rw [Path.same, hq.components_join_id hid] at hsame
    exact hsame
  rw [(hq.same_iff hp).mp hqp]

theorem gone_of_isBelow (hfolder : Path.IsUnder w.root folder) :
    ∀ q file, Path.IsUnder w.root q → FileId.ofPath? w.root q = some file →
      (w.root.join ⟨file⟩).isBelow folder = true →
      FileId.isWithin q.normalized folder.normalized = true := by
  intro q file hq hid hbelow
  obtain ⟨names, hnames⟩ := hfolder
  obtain ⟨more, hmore, hne, _⟩ := hq.names hid
  have hqfolder : q.isBelow folder = true := by
    rw [Path.isBelow, hq.components_join_id hid] at hbelow
    exact hbelow
  by_cases hempty : names = []
  · subst hempty
    exact hnames.isWithin_normalized_root hmore hne
  · exact (hnames.isWithin_key_iff hmore hempty hne).mpr ((hnames.isBelow_iff hmore).mp hqfolder)

theorem addFile (hv : w.Vouches k last) (h : w.Reflects last) (hmemory : w.IsInMemory)
    (hp : Path.IsUnder w.root p)
    (hcareful : w.tracker.isTracked p = true →
      w.tracker.hash? p = Tracker.hashOf? k.digest d p)
    (hok : w.addFile k p d = (w', d', .ok r)) :
    w'.Vouches k ((Operation.addFile p).latest k w d last) := by
  have h' := h.addFile hp hok
  obtain ⟨t, d₁, added, ps, hext, hdisk, hcase, hps, _, hs, hlatest⟩ := addFile_ok hp.isAbsolute hok
  obtain rfl : d₁ = d := hdisk hmemory.tracker
  rw [hlatest]
  refine hv.of_extends hext (fun q hq => (hps q hq).1 ▸ hp) ?_ h'
    ((frame_indexAll _ _ _ _).trans hs.frame)
  refine hcase.imp_right fun ⟨hempty, htracked⟩ => ⟨hempty, fun q hq => ?_⟩
  rw [(hps q hq).1]
  exact hcareful htracked

theorem addFolder (hv : w.Vouches k last) (h : w.Reflects last) (hmemory : w.IsInMemory)
    (hfolder : Path.IsUnder w.root folder) (hd : d.PlainBelow w.root)
    (hok : w.addFolder k folder d = (w', d', .ok r)) :
    w'.Vouches k ((Operation.addFolder folder).latest k w d last) := by
  have h' := h.addFolder hfolder hd hok
  obtain ⟨t, d₁, added, hext, hdisk, hsub, hs, hlatest⟩ := addFolder_ok hfolder.isAbsolute hok
  obtain rfl : d₁ = d := hdisk hmemory.tracker
  obtain ⟨names, hnames⟩ := hfolder
  rw [hlatest]
  refine hv.of_extends hext (fun q hq => ?_) (Or.inl rfl) h'
    ((frame_indexAll _ _ _ _).trans hs.frame)
  exact Disk.leadsFrom_of_mem_enumerate w.tracker.extensions hd hnames (hsub q hq)

theorem sync (hv : w.Vouches k last) (h : w.Reflects last) (hmemory : w.IsInMemory)
    (hok : w.sync k d = (w', d', .ok r)) :
    w'.Vouches k (Operation.sync.latest k w d last) := by
  have h' := h.sync hok
  obtain ⟨t, d₁, keys, hscan, hdisk, hs, hlatest⟩ := sync_ok hok
  obtain rfl : d₁ = d := hdisk hmemory.tracker
  rw [hlatest]
  refine indexAll h' ((frame_indexAll _ _ _ _).trans hs.frame) ?_ ?_
  · intro q hq file hid
    obtain ⟨key, hkey, rfl⟩ := List.mem_map.mp hq
    have hfile := Tracker.mk_mem_files.mpr ((hscan.mem_changed key).mp hkey).1
    exact (h.isUnder_of_mem_files hfile hid).1
  · intro p file hash hp _ hkey hid hhash
    have hfile : p ∈ w.tracker.files := Tracker.files_congr hscan.watched ▸ hp
    rw [Tracker.hash?, hscan.hash, hkey] at hhash
    split at hhash
    · rename_i hchanged
      exact Or.inl ⟨List.mem_map.mpr ⟨p.text, hchanged, rfl⟩, hhash⟩
    · rename_i hsame
      refine Or.inr ⟨fun hmem => ?_, hv p file hash hfile hid (by rwa [Tracker.hash?, hkey])⟩
      obtain ⟨key, hchanged, rfl⟩ := List.mem_map.mp hmem
      exact hsame hchanged

theorem reindex (h : w.Reflects last)
    (hcareful : ∀ p ∈ w.tracker.files, w.tracker.hash? p = Tracker.hashOf? k.digest d p)
    (hok : w.reindex k d = (w', d', .ok r)) :
    w'.Vouches k (Operation.reindex.latest k w d last) := by
  have h' := h.reindex hok
  have hframe := ((frame_clear w).trans (frame_indexAll _ _ _ _)).trans (reindex_ok hok).frame
  refine indexAll h' hframe (fun q hq file hid => (h.isUnder_of_mem_files hq hid).1) ?_
  intro p file hash hp _ _ _ hhash
  exact Or.inl ⟨hp, (hcareful p hp).symm.trans hhash⟩

theorem applyDeleted (hv : w.Vouches k last) (h : w.Reflects last) (hp : Path.IsUnder w.root p)
    (hok : w.applyDeleted k p d = (w', d', .ok r)) :
    w'.Vouches k (last.outside w.root (·.same p)) := by
  have h' := (h.applyDeleted hp hok).1
  obtain ⟨t, hdrops, _, hw⟩ := applyDeleted_ok hp.isAbsolute hok
  have hframe : Frame { w with tracker := t } w' := hw ▸ frame_dropFile_if _ _ _
  exact hv.of_drops hdrops h' hframe (gone_of_same hp)

theorem applyModified (hv : w.Vouches k last) (h : w.Reflects last) (hmemory : w.IsInMemory)
    (hp : Path.IsUnder w.root p) (hok : w.applyModified k p d = (w', d', .ok r)) :
    w'.Vouches k (if r.indexed = 0 then last else last.index k d' w' p) := by
  have h' := (h.applyModified hp hok).1
  obtain rfl : d' = d := (hmemory.applyModified hp hok).1.2
  obtain ⟨t, b, htracker, hw, hlatest⟩ := applyModified_ok hp.isAbsolute hok
  have hframe : Frame { w with tracker := t } w' := hw ▸ frame_indexAll _ _ _ _
  have hps : ∀ q ∈ (if b then [p] else []), q = p := by
    cases b <;> simp
  rw [hlatest]
  rcases htracker with ⟨_, hrefresh⟩ | ⟨hext, _⟩
  · obtain ⟨_, hwatched, hhashes, _⟩ := Tracker.refreshFile_ok hrefresh
    refine indexAll h' hframe (fun q hq _ _ => hps q hq ▸ hp) ?_
    intro q file hash hq hunder hkey hid hhash
    have hfile : q ∈ w.tracker.files := Tracker.files_congr hwatched ▸ hq
    rw [Tracker.hash?, hhashes] at hhash
    split at hhash
    · rename_i hrefreshed
      obtain rfl := hp.eq_of_key hunder hrefreshed.2.symm
      exact Or.inl ⟨by simp [hrefreshed.1], hhash⟩
    · rename_i hsame
      refine Or.inr ⟨fun hmem => ?_, hv q file hash hfile hid hhash⟩
      obtain rfl := hps q hmem
      cases b with
      | true => exact hsame ⟨rfl, rfl⟩
      | false => exact absurd hmem List.not_mem_nil
  · exact hv.of_extends hext (fun q hq => hps q hq ▸ hp) (Or.inl rfl) h' hframe

theorem apply (hv : w.Vouches k last) (h : w.Reflects last) (hmemory : w.IsInMemory)
    {modified deleted : List Path} (hpaths : ∀ p ∈ modified ++ deleted, Path.IsUnder w.root p)
    (hok : w.apply k modified deleted d = (w', d', .ok r)) :
    w'.Vouches k ((Operation.apply modified deleted).latest k w d last) := by
  have h' := h.apply hpaths hok
  obtain ⟨w₁, d₁, ⟨hend, _, _, _⟩, hs⟩ := apply_ok w.root
    (motive := fun v _ last => v.Vouches k last ∧ v.Reflects last ∧ v.IsInMemory ∧ v.root = w.root)
    (by
      rintro p hp v e v' e' r last ⟨hv, hr, hm, hroot⟩ hstep
      rw [← hroot] at hpaths ⊢
      have hunder := hpaths p (List.mem_append_right _ hp)
      exact ⟨hv.applyDeleted hr hunder hstep, (hr.applyDeleted hunder hstep).1,
        (hm.applyDeleted hunder hstep).1.1, (hr.applyDeleted hunder hstep).2⟩)
    (by
      rintro p hp v e v' e' r last ⟨hv, hr, hm, hroot⟩ hstep
      rw [← hroot] at hpaths ⊢
      have hunder := hpaths p (List.mem_append_left _ hp)
      exact ⟨hv.applyModified hr hm hunder hstep, (hr.applyModified hunder hstep).1,
        (hm.applyModified hunder hstep).1.1, (hr.applyModified hunder hstep).2⟩)
    last ⟨hv, h, hmemory, rfl⟩ rfl hok
  intro p file hash hp hid hhash
  rw [hs.frame.tracker] at hp hhash
  rw [hs.frame.root] at hid
  obtain ⟨e, he, hlast⟩ := hend p file hash hp hid hhash
  exact ⟨e, he, fun f hf => hlast f (hs.frame.described?.symm.trans hf)⟩

theorem removeFile (hv : w.Vouches k last) (h : w.Reflects last) (hp : Path.IsUnder w.root p)
    (hok : w.removeFile k p d = (w', d', .ok r)) :
    w'.Vouches k (last.outside w.root (·.same p)) := by
  have h' := h.removeFile hp hok
  obtain ⟨t, d₁, hdrops, _, hs⟩ := removeFile_ok hp.isAbsolute hok
  exact hv.of_drops hdrops h' ((frame_dropFile _ _).trans hs.frame) (gone_of_same hp)

theorem removeFolder (hv : w.Vouches k last) (h : w.Reflects last)
    (hfolder : Path.IsUnder w.root folder) (hok : w.removeFolder k folder d = (w', d', .ok r)) :
    w'.Vouches k (last.outside w.root (·.isBelow folder)) := by
  have h' := h.removeFolder hfolder hok
  obtain ⟨t, d₁, hdrops, _, hs⟩ := removeFolder_ok hfolder.isAbsolute hok
  exact hv.of_drops hdrops h' ((frame_dropBelow _ _).trans hs.frame) (gone_of_isBelow hfolder)

/-- Careful operations keep digests and fragments together. -/
theorem step (hv : w.Vouches k last) (h : w.Reflects last) (hmemory : w.IsInMemory)
    {op : Operation} (hclean : op.IsClean ⟨w, d, last⟩) (hcareful : op.IsCareful k ⟨w, d, last⟩)
    (hok : op.run k w d = (w', d', .ok r)) : w'.Vouches k (op.latest k w d last) := by
  cases op with
  | addFile p => exact hv.addFile h hmemory (hclean.paths p List.mem_cons_self) hcareful hok
  | addFolder folder =>
    exact hv.addFolder h hmemory (hclean.paths folder List.mem_cons_self) hclean.disk hok
  | removeFile p => exact hv.removeFile h (hclean.paths p List.mem_cons_self) hok
  | removeFolder folder => exact hv.removeFolder h (hclean.paths folder List.mem_cons_self) hok
  | sync => exact hv.sync h hmemory hok
  | apply modified deleted => exact hv.apply h hmemory hclean.paths hok
  | reindex => exact reindex h hcareful hok

end Workspace.Vouches

/-! ## Whole runs -/

theorem Workspace.sync_ok_of_isInMemory {k : Toolkit} {d : Disk} {w : Workspace}
    (h : w.IsInMemory) : ∃ w' r, w.sync k d = (w', d, .ok r) := by
  cases hscan : w.tracker.rescan k.digest d with
  | mk t changed =>
    have hpath : t.path = w.tracker.path := by
      obtain ⟨_, _, hspec⟩ := Tracker.rescan_spec hscan
      exact hspec.path
    have hchanged : w.tracker.changedFiles k d = (t, d, .ok changed) := by
      unfold Tracker.changedFiles
      rw [hscan]
      cases changed with
      | nil => rfl
      | cons p ps => simp [Tracker.saved, Tracker.save, hpath, h.tracker]
    cases changed with
    | nil => exact ⟨{ w with tracker := t }, {}, by simp [sync, hchanged, withTracker]⟩
    | cons p ps =>
      have hframe := frame_indexAll k d { w with tracker := t } (p :: ps)
      have hsync : w.sync k d = saved k (indexAll k d { w with tracker := t } (p :: ps)).1 d
          (indexAll k d { w with tracker := t } (p :: ps)).2 := by
        rw [sync, hchanged]
        rfl
      rw [saved_of_isInMemory (h.frame hpath hframe)] at hsync
      exact ⟨_, _, hsync⟩

theorem Workspace.isInMemory_of_openAt {k : Toolkit} {languages : List Language} {root : Path}
    {d d' : Disk} {w : Workspace} (h : Workspace.openAt k languages { root } d = (d', .ok w)) :
    w.IsInMemory ∧ w.tracker.files = [] := by
  obtain ⟨_, _, _, rfl⟩ := Workspace.openAt_of_no_documents (by simp [WorkspaceSettings.documents]) h
  exact ⟨⟨rfl, rfl, rfl⟩, rfl⟩

theorem Run.isInMemory {k : Toolkit} {allowed : Operation → Moment → Prop} {start m : Moment}
    (hclean : ∀ op m, allowed op m → op.IsClean m) (hstart : start.workspace.IsInMemory)
    (h : Run k allowed start m) : m.workspace.IsInMemory := by
  induction h with
  | start => exact hstart
  | edit _ _ ih => exact ih
  | step _ op now hallowed hok ih => exact (ih.step (hclean op _ hallowed).paths hok).1

theorem Run.vouches {k : Toolkit} {start m : Moment}
    (hreflects : start.workspace.Reflects start.latest) (hmemory : start.workspace.IsInMemory)
    (hvouches : start.workspace.Vouches k start.latest)
    (h : Run k (fun op m => op.IsClean m ∧ op.IsCareful k m) start m) :
    m.workspace.Vouches k m.latest := by
  induction h with
  | start => exact hvouches
  | edit _ _ ih => exact ih
  | step hrun op now hallowed hok ih =>
    have hr := hrun.reflects (fun _ _ h => h.1) hreflects
    have hm := hrun.isInMemory (fun _ _ h => h.1) hmemory
    exact Workspace.Vouches.step (k := { k with now }) ih hr hm hallowed.1 hallowed.2 hok

/--
A sync of a workspace in memory all of whose tracked files can be described: the graphs are fresh
after it if and only if they are those of a rebuild, and if and only if they were up to date before
it for the files whose digest was. That is so after a careful run.
-/
theorem Run.fresh_after_sync_iff {k : Toolkit} {languages : List Language} {root : Path}
    {d d' : Disk} {w : Workspace} {m : Moment} (now : Timestamp)
    (hopen : Workspace.openAt k languages { root } d = (d', .ok w))
    (hrun : Run k Operation.IsClean { workspace := w, disk := d' } m)
    (hall : ∀ p ∈ m.workspace.tracker.files,
      (m.workspace.described? k m.disk p).isSome = true) :
    ∃ w' r, m.workspace.sync { k with now } m.disk = (w', m.disk, .ok r) ∧
      (w'.IsFresh k m.disk ↔ w'.MatchesRebuild k m.disk) ∧
      (w'.IsFresh k m.disk ↔ m.workspace.IsTrusty k m.disk) ∧
      (Function.Injective k.digest →
        Run k (fun op m => op.IsClean m ∧ op.IsCareful k m) { workspace := w, disk := d' } m →
        w'.IsFresh k m.disk) := by
  have hreflects := Workspace.reflects_of_openAt (by simp [WorkspaceSettings.documents]) hopen
  obtain ⟨hmemory, hfiles⟩ := Workspace.isInMemory_of_openAt hopen
  have hr := hrun.reflects (fun _ _ h => h) hreflects
  have hm := hrun.isInMemory (fun _ _ h => h) hmemory
  obtain ⟨w', r, hok⟩ := Workspace.sync_ok_of_isInMemory (k := { k with now }) (d := m.disk) hm
  obtain ⟨hm', _, hfresh⟩ := hr.sync_isFresh_iff hm hok
  refine ⟨w', r, hok, ?_, hfresh, fun hdigest hcareful => hfresh.mpr ?_⟩
  · obtain ⟨hsame, hdescribed⟩ := Workspace.sync_keeps hok
    refine (hr.sync hok).isFresh_iff_matchesRebuild hm' fun p hp => ?_
    rw [hdescribed]
    exact hall p (hsame ▸ hp)
  · have hvouches : w.Vouches k ∅ := by
      intro p file hash hp
      rw [hfiles] at hp
      cases hp
    exact (hcareful.vouches hreflects hmemory hvouches).isTrusty hr hdigest

theorem Run.fresh_after_sync_iff_echo :
    ∃ m w' r, Run Echo.toolkit Operation.IsClean ⟨Echo.workspace, Echo.disk "f", ∅⟩ m ∧
      m.workspace.sync Echo.toolkit m.disk = (w', m.disk, .ok r) ∧
      ¬ w'.IsFresh Echo.toolkit m.disk := by
  have hstart : Run Echo.toolkit Operation.IsClean ⟨Echo.workspace, Echo.disk "f", ∅⟩ _ := .start
  have hadd := hstart.next (.addFile Echo.file)
    (Echo.isClean rfl (by simp [Operation.paths])) (by decide +kernel)
  -- the file is added again with other contents, which then are taken back
  have hagain := (hadd.edit (Echo.disk "g")).next (.addFile Echo.file)
    (Echo.isClean (by decide +kernel) (by simp [Operation.paths])) (by decide +kernel)
  have hrun := hagain.edit (Echo.disk "f")
  obtain ⟨w', r, hok, _, hfresh, _⟩ := Run.fresh_after_sync_iff Echo.toolkit.now
    (Echo.openAt_disk "f") hrun (by decide +kernel)
  refine ⟨_, w', r, hrun, hok, fun hw => ?_⟩
  have hshows := hfresh.mp hw Echo.file (by decide +kernel) (by decide +kernel) "a.ts" _ rfl
  exact absurd hshows.2.unresolved (by decide +kernel)

end SourceGraph
