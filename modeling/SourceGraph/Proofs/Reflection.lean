import SourceGraph.Proofs.Cycle

/-!
# The graphs hold the last fragments

In every state of every run on clean paths the two graphs are made of the last fragments and of
nothing else, and only tracked files have one.

* `Workspace.Reflects`: the graphs hold the last fragments, file by file.
* `Workspace.Reflects.step`: every operation keeps that.
* `Workspace.IsMadeOf`: the same for the contents of the graphs as a whole.
-/

set_option autoImplicit false

namespace SourceGraph

/-- The graphs hold the last fragments and nothing else, and only tracked files have one. -/
structure Workspace.Reflects (w : Workspace) (last : Latest) : Prop where
  imports : w.imports.Mirrors (last.slice .import)
  calls : w.calls.Mirrors (last.slice .call)
  fragments : ∀ (file : String) (f : Fragment), last[file]? = some f →
    ∃ a : Artifact, f = a.fragment file
  files : ∀ file ∈ last, ∃ p, Path.IsUnder w.root p ∧ FileId.ofPath? w.root p = some file ∧
    p.normalized ∈ w.tracker.watched
  keys : ∀ key ∈ w.tracker.watched, ∃ p, Path.IsUnder w.root p ∧ key = p.normalized

theorem Workspace.reflects_empty {w : Workspace} (himports : w.imports.Mirrors fun _ => {})
    (hcalls : w.calls.Mirrors fun _ => {})
    (hkeys : ∀ key ∈ w.tracker.watched, ∃ p, Path.IsUnder w.root p ∧ key = p.normalized) :
    w.Reflects ∅ := by
  have hslice : ∀ kind, Latest.slice ∅ kind = fun _ => {} := by
    intro kind
    funext file
    simp [Latest.slice]
  refine ⟨?_, ?_, by simp, by simp, hkeys⟩
  · rw [hslice]
    exact himports
  · rw [hslice]
    exact hcalls

namespace Workspace.Reflects

variable {k : Toolkit} {d d' d₁ : Disk} {w w' : Workspace} {p folder : Path} {ps : List Path}
  {last : Latest} {t : Tracker} {r : Report}

/-- A tracked file with an id is spelled by its key. -/
theorem spelled_of_mem_files (h : w.Reflects last) (hp : p ∈ w.tracker.files) {file : String}
    (hid : FileId.ofPath? w.root p = some file) :
    Path.IsUnder w.root p ∧ p.normalized = p.text := by
  obtain ⟨q, ⟨names, hnames⟩, hkey⟩ := h.keys _ (Tracker.mem_files.mp hp)
  have hpq : p = Path.mk q.normalized := by rw [← hkey]
  rcases hnames.key_eq_or_outside with hsame | hnone
  · rw [hsame] at hpq
    subst hpq
    exact ⟨⟨names, hnames⟩, hkey.symm⟩
  · rw [hpq, hnone] at hid
    cases hid

theorem isUnder_of_mem_files (h : w.Reflects last) (hp : p ∈ w.tracker.files) {file : String}
    (hid : FileId.ofPath? w.root p = some file) :
    Path.IsUnder w.root p ∧ p.normalized ∈ w.tracker.watched := by
  obtain ⟨hunder, hkey⟩ := h.spelled_of_mem_files hp hid
  exact ⟨hunder, hkey ▸ Tracker.mem_files.mp hp⟩

theorem withTracker (h : w.Reflects last)
    (hold : ∀ key ∈ w.tracker.watched, key ∈ t.watched)
    (hkeys : ∀ key ∈ t.watched, ∃ p, Path.IsUnder w.root p ∧ key = p.normalized) :
    Reflects { w with tracker := t } last where
  imports := h.imports
  calls := h.calls
  fragments := h.fragments
  files file hfile := by
    obtain ⟨p, hp, hid, htracked⟩ := h.files file hfile
    exact ⟨p, hp, hid, hold _ htracked⟩
  keys := hkeys

/-- One file is described. -/
theorem index (h : w.Reflects last)
    (hp : ∀ file, FileId.ofPath? w.root p = some file →
      Path.IsUnder w.root p ∧ p.normalized ∈ w.tracker.watched) :
    (w.index k d p).1.Reflects (last.index k d w p) := by
  rw [index_fst, Latest.index]
  cases hdesc : w.described? k d p with
  | none => exact h
  | some e =>
    obtain ⟨file, f⟩ := e
    obtain ⟨hid, a, ha, rfl⟩ := described?_eq_some.mp hdesc
    obtain ⟨hunder, htracked⟩ := hp file hid
    rw [Option.elim_some, Option.elim_some, putFragment_eq]
    refine ⟨?_, ?_, ?_, ?_, h.keys⟩
    · rw [Latest.slice_insert]
      exact h.imports.replace (isOwned_of_described? hunder hdesc .import)
    · rw [Latest.slice_insert]
      exact h.calls.replace (isOwned_of_described? hunder hdesc .call)
    · intro other g hg
      rw [Std.ExtTreeMap.getElem?_insert] at hg
      split at hg
      · rename_i hother
        rw [Std.compare_eq_iff_eq] at hother
        exact ⟨a, hother ▸ (Option.some.inj hg).symm⟩
      · exact h.fragments other g hg
    · intro other hmem
      rw [Std.ExtTreeMap.mem_insert, Std.compare_eq_iff_eq] at hmem
      rcases hmem with rfl | hmem
      · exact ⟨p, hunder, hid, htracked⟩
      · exact h.files other hmem

/-- Some files are described, one after the other. -/
theorem indexAll (h : w.Reflects last)
    (hps : ∀ p ∈ ps, ∀ file, FileId.ofPath? w.root p = some file →
      Path.IsUnder w.root p ∧ p.normalized ∈ w.tracker.watched) :
    (w.indexAll k d ps).1.Reflects (last.indexAll k d w ps) := by
  induction ps generalizing w last with
  | nil => exact h
  | cons p ps ih =>
    have hstep := h.index (k := k) (d := d) (hps p List.mem_cons_self)
    obtain ⟨imports, calls, _, _, hw⟩ := indexAll_fst k d w [p]
    have hfirst : (w.index k d p).1 = { w with imports, calls } := hw
    have hcons : (w.indexAll k d (p :: ps)).1 = ((w.index k d p).1.indexAll k d ps).1 := rfl
    rw [hcons, hfirst]
    rw [hfirst] at hstep
    -- root, languages and tracker are those of `w`, so the rest is described as from `w`
    exact ih hstep fun q hq => hps q (List.mem_cons_of_mem _ hq)

/-- The files of a scope leave the graphs; they may leave the tracker. -/
theorem outside (h : w.Reflects last) {owned : String → Bool} {scope : Path → Bool}
    (hscope : ∀ file ∈ last, owned file = scope (w.root.join ⟨file⟩))
    (hkept : ∀ p file, Path.IsUnder w.root p → FileId.ofPath? w.root p = some file →
      scope p = false → p.normalized ∈ w.tracker.watched → p.normalized ∈ t.watched)
    (hsame : ∀ p q : Path, p.components = q.components → scope p = scope q)
    (hkeys : ∀ key ∈ t.watched, key ∈ w.tracker.watched) :
    Reflects
      { w with
        imports := w.imports.removeWhere owned
        calls := w.calls.removeWhere owned
        tracker := t }
      (last.outside w.root scope) := by
  have hslice : ∀ kind, (last.outside w.root scope).slice kind =
      fun file => if owned file then {} else last.slice kind file := by
    intro kind
    funext file
    rw [Latest.slice, Latest.getElem?_outside]
    by_cases hfile : file ∈ last
    · rw [hscope file hfile]
      split <;> rfl
    · simp [Latest.slice, hfile]
  refine ⟨?_, ?_, ?_, ?_, fun key hkey => h.keys key (hkeys key hkey)⟩
  · rw [hslice]
    exact h.imports.removeWhere owned
  · rw [hslice]
    exact h.calls.removeWhere owned
  · intro file f hf
    rw [Latest.getElem?_outside] at hf
    split at hf
    · cases hf
    · exact h.fragments file f hf
  · intro file hmem
    obtain ⟨hout, hfile⟩ := Latest.mem_outside.mp hmem
    obtain ⟨p, hp, hid, htracked⟩ := h.files file hfile
    -- the scope sees the id through the root, the tracker sees the path itself
    rw [hsame _ p (hp.components_join_id hid)] at hout
    exact ⟨p, hp, hid, hkept p file hp hid hout htracked⟩

theorem settles (h : w.Reflects last) (hs : w.Settles d w' d') :
    w'.Reflects last := by
  obtain ⟨⟨x, y, rfl⟩, _⟩ := hs
  refine ⟨?_, ?_, h.fragments, h.files, h.keys⟩
  · exact ⟨h.imports.owned, h.imports.nodes, h.imports.edges, h.imports.unresolved⟩
  · exact ⟨h.calls.owned, h.calls.nodes, h.calls.edges, h.calls.unresolved⟩

/-! ## Operations keep the graphs in step -/

theorem advance (h : w.Reflects last) (hold : ∀ key ∈ w.tracker.watched, key ∈ t.watched)
    (hkeys : ∀ key ∈ t.watched, ∃ p, Path.IsUnder w.root p ∧ key = p.normalized)
    (hps : ∀ p ∈ ps, ∀ file, FileId.ofPath? w.root p = some file →
      Path.IsUnder w.root p ∧ p.normalized ∈ t.watched)
    (hs : Settles (Workspace.indexAll k d₁ { w with tracker := t } ps).1 d₁ w' d') :
    w'.Reflects (last.indexAll k d₁ w ps) :=
  ((h.withTracker hold hkeys).indexAll hps).settles hs

theorem keys_of_extends (h : w.Reflects last) {added : List Path}
    (hext : w.tracker.Extends k.digest d t added) (hadded : ∀ q ∈ added, Path.IsUnder w.root q) :
    ∀ key ∈ t.watched, ∃ p, Path.IsUnder w.root p ∧ key = p.normalized := by
  intro key hkey
  rcases (hext.watched key).mp hkey with hkey | hkey
  · exact h.keys key hkey
  · obtain ⟨q, hq, rfl⟩ := List.mem_map.mp hkey
    exact ⟨q, hadded q hq, rfl⟩

/-- Files that are described are tracked, some of them from now on. -/
theorem advance_of_extends (h : w.Reflects last) {added : List Path}
    (hext : w.tracker.Extends k.digest d t added) (hadded : ∀ q ∈ added, Path.IsUnder w.root q)
    (hps : ∀ q ∈ ps, Path.IsUnder w.root q ∧ q.normalized ∈ t.watched)
    (hs : Settles (Workspace.indexAll k d₁ { w with tracker := t } ps).1 d₁ w' d') :
    w'.Reflects (last.indexAll k d₁ w ps) :=
  h.advance (fun key hkey => (hext.watched key).mpr (Or.inl hkey)) (h.keys_of_extends hext hadded)
    (fun q hq _ _ => hps q hq) hs

theorem addFile (h : w.Reflects last) (hp : Path.IsUnder w.root p)
    (hok : w.addFile k p d = (w', d', .ok r)) :
    w'.Reflects ((Operation.addFile p).latest k w d last) := by
  obtain ⟨t, d₁, added, ps, hext, _, _, hps, hadded, hs, hlatest⟩ := addFile_ok hp.isAbsolute hok
  rw [hlatest last]
  refine h.advance_of_extends hext (fun q hq => hadded q hq ▸ hp) ?_ hs
  intro q hq
  obtain ⟨rfl, htracked⟩ := hps q hq
  exact ⟨hp, Tracker.isTracked_iff.mp htracked⟩

theorem addFolder (h : w.Reflects last) (hp : Path.IsUnder w.root folder)
    (hd : d.PlainBelow w.root) (hok : w.addFolder k folder d = (w', d', .ok r)) :
    w'.Reflects ((Operation.addFolder folder).latest k w d last) := by
  obtain ⟨t, d₁, added, hext, _, hsub, hs, hlatest⟩ := addFolder_ok hp.isAbsolute hok
  obtain ⟨names, hnames⟩ := hp
  have hadded : ∀ q ∈ added, Path.IsUnder w.root q := fun q hq =>
    Disk.leadsFrom_of_mem_enumerate w.tracker.extensions hd hnames (hsub q hq)
  rw [hlatest last]
  refine h.advance_of_extends hext hadded ?_ hs
  intro q hq
  exact ⟨hadded q hq, (hext.watched _).mpr (Or.inr (List.mem_map_of_mem hq))⟩

theorem same_join_iff (h : w.Reflects last) (hp : Path.IsUnder w.root p) {file : String}
    (hfile : file ∈ last) :
    (w.root.join ⟨file⟩).same p = true ↔ FileId.ofPath? w.root p = some file := by
  obtain ⟨q, hq, hid, _⟩ := h.files file hfile
  have hsame : (w.root.join ⟨file⟩).same p = q.same p := by
    rw [Path.same, hq.components_join_id hid, Path.same]
  rw [hsame, hq.same_iff hp]
  exact ⟨fun e => e ▸ hid, hq.eq_of_fileId hp hid⟩

/-- One file leaves the tracker and the graphs. -/
theorem dropFile (h : w.Reflects last) (hp : Path.IsUnder w.root p)
    (hdrops : w.tracker.Drops t (· = p.normalized)) :
    Reflects ((FileId.ofPath? w.root p).elim { w with tracker := t }
      (Workspace.dropFile { w with tracker := t })) (last.outside w.root (·.same p)) := by
  have hkeys : ∀ key ∈ t.watched, key ∈ w.tracker.watched := fun key hkey =>
    ((hdrops.watched key).mp hkey).1
  have hcomponents : ∀ q r : Path, q.components = r.components → q.same p = r.same p := by
    intro q r hqr
    rw [Path.same, Path.same, hqr]
  have hkept : ∀ (q : Path) (file : String), Path.IsUnder w.root q →
      FileId.ofPath? w.root q = some file → q.same p = false →
      q.normalized ∈ w.tracker.watched → q.normalized ∈ t.watched := by
    intro q file hq hid hsame hmem
    refine (hdrops.watched _).mpr ⟨hmem, fun hkey => ?_⟩
    rw [← hp.eq_of_key hq hkey.symm, (hp.same_iff hp).mpr rfl] at hsame
    cases hsame
  cases hpid : FileId.ofPath? w.root p with
  | some id =>
    refine h.outside ?_ hkept hcomponents hkeys
    intro file hfile
    rw [Bool.eq_iff_iff, beq_iff_eq, h.same_join_iff hp hfile, hpid, Option.some.injEq, eq_comm]
  | none =>
    -- the root has no id, and no file is the root
    have hnone : ∀ file ∈ last, false = (w.root.join ⟨file⟩).same p := by
      intro file hfile
      rw [Bool.eq_iff_iff, h.same_join_iff hp hfile, hpid]
      simp
    have hout := h.outside hnone hkept hcomponents hkeys
    rwa [Store.removeWhere_false, Store.removeWhere_false] at hout

theorem removeFile (h : w.Reflects last) (hp : Path.IsUnder w.root p)
    (hok : w.removeFile k p d = (w', d', .ok r)) :
    w'.Reflects ((Operation.removeFile p).latest k w d last) := by
  obtain ⟨t, d₁, hdrops, _, hs⟩ := removeFile_ok hp.isAbsolute hok
  exact (h.dropFile hp hdrops).settles hs

/-- Ids of files are in the scope of a folder as their paths are. -/
theorem isBelow_join_iff (h : w.Reflects last) {names : List String}
    (hfolder : Path.LeadsFrom w.root folder names) {file : String} (hfile : file ∈ last) :
    (w.root.join ⟨file⟩).isBelow folder = true ↔
      names = [] ∨ FileId.isWithin file ("/".intercalate names) = true := by
  obtain ⟨q, hq, hid, _⟩ := h.files file hfile
  obtain ⟨more, hmore, hne, rfl⟩ := hq.names hid
  have hbelow : (w.root.join ⟨"/".intercalate more⟩).isBelow folder = q.isBelow folder := by
    rw [Path.isBelow, hq.components_join_id hid, Path.isBelow]
  rw [hbelow, hfolder.isBelow_iff hmore]
  by_cases hempty : names = []
  · simp [hempty]
  · rw [hfolder.isWithin_id_iff hmore hempty hne]
    simp [hempty]

/-- The files of a folder leave the tracker and the graphs. -/
theorem dropBelow (h : w.Reflects last) (hfolder : Path.IsUnder w.root folder)
    (hdrops : w.tracker.Drops t (FileId.isWithin · folder.normalized = true)) :
    Reflects (Workspace.dropBelow { w with tracker := t } folder)
      (last.outside w.root (·.isBelow folder)) := by
  obtain ⟨names, hnames⟩ := hfolder
  have hkeys : ∀ key ∈ t.watched, key ∈ w.tracker.watched := fun key hkey =>
    ((hdrops.watched key).mp hkey).1
  have hcomponents : ∀ q r : Path, q.components = r.components →
      q.isBelow folder = r.isBelow folder := by
    intro q r hqr
    rw [Path.isBelow, Path.isBelow, hqr]
  have hkept : ∀ (q : Path) (file : String), Path.IsUnder w.root q →
      FileId.ofPath? w.root q = some file → q.isBelow folder = false →
      q.normalized ∈ w.tracker.watched → q.normalized ∈ t.watched := by
    intro q file hq hid hout hmem
    obtain ⟨more, hmore, hne, _⟩ := hq.names hid
    refine (hdrops.watched _).mpr ⟨hmem, fun hin => ?_⟩
    by_cases hempty : names = []
    · rw [(hnames.isBelow_iff hmore).mpr (by simp [hempty])] at hout
      cases hout
    · have hpre := (hnames.isWithin_key_iff hmore hempty hne).mp hin
      rw [(hnames.isBelow_iff hmore).mpr hpre] at hout
      cases hout
  have hroot : folder.same w.root = true ↔ names = [] := by
    rw [Path.same, beq_iff_eq, hnames.components]
    simp
  unfold Workspace.dropBelow
  by_cases hempty : names = []
  · rw [if_pos (hroot.mpr hempty)]
    refine h.outside ?_ hkept hcomponents hkeys
    intro file hfile
    rw [(h.isBelow_join_iff hnames hfile).mpr (Or.inl hempty)]
    simp [FileId.isWithin, show Path.trimSeparators "" = "" by decide]
  · rw [if_neg (by simpa [hroot] using hempty), hnames.fileId, if_neg hempty, Option.elim_some]
    refine h.outside ?_ hkept hcomponents hkeys
    intro file hfile
    rw [Bool.eq_iff_iff, h.isBelow_join_iff hnames hfile]
    simp [hempty]

theorem removeFolder (h : w.Reflects last) (hfolder : Path.IsUnder w.root folder)
    (hok : w.removeFolder k folder d = (w', d', .ok r)) :
    w'.Reflects ((Operation.removeFolder folder).latest k w d last) := by
  obtain ⟨t, d₁, hdrops, _, hs⟩ := removeFolder_ok hfolder.isAbsolute hok
  exact (h.dropBelow hfolder hdrops).settles hs

theorem sync (h : w.Reflects last) (hok : w.sync k d = (w', d', .ok r)) :
    w'.Reflects (Operation.sync.latest k w d last) := by
  obtain ⟨t, d₁, keys, hscan, _, hs, hlatest⟩ := sync_ok hok
  rw [hlatest last]
  refine h.advance (fun key hkey => hscan.watched ▸ hkey)
    (fun key hkey => h.keys key (hscan.watched ▸ hkey)) ?_ hs
  intro p hp file hid
  obtain ⟨key, hkey, rfl⟩ := List.mem_map.mp hp
  rw [hscan.watched]
  exact h.isUnder_of_mem_files (Tracker.mk_mem_files.mpr ((hscan.mem_changed key).mp hkey).1) hid

theorem reindex (h : w.Reflects last) (hok : w.reindex k d = (w', d', .ok r)) :
    w'.Reflects (Operation.reindex.latest k w d last) := by
  have hempty : Reflects { w with imports := w.imports.clear, calls := w.calls.clear } ∅ :=
    reflects_empty (.empty rfl rfl rfl) (.empty rfl rfl rfl) h.keys
  refine (hempty.indexAll ?_).settles (reindex_ok hok)
  exact fun p hp file hid => h.isUnder_of_mem_files hp hid

/-- A file that is not tracked has no fragment. -/
theorem outside_of_not_tracked (h : w.Reflects last) (hp : Path.IsUnder w.root p)
    (htracked : w.tracker.isTracked p = false) : last.outside w.root (·.same p) = last := by
  apply Std.ExtTreeMap.ext_getElem?
  intro file
  rw [Latest.getElem?_outside]
  split
  · rename_i hsame
    by_cases hfile : file ∈ last
    · obtain ⟨q, hq, hid, hmem⟩ := h.files file hfile
      have hpq := hq.eq_of_fileId hp hid ((h.same_join_iff hp hfile).mp hsame)
      rw [hpq, ← Tracker.isTracked_iff, htracked] at hmem
      cases hmem
    · simp [hfile]
  · rfl

theorem applyDeleted (h : w.Reflects last) (hp : Path.IsUnder w.root p)
    (hok : w.applyDeleted k p d = (w', d', .ok r)) :
    w'.Reflects (last.outside w.root (·.same p)) ∧ w'.root = w.root := by
  obtain ⟨t, hdrops, _, rfl⟩ := applyDeleted_ok hp.isAbsolute hok
  cases htracked : w.tracker.isTracked p with
  | true =>
    exact ⟨h.dropFile hp hdrops, (frame_dropFile _ _).root⟩
  | false =>
    have hkept : ∀ key ∈ w.tracker.watched, key ∈ t.watched := by
      intro key hkey
      refine (hdrops.watched key).mpr ⟨hkey, ?_⟩
      rintro rfl
      rw [← Tracker.isTracked_iff, htracked] at hkey
      cases hkey
    refine ⟨?_, rfl⟩
    rw [h.outside_of_not_tracked hp htracked]
    exact h.withTracker hkept fun key hkey => h.keys key ((hdrops.watched key).mp hkey).1

theorem applyModified (h : w.Reflects last) (hp : Path.IsUnder w.root p)
    (hok : w.applyModified k p d = (w', d', .ok r)) :
    w'.Reflects (if r.indexed = 0 then last else last.index k d' w' p) ∧ w'.root = w.root := by
  obtain ⟨t, b, htracker, hw, hlatest⟩ := applyModified_ok hp.isAbsolute hok
  have hframe := frame_indexAll k d' { w with tracker := t } (if b then [p] else [])
  have hps : ∀ q ∈ (if b then [p] else []), q = p := by
    cases b <;> simp
  refine ⟨?_, hw ▸ hframe.root⟩
  rw [hlatest last, hw]
  rcases htracker with ⟨htracked, hrefresh⟩ | ⟨hext, _⟩
  · obtain ⟨_, hwatched, _, _⟩ := Tracker.refreshFile_ok hrefresh
    refine h.advance (fun key hkey => hwatched ▸ hkey)
      (fun key hkey => h.keys key (hwatched ▸ hkey)) ?_ (Settles.refl _ _)
    intro q hq _ _
    rw [hps q hq, hwatched]
    exact ⟨hp, Tracker.isTracked_iff.mp htracked⟩
  · refine h.advance_of_extends hext (fun q hq => hps q hq ▸ hp) ?_ (Settles.refl _ _)
    intro q hq
    exact ⟨hps q hq ▸ hp, (hext.watched _).mpr (Or.inr (List.mem_map_of_mem hq))⟩

theorem apply (h : w.Reflects last) {modified deleted : List Path}
    (hpaths : ∀ p ∈ modified ++ deleted, Path.IsUnder w.root p)
    (hok : w.apply k modified deleted d = (w', d', .ok r)) :
    w'.Reflects ((Operation.apply modified deleted).latest k w d last) := by
  obtain ⟨w₁, d₁, ⟨hend, _⟩, hs⟩ := apply_ok w.root
    (motive := fun v _ last => v.Reflects last ∧ v.root = w.root)
    (by
      rintro p hp v e v' e' r last ⟨hv, hroot⟩ hstep
      rw [← hroot] at hpaths ⊢
      exact hv.applyDeleted (hpaths p (List.mem_append_right _ hp)) hstep)
    (by
      rintro p hp v e v' e' r last ⟨hv, hroot⟩ hstep
      rw [← hroot] at hpaths ⊢
      exact hv.applyModified (hpaths p (List.mem_append_left _ hp)) hstep)
    last ⟨h, rfl⟩ rfl hok
  exact hend.settles hs

/-- Every operation on clean paths keeps the graphs in step with the last fragments. -/
theorem step (h : w.Reflects last) {op : Operation} (hclean : op.IsClean ⟨w, d, last⟩)
    (hok : op.run k w d = (w', d', .ok r)) : w'.Reflects (op.latest k w d last) := by
  cases op with
  | addFile p => exact h.addFile (hclean.paths p List.mem_cons_self) hok
  | addFolder folder =>
    exact h.addFolder (hclean.paths folder List.mem_cons_self) hclean.disk hok
  | removeFile p => exact h.removeFile (hclean.paths p List.mem_cons_self) hok
  | removeFolder folder => exact h.removeFolder (hclean.paths folder List.mem_cons_self) hok
  | sync => exact h.sync hok
  | apply modified deleted => exact h.apply hclean.paths hok
  | reindex => exact h.reindex hok

end Workspace.Reflects

/-! ## The contents of the graphs -/

/-- The graphs are made of the fragments of files, all of which are tracked, and of nothing else. -/
structure Workspace.IsMadeOf (w : Workspace) (last : Latest) : Prop where
  fileNodes : ∀ id, w.imports.nodes[id]? = if id ∈ last then some (Node.file id) else none
  importEdges : w.imports.edges.Perm (last.toList.flatMap (·.2.importEdges))
  importUnresolved : w.imports.unresolved = []
  entityNodes : w.calls.nodes = byId (last.toList.flatMap (·.2.entityNodes))
  callEdges : w.calls.edges.Perm (last.toList.flatMap (·.2.callEdges))
  callUnresolved : w.calls.unresolved.Perm (last.toList.flatMap (·.2.unresolved))
  tracked : ∀ file ∈ last, ∃ p, FileId.ofPath? w.root p = some file ∧ w.tracker.isTracked p = true

/-- A store that mirrors the last fragments is like the one that all of them are added to. -/
theorem Latest.similar_putAll {last : Latest} {kind : StoreKind} {s : Store}
    (h : s.Mirrors (last.slice kind)) :
    s.Similar (Store.putAll { kind } (last.toList.map (·.2.slice kind))) := by
  have hget : ∀ e ∈ last.toList, last.slice kind e.1 = e.2.slice kind := by
    intro e he
    have hsome : last[e.1]? = some e.2 := Std.ExtTreeMap.mem_toList_iff_getElem?_eq_some.mp he
    rw [Latest.slice, hsome]
    rfl
  have hfst : (last.toList.map fun e => (e.1, e.2.slice kind)).map (·.1) = last.keys := by
    rw [List.map_map, ← Std.ExtTreeMap.map_fst_toList_eq_keys]
    rfl
  have hempty : Store.Mirrors { kind } fun _ => {} := .empty rfl rfl rfl
  have hall := hempty.putAll (last.slice kind) (last.toList.map fun e => (e.1, e.2.slice kind))
    (hfst ▸ Std.ExtTreeMap.nodup_keys) (fun _ _ => rfl)
    (by
      intro p hp
      obtain ⟨e, he, rfl⟩ := List.mem_map.mp hp
      exact hget e he ▸ h.owned e.1)
    (by
      intro p hp
      obtain ⟨e, he, rfl⟩ := List.mem_map.mp hp
      exact hget e he)
    (by
      intro file hfile
      rw [hfst, Std.ExtTreeMap.mem_keys] at hfile
      simp [Latest.slice, hfile])
  rw [List.map_map] at hall
  exact h.similar hall

namespace Workspace.Reflects

variable {w : Workspace} {last : Latest}

theorem import_nodes (h : w.Reflects last) (file : String) :
    (last.slice .import file).nodes = if file ∈ last then [Node.file file] else [] := by
  by_cases hfile : file ∈ last
  · obtain ⟨f, hf⟩ := Option.isSome_iff_exists.mp
      (Std.ExtTreeMap.isSome_getElem?_iff_mem.mpr hfile)
    obtain ⟨a, rfl⟩ := h.fragments file f hf
    rw [if_pos hfile, Latest.slice, hf]
    exact a.fileNodes_fragment file
  · simp [Latest.slice, hfile]

/-- The import graph has one node for each file with a fragment. -/
theorem fileNodes (h : w.Reflects last) (id : String) :
    w.imports.nodes[id]? = if id ∈ last then some (Node.file id) else none := by
  rw [h.imports.nodes, Slice.node?, h.import_nodes]
  by_cases hid : id ∈ last
  · have howner : owningFile id = id := by
      refine ((h.imports.owned id).nodes (Node.file id) ?_).2
      rw [h.import_nodes, if_pos hid]
      exact List.mem_singleton_self _
    simp [howner, hid, Node.file]
  · by_cases howner : owningFile id ∈ last
    · have hne : owningFile id ≠ id := fun e => hid (e ▸ howner)
      simp [howner, hid, Node.file, hne]
    · simp [howner, hid]

theorem isMadeOf (h : w.Reflects last) : w.IsMadeOf last := by
  have himports := Latest.similar_putAll h.imports
  have hcalls := Latest.similar_putAll h.calls
  have himportEdges := himports.edges
  have himportUnresolved := himports.unresolved
  have hcallNodes := hcalls.nodes
  have hcallEdges := hcalls.edges
  have hcallUnresolved := hcalls.unresolved
  rw [(Store.putAll_contents _ _).2.1, List.flatMap_map] at himportEdges hcallEdges
  rw [(Store.putAll_contents _ _).2.2, List.flatMap_map] at himportUnresolved hcallUnresolved
  rw [(Store.putAll_contents _ _).1, List.flatMap_map] at hcallNodes
  refine ⟨h.fileNodes, himportEdges, ?_, hcallNodes, hcallEdges, hcallUnresolved, ?_⟩
  · have hnil : last.toList.flatMap (fun e => (e.2.slice .import).unresolved) = [] := by
      simp [Fragment.slice, List.flatMap_eq_nil_iff]
    rw [hnil] at himportUnresolved
    exact List.perm_nil.mp himportUnresolved
  · intro file hfile
    obtain ⟨p, _, hid, hmem⟩ := h.files file hfile
    exact ⟨p, hid, Tracker.isTracked_iff.mpr hmem⟩

end Workspace.Reflects

/-! ## Opening -/

/-- The documents that settings name. -/
def WorkspaceSettings.documents (s : WorkspaceSettings) : List Path :=
  s.importGraph.toList ++ s.callGraph.toList ++ s.watchState.toList

theorem Disk.readText_of_not_isFile {d : Disk} {p : Path} (h : d.isFile p = false) :
    ∃ f, d.readText p = .error f := by
  unfold Disk.isFile at h
  unfold Disk.readText Disk.read
  cases hfind : d.find p with
  | error f => exact ⟨f, rfl⟩
  | ok spot =>
    cases spot with
    | file names content => simp [hfind] at h
    | folder names inside => exact ⟨.isFolder, rfl⟩
    | absent names name slashed => exact ⟨.missing, rfl⟩

theorem Store.openAt_of_no_document {kind : StoreKind} {path : Option Path} {d : Disk}
    (h : ∀ p ∈ path, d.isFile p = false) : Store.openAt kind path d = { kind, path } := by
  have hnone : path.bind (Store.documentAt? d) = none := by
    cases path with
    | none => rfl
    | some p =>
      obtain ⟨f, hf⟩ := Disk.readText_of_not_isFile (h p rfl)
      simp [Store.documentAt?, hf]
  simp [Store.openAt, Store.load, hnone, Store.clear]

theorem Tracker.load_of_no_document {p : Path} {d : Disk} (h : d.isFile p = false) :
    Tracker.load { path := some p } d = ({ path := some p }, false) := by
  obtain ⟨f, hf⟩ := Disk.readText_of_not_isFile h
  simp [Tracker.load, hf]

theorem Tracker.openAt_of_no_document {k : Toolkit} {p : Path} {d : Disk}
    (h : d.isFile p = false) : Tracker.openAt k p d = ({ path := some p }, d, .ok ()) := by
  rw [Tracker.openAt, Tracker.load_of_no_document h]

/-- A workspace without documents starts empty. -/
theorem Workspace.openAt_of_no_documents {k : Toolkit} {languages : List Language}
    {s : WorkspaceSettings} {d d' : Disk} {w : Workspace}
    (hnew : ∀ p ∈ s.documents, d.isFile p = false)
    (h : Workspace.openAt k languages s d = (d', .ok w)) :
    ∃ root, s.root.absoluteFrom? d.currentPath = some root ∧ d' = d ∧ w =
      { root, languages
        imports := { kind := .import, path := s.importGraph }
        calls := { kind := .call, path := s.callGraph }
        tracker := { path := s.watchState, extensions := Language.extensionsOf languages } } := by
  have himports : ∀ p ∈ s.importGraph, d.isFile p = false := fun p hp =>
    hnew p (by simp [WorkspaceSettings.documents, Option.mem_def.mp hp])
  have hcalls : ∀ p ∈ s.callGraph, d.isFile p = false := fun p hp =>
    hnew p (by simp [WorkspaceSettings.documents, Option.mem_def.mp hp])
  unfold Workspace.openAt at h
  rw [Store.openAt_of_no_document himports, Store.openAt_of_no_document hcalls] at h
  split at h
  · cases h
  · rename_i root hroot
    cases hwatch : s.watchState with
    | none =>
      rw [hwatch] at h
      cases h
      exact ⟨root, hroot, rfl, rfl⟩
    | some p =>
      have hp := hnew p (by simp [WorkspaceSettings.documents, hwatch])
      simp only [hwatch, Tracker.openAt_of_no_document hp] at h
      cases h
      exact ⟨root, hroot, rfl, rfl⟩

theorem Workspace.reflects_of_openAt {k : Toolkit} {languages : List Language}
    {s : WorkspaceSettings} {d d' : Disk} {w : Workspace}
    (hnew : ∀ p ∈ s.documents, d.isFile p = false)
    (h : Workspace.openAt k languages s d = (d', .ok w)) : w.Reflects ∅ := by
  obtain ⟨root, _, _, rfl⟩ := Workspace.openAt_of_no_documents hnew h
  exact Workspace.reflects_empty (.empty rfl rfl rfl) (.empty rfl rfl rfl) (by simp)

/-! ## Whole runs -/

theorem Run.reflects {k : Toolkit} {allowed : Operation → Moment → Prop} {start m : Moment}
    (hclean : ∀ op m, allowed op m → op.IsClean m)
    (hstart : start.workspace.Reflects start.latest) (h : Run k allowed start m) :
    m.workspace.Reflects m.latest := by
  induction h with
  | start => exact hstart
  | edit _ _ ih => exact ih
  | step _ op now hallowed hok ih => exact ih.step (hclean op _ hallowed) hok

/-! ## A workspace in memory -/

namespace Echo

/-- A text as a call of the name that it spells. -/
def tree (text : String) : SyntaxTree :=
  ⟨"program", true, none, 0, text.length,
    [⟨"call_expression", true, none, 0, text.length,
      [⟨"identifier", true, some "function", 0, text.length, []⟩]⟩]⟩

/-- Every text is a call, and its own digest. -/
def toolkit : Toolkit where
  grammars _ text := some (tree text)
  digest content := (String.fromUTF8? content).getD ""
  now := default

/-- One file in a folder. -/
def disk (content : String) : Disk where
  top := .folder "w" (.file "a.ts" content.toUTF8 .nil) .nil
  current := []

def file : Path := ⟨"/w/a.ts"⟩

/-- The folder as a workspace, which is kept in memory. -/
def workspace : Workspace where
  root := ⟨"/w"⟩
  tracker := { extensions := Language.extensionsOf Language.all }

theorem openAt_disk (content : String) :
    Workspace.openAt toolkit Language.all { root := ⟨"/w"⟩ } (disk content) =
      (disk content, .ok workspace) := by
  have hroot : Path.absoluteFrom? ⟨"/w"⟩ (Disk.absolute []) = some ⟨"/w"⟩ := by decide +kernel
  change Path.absoluteFrom? ⟨"/w"⟩ (disk content).currentPath = some ⟨"/w"⟩ at hroot
  rw [Workspace.openAt, hroot]
  rfl

theorem isUnder_file : Path.IsUnder ⟨"/w"⟩ file :=
  ⟨["a.ts"], by decide +kernel, ["w"], ⟨by decide +kernel, by decide +kernel⟩, by decide +kernel⟩

theorem plainBelow_disk (content : String) : (disk content).PlainBelow ⟨"/w"⟩ := by
  intro names inside hfind
  have hfolder : (disk content).find ⟨"/w"⟩ =
      .ok (.folder ["w"] (.file "a.ts" content.toUTF8 .nil)) := rfl
  rw [hfolder] at hfind
  cases hfind
  exact ⟨by decide +kernel, trivial⟩

theorem isClean {op : Operation} {w : Workspace} {content : String} {last : Latest}
    (hroot : w.root = ⟨"/w"⟩) (hpaths : ∀ p ∈ op.paths, p = file) :
    op.IsClean ⟨w, disk content, last⟩ := by
  refine ⟨fun p hp => ?_, ?_⟩
  · rw [hpaths p hp, hroot]
    exact isUnder_file
  · rw [hroot]
    exact plainBelow_disk content

end Echo

/-! ## Main statement -/

/--
In every state of a run on clean paths, from a workspace without documents, the graphs are made of
the last fragments.
-/
theorem Run.graphs_hold_last_fragments {k : Toolkit} {languages : List Language}
    {s : WorkspaceSettings} {d d' : Disk} {w : Workspace} {m : Moment}
    (hnew : ∀ p ∈ s.documents, d.isFile p = false)
    (hopen : Workspace.openAt k languages s d = (d', .ok w))
    (hrun : Run k Operation.IsClean { workspace := w, disk := d' } m) :
    m.workspace.IsMadeOf m.latest := by
  have hstart := Workspace.reflects_of_openAt hnew hopen
  exact (hrun.reflects (fun _ _ h => h) hstart).isMadeOf

theorem Run.graphs_hold_last_fragments_echo :
    ∃ m, Run Echo.toolkit Operation.IsClean ⟨Echo.workspace, Echo.disk "f", ∅⟩ m ∧
      m.workspace.calls.unresolved.map (·.callee) = ["g"] ∧ m.workspace.IsMadeOf m.latest := by
  have hstart : Run Echo.toolkit Operation.IsClean ⟨Echo.workspace, Echo.disk "f", ∅⟩ _ := .start
  have hadd := hstart.next (.addFile Echo.file)
    (Echo.isClean rfl (by simp [Operation.paths])) (by decide +kernel)
  have hsync := (hadd.edit (Echo.disk "g")).next .sync
    (Echo.isClean (by decide +kernel) (by simp [Operation.paths])) (by decide +kernel)
  exact ⟨_, hsync, by decide +kernel, Run.graphs_hold_last_fragments
    (by simp [WorkspaceSettings.documents]) (Echo.openAt_disk "f") hsync⟩

end SourceGraph
