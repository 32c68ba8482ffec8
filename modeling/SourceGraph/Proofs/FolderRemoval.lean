import SourceGraph.Proofs.Holdings

/-!
# Removal of a folder

The removal of a folder should be that of its tracked files, one after the other. The tracker compares
the keys of paths, and the graphs the ids of files, which are relative to the root. The two agree unless
the root lies below the folder: then the folder has no id, and the graphs keep what they hold.

* `Tracker.Drops.unique`: trackers without the same keys.
* `Workspace.forEach_removeFile`: what the removal of some files leaves.
* `Workspace.Forgets`: the graphs follow the tracker.
* `Workspace.Accounts.restamps_iff`, `Workspace.Accounts.restamps_iff_of_isAbove`: when the graphs agree.
* `Run.folder_removed_as_files_unless_above`: the removal of a folder and that of its files.
-/

set_option autoImplicit false

namespace SourceGraph

/-! ## Removals one after the other -/

/-- If there are digests of tracked files only, a tracker is known by the keys that it lost. -/
theorem Tracker.Drops.unique {t t₁ t₂ : Tracker} {gone gone' : String → Prop}
    (h₁ : t.Drops t₁ gone) (h₂ : t.Drops t₂ gone') (hsound : t.IsSound)
    (hr₁ : t.Revises t₁) (hr₂ : t.Revises t₂) (hgone : ∀ key ∈ t.watched, gone key ↔ gone' key) :
    t₁ = t₂ := by
  have hwatched : ∀ key, key ∈ t₁.watched ↔ key ∈ t₂.watched := by
    intro key
    rw [h₁.watched, h₂.watched]
    exact and_congr_right fun hkey => not_congr (hgone key hkey)
  have hnone : ∀ {u : Tracker} {key : String}, u.IsSound → key ∉ u.watched → u.hashes[key]? = none := by
    intro u key hu hkey
    exact Std.ExtTreeMap.getElem?_eq_none fun hmem => hkey (hu key hmem)
  refine Tracker.eq_of_entry (hr₁.path.trans hr₂.path.symm) (hr₁.extensions.trans hr₂.extensions.symm)
    fun key => Prod.ext ?_ ?_
  · change t₁.watched.contains key = t₂.watched.contains key
    rw [Bool.eq_iff_iff, Std.ExtTreeSet.contains_iff_mem, Std.ExtTreeSet.contains_iff_mem]
    exact hwatched key
  · change t₁.hashes[key]? = t₂.hashes[key]?
    by_cases hkey : key ∈ t₁.watched
    · have hkey' := (hwatched key).mp hkey
      rw [h₁.hash key ((h₁.watched key).mp hkey).2, h₂.hash key ((h₂.watched key).mp hkey').2]
    · have hkey' : key ∉ t₂.watched := fun hmem => hkey ((hwatched key).mpr hmem)
      rw [hnone (hr₁.sound hsound) hkey, hnone (hr₂.sound hsound) hkey']

namespace Workspace

variable {k : Toolkit} {d d' : Disk} {w w' : Workspace} {r : Report}

/-- Whether one of some paths has an id. -/
def isIdOf (root : Path) (ps : List Path) (file : String) : Bool :=
  ps.any fun p => FileId.ofPath? root p == some file

theorem isIdOf_iff {root : Path} {ps : List Path} {file : String} :
    isIdOf root ps file = true ↔ ∃ p ∈ ps, FileId.ofPath? root p = some file := by
  simp [isIdOf]

/-- Some files are removed, one after the other. -/
theorem forEach_removeFile {ps : List Path} (hps : ∀ p ∈ ps, p.IsClean)
    (h : forEach (removeFile k) ps w d = (w', d', .ok r)) :
    w.tracker.Revises w'.tracker ∧ w.tracker.Drops w'.tracker (· ∈ ps.map Path.normalized) ∧
      (dropWhere { w with tracker := w'.tracker } (isIdOf w.root ps)).Restamps w' := by
  induction ps generalizing w d r with
  | nil =>
    cases h
    refine ⟨.refl _, ⟨rfl, by simp, fun _ _ => rfl⟩, ?_⟩
    have hnone : isIdOf w'.root [] = fun _ => false := rfl
    rw [hnone, dropWhere_false]
    exact .refl _
  | cons p ps ih =>
    obtain ⟨w₁, d₁, r₁, r₂, hfirst, hrest⟩ := forEach_cons_ok h
    obtain ⟨hrevises, hdrops, hrestamps⟩ := ih (fun q hq => hps q (List.mem_cons_of_mem _ hq)) hrest
    have hp := (hps p List.mem_cons_self).isAbsolute
    have hrevises₁ := removeFile_revises hfirst
    obtain ⟨t, mid, hdrops₁, _, hsettles⟩ := removeFile_ok hp hfirst
    have htracker : w₁.tracker = t := ((frame_dropFile _ _).trans hsettles.frame).tracker
    have hroot : w₁.root = w.root := ((frame_dropFile _ _).trans hsettles.frame).root
    refine ⟨hrevises₁.trans hrevises, ?_, ?_⟩
    · have hboth := (htracker ▸ hdrops₁).trans hdrops
      simpa only [List.map_cons, List.mem_cons] using hboth
    · -- what the first removal left goes through the others
      have hone : (dropWhere { w with tracker := w'.tracker }
          fun file => FileId.ofPath? w.root p == some file).Restamps
            { w₁ with tracker := w'.tracker } := by
        obtain ⟨x, y, hw⟩ := hsettles.1
        have hdrop := dropFile_eq { w with tracker := t } p
        refine ⟨x, y, ?_⟩
        rw [hw, hdrop]
        rfl
      have hall : dropWhere { w with tracker := w'.tracker } (isIdOf w.root (p :: ps)) =
          (dropWhere { w with tracker := w'.tracker }
            fun file => FileId.ofPath? w.root p == some file).dropWhere (isIdOf w.root ps) :=
        (dropWhere_dropWhere _ _ _).symm
      have hids : isIdOf w₁.root ps = isIdOf w.root ps := by rw [hroot]
      rw [hall]
      rw [hids] at hrestamps
      exact (hone.dropWhere _).trans hrestamps

end Workspace

/-! ## The folder and its files -/

namespace Workspace

/-- The graphs follow the tracker: what it drops they drop, and what they drop is not tracked. -/
structure Forgets (w w' : Workspace) : Prop where
  untracked : ∀ p ∈ w.tracker.files, p ∉ w'.tracker.files → ¬ w'.Shows p
  dropped : ∀ p, p.IsClean → w.Shows p → ¬ w'.Shows p → p ∉ w'.tracker.files

variable {strict : Prop} {k : Toolkit} {d d₁ d₂ : Disk} {w w' w₁ w₂ : Workspace} {folder p : Path}
  {ps : List Path} {r r₁ r₂ : Report}

theorem Restamps.congr {v v' : Workspace} (h : v.Restamps w) (h' : v'.Restamps w') :
    w.Restamps w' ↔ v.Restamps v' :=
  ⟨fun hw => (h.trans hw).trans h'.symm, fun hv => (h.symm.trans hv).trans h'⟩

theorem removeFolder_parts (hfolder : folder.IsClean)
    (h : w.removeFolder k folder d = (w₁, d₁, .ok r₁)) :
    w.tracker.Drops w₁.tracker (FileId.isWithin · folder.normalized = true) ∧
      (dropBelow { w with tracker := w₁.tracker } folder).Restamps w₁ := by
  obtain ⟨t, mid, hdrops, _, hsettles⟩ := removeFolder_ok hfolder.isAbsolute h
  rw [((frame_dropBelow _ _).trans hsettles.frame).tracker]
  exact ⟨hdrops, hsettles.1⟩

/-- The tracked files below a folder. -/
def AreFilesOf (ps : List Path) (folder : Path) (w : Workspace) : Prop :=
  ∀ p, p ∈ ps ↔ p ∈ w.tracker.files ∧ p.isBelow folder = true

namespace Accounts

theorem isClean_of_mem (h : Accounts strict w) (hps : AreFilesOf ps folder w) (hp : p ∈ ps) :
    p.IsClean :=
  h.tracked p ((hps p).mp hp).1

theorem mem_removeFolder (h : Accounts strict w) (hfolder : folder.IsClean)
    (hok : w.removeFolder k folder d = (w₁, d₁, .ok r₁)) :
    p ∈ w₁.tracker.files ↔ p ∈ w.tracker.files ∧ ¬ p.isBelow folder = true := by
  rw [Tracker.mem_files, (removeFolder_parts hfolder hok).1.watched, ← Tracker.mem_files]
  exact and_congr_right fun hp => not_congr (h.isWithin_iff hfolder hp)

/-- The folder and its files leave the same tracker. -/
theorem tracker_eq (h : Accounts strict w) (hfolder : folder.IsClean) (hps : AreFilesOf ps folder w)
    (hok : w.removeFolder k folder d = (w₁, d₁, .ok r₁))
    (hfiles : forEach (Workspace.removeFile k) ps w d = (w₂, d₂, .ok r₂)) :
    w₁.tracker = w₂.tracker := by
  obtain ⟨hrevises, hdrops, _⟩ := forEach_removeFile (fun p => h.isClean_of_mem hps) hfiles
  refine (removeFolder_parts hfolder hok).1.unique hdrops h.sound (removeFolder_revises hok)
    hrevises fun key hkey => ?_
  have hmem : Path.mk key ∈ w.tracker.files := Tracker.mk_mem_files.mpr hkey
  rw [show FileId.isWithin key folder.normalized = true ↔ (Path.mk key).isBelow folder = true from
    h.isWithin_iff hfolder hmem, List.mem_map]
  constructor
  · exact fun hbelow => ⟨_, (hps _).mpr ⟨hmem, hbelow⟩, (h.tracked _ hmem).normalized_eq⟩
  · rintro ⟨q, hq, hkey⟩
    have hsame : q = Path.mk key := by rw [← hkey, (h.isClean_of_mem hps hq).key]
    rw [← hsame]
    exact ((hps q).mp hq).2

/-- The file at a clean path is among those of a list if the path is. -/
theorem isIdOf_iff_mem (h : Accounts strict w) (hps : AreFilesOf ps folder w) (hp : p.IsClean)
    {file : String} (hid : FileId.ofPath? w.root p = some file) :
    isIdOf w.root ps file = true ↔ p ∈ ps := by
  rw [isIdOf_iff]
  constructor
  · rintro ⟨q, hq, hid'⟩
    rw [hp.eq_of_fileId (h.isClean_of_mem hps hq) h.root hid hid']
    exact hq
  · exact fun hmem => ⟨p, hmem, hid⟩

theorem shows_removeFiles (h : Accounts strict w) (hps : AreFilesOf ps folder w)
    (hfiles : forEach (Workspace.removeFile k) ps w d = (w₂, d₂, .ok r₂)) (hp : p ∈ ps) :
    ¬ w₂.Shows p := by
  obtain ⟨_, _, hrestamps⟩ := forEach_removeFile (fun p => h.isClean_of_mem hps) hfiles
  rw [hrestamps.shows]
  rintro ⟨file, hid, hheld⟩
  have hout := (holdsFile_dropWhere.mp hheld).2
  rw [(h.isIdOf_iff_mem hps (h.isClean_of_mem hps hp) hid).mpr hp] at hout
  cases hout

theorem shows_removeFolder (h : Accounts strict w) (hfolder : folder.IsClean)
    (hout : ¬ folder.IsAbove w.root) (hok : w.removeFolder k folder d = (w₁, d₁, .ok r₁))
    (hp : p.IsClean) : w₁.Shows p ↔ w.Shows p ∧ ¬ p.isBelow folder = true := by
  obtain ⟨owned, hdrop, howned⟩ := dropBelow_eq (w := { w with tracker := w₁.tracker }) h.root
    hfolder hout
  have hrestamps := (removeFolder_parts hfolder hok).2
  rw [hdrop] at hrestamps
  rw [hrestamps.shows]
  constructor
  · rintro ⟨file, hid, hheld⟩
    obtain ⟨hheld, hkept⟩ := holdsFile_dropWhere.mp hheld
    refine ⟨⟨file, hid, hheld⟩, fun hbelow => ?_⟩
    rw [(howned p file hp hid).mpr hbelow] at hkept
    cases hkept
  · rintro ⟨⟨file, hid, hheld⟩, hbelow⟩
    refine ⟨file, hid, holdsFile_dropWhere.mpr ⟨hheld, ?_⟩⟩
    rw [Bool.eq_false_iff, ne_eq, howned p file hp hid]
    exact hbelow

theorem forgets_removeFolder (h : Accounts strict w) (hfolder : folder.IsClean)
    (hout : ¬ folder.IsAbove w.root) (hok : w.removeFolder k folder d = (w₁, d₁, .ok r₁)) :
    w.Forgets w₁ where
  untracked p hp hgone hshows := by
    rw [h.mem_removeFolder hfolder hok, not_and_not_right] at hgone
    exact ((h.shows_removeFolder hfolder hout hok (h.tracked p hp)).mp hshows).2 (hgone hp)
  dropped p hp hshows hgone htracked := by
    have hbelow := ((h.mem_removeFolder hfolder hok).mp htracked).2
    exact hgone ((h.shows_removeFolder hfolder hout hok hp).mpr ⟨hshows, hbelow⟩)

/-- The graphs agree if those of the files below the folder that they show are tracked. -/
theorem restamps_iff (h : Accounts strict w) (hfolder : folder.IsClean)
    (hps : AreFilesOf ps folder w) (hout : ¬ folder.IsAbove w.root)
    (hok : w.removeFolder k folder d = (w₁, d₁, .ok r₁))
    (hfiles : forEach (Workspace.removeFile k) ps w d = (w₂, d₂, .ok r₂)) :
    w₁.Restamps w₂ ↔
      ∀ p, p.IsClean → p.isBelow folder = true → w.Shows p → p ∈ w.tracker.files := by
  have htracker := h.tracker_eq hfolder hps hok hfiles
  obtain ⟨_, _, hrestamps₂⟩ := forEach_removeFile (fun p => h.isClean_of_mem hps) hfiles
  have hrestamps₁ := (removeFolder_parts hfolder hok).2
  rw [← htracker] at hrestamps₂
  obtain ⟨owned, hdrop, howned⟩ := dropBelow_eq (w := { w with tracker := w₁.tracker }) h.root
    hfolder hout
  rw [hdrop] at hrestamps₁
  rw [hrestamps₁.congr hrestamps₂, restamps_dropWhere_iff]
  constructor
  · rintro hsame p hp hbelow ⟨file, hid, hheld⟩
    have hmem : isIdOf w.root ps file = true := by
      rw [← hsame file hheld]
      exact (howned p file hp hid).mpr hbelow
    exact ((hps p).mp ((h.isIdOf_iff_mem hps hp hid).mp hmem)).1
  · intro htracked file hheld
    obtain ⟨p, hp, hid, _⟩ := h.held file hheld
    rw [Bool.eq_iff_iff, howned p file hp hid, h.isIdOf_iff_mem hps hp hid, hps p]
    exact ⟨fun hbelow => ⟨htracked p hp hbelow ⟨file, hid, hheld⟩, hbelow⟩, fun hmem => hmem.2⟩

/-- All files with an id lie below a folder above the root. -/
theorem isBelow_of_isAbove (h : Accounts strict w) (habove : folder.IsAbove w.root) (hp : p.IsClean)
    {file : String} (hid : FileId.ofPath? w.root p = some file) : p.isBelow folder = true := by
  obtain ⟨names, hnames⟩ := hp.isUnder_of_fileId h.root hid
  rw [Path.isBelow_iff, hnames.components]
  exact (Path.isBelow_iff.mp habove.1).trans (List.prefix_append _ _)

/-- Above the root the graphs agree if they show no tracked file. -/
theorem restamps_iff_of_isAbove (h : Accounts strict w) (hfolder : folder.IsClean)
    (hps : AreFilesOf ps folder w) (habove : folder.IsAbove w.root)
    (hok : w.removeFolder k folder d = (w₁, d₁, .ok r₁))
    (hfiles : forEach (Workspace.removeFile k) ps w d = (w₂, d₂, .ok r₂)) :
    w₁.Restamps w₂ ↔ ∀ p ∈ w.tracker.files, ¬ w.Shows p := by
  have htracker := h.tracker_eq hfolder hps hok hfiles
  obtain ⟨_, _, hrestamps₂⟩ := forEach_removeFile (fun p => h.isClean_of_mem hps) hfiles
  have hrestamps₁ := (removeFolder_parts hfolder hok).2
  rw [← htracker] at hrestamps₂
  have hnone := dropBelow_of_isAbove (w := { w with tracker := w₁.tracker }) habove
  rw [hnone, ← dropWhere_false { w with tracker := w₁.tracker }] at hrestamps₁
  rw [hrestamps₁.congr hrestamps₂, restamps_dropWhere_iff]
  constructor
  · rintro hsame p hp ⟨file, hid, hheld⟩
    have hclean := h.tracked p hp
    have hmem := (h.isIdOf_iff_mem hps hclean hid).mpr
      ((hps p).mpr ⟨hp, h.isBelow_of_isAbove habove hclean hid⟩)
    have hfalse := hsame file hheld
    rw [hmem] at hfalse
    cases hfalse
  · intro hempty file hheld
    obtain ⟨p, hp, hid, _⟩ := h.held file hheld
    symm
    rw [Bool.eq_false_iff, ne_eq, h.isIdOf_iff_mem hps hp hid]
    exact fun hmem => hempty p ((hps p).mp hmem).1 ⟨file, hid, hheld⟩

end Accounts

/-! ## Removals in memory -/

theorem removeFolder_of_isInMemory (h : w.IsInMemory) (k : Toolkit) (folder : Path) (d : Disk) :
    ∃ w₁ r₁, w.removeFolder k folder d = (w₁, d, .ok r₁) := by
  obtain ⟨t, removed, hremove, hpath⟩ :=
    Tracker.removeFolder_of_no_path h.tracker k (w.absolute folder) d
  have hmemory : (dropBelow { w with tracker := t } (w.absolute folder)).IsInMemory :=
    h.frame hpath (frame_dropBelow _ _)
  simp only [removeFolder, hremove, withTracker, saved_of_isInMemory hmemory]
  exact ⟨_, _, rfl⟩

theorem removeFile_of_isInMemory (h : w.IsInMemory) (k : Toolkit) (p : Path) (d : Disk) :
    ∃ w₁ r₁, w.removeFile k p d = (w₁, d, .ok r₁) ∧ w₁.IsInMemory := by
  obtain ⟨t, b, hremove, hpath⟩ := Tracker.removeFile_of_no_path h.tracker k (w.absolute p) d
  have hmemory : ((FileId.ofPath? w.root (w.absolute p)).elim { w with tracker := t }
      (dropFile { w with tracker := t })).IsInMemory :=
    h.frame hpath (frame_dropFile _ _)
  simp only [removeFile, hremove, withTracker, saved_of_isInMemory hmemory]
  exact ⟨_, _, rfl, hmemory⟩

theorem forEach_removeFile_of_isInMemory (h : w.IsInMemory) (k : Toolkit) (ps : List Path) (d : Disk) :
    ∃ w₂ r₂, forEach (removeFile k) ps w d = (w₂, d, .ok r₂) := by
  induction ps generalizing w with
  | nil => exact ⟨w, {}, rfl⟩
  | cons p ps ih =>
    obtain ⟨w₁, r₁, hfirst, hmemory⟩ := removeFile_of_isInMemory h k p d
    obtain ⟨w₂, r₂, hrest⟩ := ih hmemory
    exact ⟨w₂, r₁.merge r₂, by simp only [forEach, hfirst, hrest]⟩

end Workspace

/-! ## Main statement -/

/--
In every state of a run on clean paths, from a workspace without documents, the removal of a folder
leaves the tracker that the removal of its tracked files leaves, in any order. Unless the folder lies
above the root, the graphs drop what the tracker drops, and they are those that the removal of the
files leaves if no folder above the root was removed before. The removal of a folder above the root
leaves the graphs as they are.
-/
theorem Run.folder_removed_as_files_unless_above {k : Toolkit} {languages : List Language}
    {s : WorkspaceSettings} {d d' : Disk} {w : Workspace} {allowed : Operation → Moment → Prop}
    {m : Moment} {folder : Path} {ps : List Path}
    (hnew : ∀ p ∈ s.documents, d.isFile p = false)
    (hopen : Workspace.openAt k languages s d = (d', .ok w))
    (hplain : ∀ op m, allowed op m → op.IsPlain m) (hrun : Run k allowed ⟨w, d', ∅⟩ m)
    (hfolder : folder.IsClean) (hps : Workspace.AreFilesOf ps folder m.workspace) :
    (m.workspace.IsInMemory → ∃ w₁ r₁ w₂ r₂,
      m.workspace.removeFolder k folder m.disk = (w₁, m.disk, .ok r₁) ∧
      Workspace.forEach (Workspace.removeFile k) ps m.workspace m.disk = (w₂, m.disk, .ok r₂)) ∧
    ∀ w₁ d₁ r₁ w₂ d₂ r₂, m.workspace.removeFolder k folder m.disk = (w₁, d₁, .ok r₁) →
      Workspace.forEach (Workspace.removeFile k) ps m.workspace m.disk = (w₂, d₂, .ok r₂) →
      w₁.tracker = w₂.tracker ∧
      (¬ folder.IsAbove m.workspace.root → m.workspace.Forgets w₁ ∧
        (w₁.Restamps w₂ ↔ ∀ p, p.IsClean → p.isBelow folder = true → m.workspace.Shows p →
          p ∈ m.workspace.tracker.files) ∧
        ((∀ op m, allowed op m → op.IsConfined m) → w₁.Restamps w₂)) ∧
      (folder.IsAbove m.workspace.root →
        Workspace.Restamps { m.workspace with tracker := w₁.tracker } w₁ ∧
        (∀ p ∈ m.workspace.tracker.files, ¬ w₂.Shows p) ∧
        (w₁.Restamps w₂ ↔ ∀ p ∈ m.workspace.tracker.files, ¬ m.workspace.Shows p)) := by
  have h : m.workspace.Accounts (∀ op m, allowed op m → op.IsConfined m) :=
    hrun.accounts hplain (fun hs => hs) (Workspace.accounts_of_openAt hnew hopen _)
  refine ⟨fun hmemory => ?_, fun w₁ d₁ r₁ w₂ d₂ r₂ hok hfiles => ?_⟩
  · obtain ⟨w₁, r₁, hok⟩ := Workspace.removeFolder_of_isInMemory hmemory k folder m.disk
    obtain ⟨w₂, r₂, hfiles⟩ := Workspace.forEach_removeFile_of_isInMemory hmemory k ps m.disk
    exact ⟨w₁, r₁, w₂, r₂, hok, hfiles⟩
  · refine ⟨h.tracker_eq hfolder hps hok hfiles, fun hout => ?_, fun habove => ?_⟩
    · have hiff := h.restamps_iff hfolder hps hout hok hfiles
      refine ⟨h.forgets_removeFolder hfolder hout hok, hiff, fun hconfined => hiff.mpr ?_⟩
      rintro p hp _ ⟨file, hid, hheld⟩
      obtain ⟨q, hq, hid', htracked⟩ := h.held file hheld
      rw [hp.eq_of_fileId hq h.root hid hid']
      exact htracked hconfined
    · have hrestamps := (Workspace.removeFolder_parts hfolder hok).2
      have hnone := Workspace.dropBelow_of_isAbove
        (w := { m.workspace with tracker := w₁.tracker }) habove
      rw [hnone] at hrestamps
      refine ⟨hrestamps, fun p hp hshows => ?_, ?_⟩
      · obtain ⟨_, _, hrestamps₂⟩ :=
          Workspace.forEach_removeFile (fun p => h.isClean_of_mem hps) hfiles
        obtain ⟨file, hid, _⟩ := hrestamps₂.shows.mp hshows
        have hbelow := h.isBelow_of_isAbove habove (h.tracked p hp) hid
        exact h.shows_removeFiles hps hfiles ((hps p).mpr ⟨hp, hbelow⟩) hshows
      · exact h.restamps_iff_of_isAbove hfolder hps habove hok hfiles

namespace Echo

/-- The workspace after its file was added. -/
def added : Workspace := ((Operation.addFile file).run toolkit workspace (disk "f")).1

theorem areFilesOf {folder : Path} (h : file.isBelow folder = true) :
    Workspace.AreFilesOf [file] folder added := by
  have hfiles : added.tracker.files = [file] := by decide +kernel
  intro p
  rw [hfiles, List.mem_singleton]
  refine ⟨fun hp => ⟨hp, ?_⟩, And.left⟩
  rw [hp]
  exact h

theorem shows_added : added.Shows file :=
  ⟨"a.ts", by decide +kernel, Or.inr (Or.inr (Or.inr (by decide +kernel)))⟩

end Echo

theorem Run.folder_removed_as_files_unless_above_echo :
    (∃ w₁ r₁ w₂ r₂, Echo.added.removeFolder Echo.toolkit ⟨"/w"⟩ (Echo.disk "f") =
        (w₁, Echo.disk "f", .ok r₁) ∧
      Workspace.forEach (Workspace.removeFile Echo.toolkit) [Echo.file] Echo.added (Echo.disk "f") =
        (w₂, Echo.disk "f", .ok r₂) ∧
      Echo.added.Forgets w₁ ∧ w₁.Restamps w₂) ∧
    ∃ w₁ r₁ w₂ r₂, Echo.added.removeFolder Echo.toolkit ⟨"/"⟩ (Echo.disk "f") =
        (w₁, Echo.disk "f", .ok r₁) ∧
      Workspace.forEach (Workspace.removeFile Echo.toolkit) [Echo.file] Echo.added (Echo.disk "f") =
        (w₂, Echo.disk "f", .ok r₂) ∧
      w₁.tracker = w₂.tracker ∧ w₁.calls.unresolved.map (·.callee) = ["f"] ∧
      ¬ w₂.Shows Echo.file ∧ ¬ w₁.Restamps w₂ := by
  have hplain : ∀ (op : Operation) (m : Moment), op.IsPlain m ∧ op.IsConfined m → op.IsPlain m :=
    fun _ _ h => h.1
  have hclean : Echo.file.IsClean := ⟨["w", "a.ts"], by decide +kernel, by decide +kernel⟩
  have hstart : Run Echo.toolkit (fun op m => op.IsPlain m ∧ op.IsConfined m)
      ⟨Echo.workspace, Echo.disk "f", ∅⟩ _ := .start
  have hadd := hstart.next (.addFile Echo.file)
    ⟨⟨by simpa [Operation.paths] using hclean, nofun⟩, nofun⟩ (by decide +kernel)
  have hdisk : ((Operation.addFile Echo.file).run Echo.toolkit Echo.workspace
      (Echo.disk "f")).2.1 = Echo.disk "f" := by rfl
  rw [hdisk] at hadd
  have hmemory : Echo.added.IsInMemory := ⟨by decide +kernel, by decide +kernel, by decide +kernel⟩
  have hnew : ∀ p ∈ WorkspaceSettings.documents { root := ⟨"/w"⟩ }, (Echo.disk "f").isFile p = false :=
    by simp [WorkspaceSettings.documents]
  have hmem : Echo.file ∈ Echo.added.tracker.files := by decide +kernel
  have hroot : Path.IsClean ⟨"/w"⟩ := ⟨["w"], by decide +kernel, by decide +kernel⟩
  have htop : Path.IsClean ⟨"/"⟩ := ⟨[], by decide +kernel, by decide +kernel⟩
  constructor
  · obtain ⟨hok, hall⟩ := Run.folder_removed_as_files_unless_above hnew (Echo.openAt_disk "f") hplain
      hadd hroot (Echo.areFilesOf (by decide +kernel))
    obtain ⟨w₁, r₁, w₂, r₂, hfolder, hfiles⟩ := hok hmemory
    obtain ⟨_, hinside, _⟩ := hall _ _ _ _ _ _ hfolder hfiles
    obtain ⟨hforgets, _, hrestamps⟩ := hinside (by decide +kernel)
    exact ⟨w₁, r₁, w₂, r₂, hfolder, hfiles, hforgets, hrestamps fun _ _ h => h.2⟩
  · obtain ⟨hok, hall⟩ := Run.folder_removed_as_files_unless_above hnew (Echo.openAt_disk "f") hplain
      hadd htop (Echo.areFilesOf (by decide +kernel))
    obtain ⟨w₁, r₁, w₂, r₂, hfolder, hfiles⟩ := hok hmemory
    obtain ⟨htracker, _, habove⟩ := hall _ _ _ _ _ _ hfolder hfiles
    obtain ⟨hkept, hgone, hiff⟩ := habove (by decide +kernel)
    refine ⟨w₁, r₁, w₂, r₂, hfolder, hfiles, htracker, ?_, hgone _ hmem, fun hrestamps => ?_⟩
    · obtain ⟨x, y, hw⟩ := hkept
      rw [hw]
      change Echo.added.calls.unresolved.map (·.callee) = ["f"]
      decide +kernel
    · exact hiff.mp hrestamps _ hmem Echo.shows_added

end SourceGraph
