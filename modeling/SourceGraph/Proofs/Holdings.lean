import SourceGraph.Proofs.Exchange
import SourceGraph.Proofs.Sources

/-!
# What the graphs hold

The graphs hold what files own. A removal takes out what some files own, and it only counts which of
the files that are held these are. What is held belongs to clean paths below the root after any
operations on clean paths, and to tracked files unless a folder above the root was removed.

* `Store.Holds`, `Workspace.Shows`: the graphs hold something of a file.
* `Workspace.dropWhere`, `Workspace.restamps_dropWhere_iff`: the graphs without some files.
* `Workspace.dropBelow_eq`: which files the removal of a folder takes out of the graphs.
* `Workspace.Accounts`, `Run.accounts`: to what the things in the graphs belong.
-/

set_option autoImplicit false

namespace SourceGraph

/-! ## What a graph holds -/

namespace Store

variable {s : Store} {file other : String} {owned owned' : String → Bool}

/-- A node, an edge or an unresolved call of a file is in the store. -/
def Holds (s : Store) (file : String) : Prop :=
  (∃ (id : String) (n : Node), s.nodes[id]? = some n ∧ n.fileId = file) ∨
    (∃ e ∈ s.edges, e.sourceFile = file) ∨ ∃ u ∈ s.unresolved, u.sourceFile = file

theorem getElem?_removeWhere (s : Store) (owned : String → Bool) (id : String) :
    (s.removeWhere owned).nodes[id]? = s.nodes[id]?.filter fun n => !owned n.fileId := by
  simp [removeWhere]

theorem holds_removeWhere : (s.removeWhere owned).Holds file ↔ s.Holds file ∧ owned file = false := by
  have hlist : ∀ {α : Type} (owner : α → String) (l : List α),
      (∃ x ∈ l.filter fun x => !owned (owner x), owner x = file) ↔
        (∃ x ∈ l, owner x = file) ∧ owned file = false := by
    intro α owner l
    constructor
    · rintro ⟨x, hx, rfl⟩
      obtain ⟨hmem, hkeep⟩ := List.mem_filter.mp hx
      exact ⟨⟨x, hmem, rfl⟩, by simpa using hkeep⟩
    · rintro ⟨⟨x, hx, rfl⟩, hkeep⟩
      exact ⟨x, List.mem_filter.mpr ⟨hx, by simpa using hkeep⟩, rfl⟩
  have hnodes : (∃ (id : String) (n : Node), (s.removeWhere owned).nodes[id]? = some n ∧
      n.fileId = file) ↔
        (∃ (id : String) (n : Node), s.nodes[id]? = some n ∧ n.fileId = file) ∧
          owned file = false := by
    simp only [getElem?_removeWhere, Option.filter_eq_some_iff]
    constructor
    · rintro ⟨id, n, ⟨hn, hkeep⟩, rfl⟩
      exact ⟨⟨id, n, hn, rfl⟩, by simpa using hkeep⟩
    · rintro ⟨⟨id, n, hn, rfl⟩, hkeep⟩
      exact ⟨id, n, ⟨hn, by simpa using hkeep⟩, rfl⟩
  rw [Holds, Holds, hnodes, or_and_right, or_and_right]
  exact or_congr_right (or_congr (hlist Edge.sourceFile s.edges)
    (hlist UnresolvedCall.sourceFile s.unresolved))

/-- It only counts which of the files that are held are owned. -/
theorem removeWhere_congr (h : ∀ file, s.Holds file → owned file = owned' file) :
    s.removeWhere owned = s.removeWhere owned' := by
  have hnodes : (s.removeWhere owned).nodes = (s.removeWhere owned').nodes := by
    apply Std.ExtTreeMap.ext_getElem?
    intro id
    rw [getElem?_removeWhere, getElem?_removeWhere]
    cases hn : s.nodes[id]? with
    | none => rfl
    | some n => simp only [Option.filter, h n.fileId (Or.inl ⟨id, n, hn, rfl⟩)]
  refine Store.ext rfl rfl rfl hnodes ?_ ?_
  · exact List.filter_congr fun e he => by rw [h _ (Or.inr (Or.inl ⟨e, he, rfl⟩))]
  · exact List.filter_congr fun u hu => by rw [h _ (Or.inr (Or.inr ⟨u, hu, rfl⟩))]

theorem removeWhere_removeWhere (s : Store) (owned owned' : String → Bool) :
    (s.removeWhere owned).removeWhere owned' = s.removeWhere fun file => owned file || owned' file := by
  have hnodes : ((s.removeWhere owned).removeWhere owned').nodes =
      (s.removeWhere fun file => owned file || owned' file).nodes := by
    apply Std.ExtTreeMap.ext_getElem?
    intro id
    simp only [getElem?_removeWhere, Option.filter_filter, Bool.not_or]
  refine Store.ext rfl rfl rfl hnodes ?_ ?_
  · simp [removeWhere, List.filter_filter, Bool.and_comm]
  · simp [removeWhere, List.filter_filter, Bool.and_comm]

theorem holds_of_replace {t : Slice} (ht : t.IsOwned file) (h : (s.replace file t).Holds other) :
    other = file ∨ s.Holds other := by
  rcases h with ⟨id, n, hn, rfl⟩ | ⟨e, he, rfl⟩ | ⟨u, hu, rfl⟩
  · rw [replace_nodes, Option.or_eq_some_iff] at hn
    rcases hn with hn | ⟨_, hn⟩
    · exact Or.inl (fileId_of_node? ht hn).1
    · exact Or.inr (Or.inl ⟨id, n, (Option.filter_eq_some_iff.mp hn).1, rfl⟩)
  · rw [replace_edges, List.mem_append] at he
    rcases he with he | he
    · exact Or.inr (Or.inr (Or.inl ⟨e, (List.mem_filter.mp he).1, rfl⟩))
    · exact Or.inl (ht.edges e he)
  · rw [replace_unresolved, List.mem_append] at hu
    rcases hu with hu | hu
    · exact Or.inr (Or.inr (Or.inr ⟨u, (List.mem_filter.mp hu).1, rfl⟩))
    · exact Or.inl (ht.unresolved u hu)

theorem not_holds_clear : ¬ s.clear.Holds file := by
  simp [Holds, clear]

end Store

/-! ## What the graphs of a workspace hold -/

namespace Workspace

variable {k : Toolkit} {d d' : Disk} {w w' : Workspace} {p folder : Path} {file : String}
  {owned owned' : String → Bool}

/-- One of the graphs holds something of a file. -/
def HoldsFile (w : Workspace) (file : String) : Prop := w.imports.Holds file ∨ w.calls.Holds file

/-- One of the graphs holds something of the file at a path. -/
def Shows (w : Workspace) (p : Path) : Prop :=
  ∃ file, FileId.ofPath? w.root p = some file ∧ w.HoldsFile file

/-- The workspace without what the files with `owned` own in the graphs. -/
def dropWhere (w : Workspace) (owned : String → Bool) : Workspace :=
  { w with imports := w.imports.removeWhere owned, calls := w.calls.removeWhere owned }

theorem holdsFile_dropWhere :
    (w.dropWhere owned).HoldsFile file ↔ w.HoldsFile file ∧ owned file = false := by
  rw [HoldsFile, HoldsFile, dropWhere, Store.holds_removeWhere, Store.holds_removeWhere, or_and_right]

theorem dropWhere_congr (h : ∀ file, w.HoldsFile file → owned file = owned' file) :
    w.dropWhere owned = w.dropWhere owned' := by
  rw [dropWhere, dropWhere, Store.removeWhere_congr fun file hfile => h file (Or.inl hfile),
    Store.removeWhere_congr fun file hfile => h file (Or.inr hfile)]

theorem dropWhere_dropWhere (w : Workspace) (owned owned' : String → Bool) :
    (w.dropWhere owned).dropWhere owned' = w.dropWhere fun file => owned file || owned' file := by
  simp only [dropWhere, Store.removeWhere_removeWhere]

theorem dropWhere_false (w : Workspace) : w.dropWhere (fun _ => false) = w := by
  simp only [dropWhere, Store.removeWhere_false]

theorem Restamps.dropWhere (h : w.Restamps w') (owned : String → Bool) :
    (w.dropWhere owned).Restamps (w'.dropWhere owned) := by
  obtain ⟨x, y, rfl⟩ := h
  exact ⟨x, y, rfl⟩

theorem Restamps.holdsFile (h : w.Restamps w') : w'.HoldsFile file ↔ w.HoldsFile file := by
  obtain ⟨x, y, rfl⟩ := h
  exact Iff.rfl

theorem Restamps.shows (h : w.Restamps w') : w'.Shows p ↔ w.Shows p := by
  obtain ⟨x, y, rfl⟩ := h
  exact Iff.rfl

/-- Graphs that differ in times of saving only are without the same files. -/
theorem restamps_dropWhere_iff : (w.dropWhere owned).Restamps (w.dropWhere owned') ↔
    ∀ file, w.HoldsFile file → owned file = owned' file := by
  constructor
  · intro h file hfile
    have hkept : (w.dropWhere owned').HoldsFile file ↔ (w.dropWhere owned).HoldsFile file :=
      h.holdsFile
    rw [holdsFile_dropWhere, holdsFile_dropWhere, and_congr_right_iff] at hkept
    have hfalse := hkept hfile
    cases howned : owned file <;> cases howned' : owned' file <;> simp [howned, howned'] at hfalse ⊢
  · intro h
    rw [dropWhere_congr h]
    exact .refl _

/-- The description of a file adds nothing of any other file. -/
theorem holdsFile_of_index
    (hp : ∀ file, FileId.ofPath? w.root p = some file → Path.IsUnder w.root p)
    (h : (w.index k d p).1.HoldsFile file) :
    FileId.ofPath? w.root p = some file ∨ w.HoldsFile file := by
  rw [index_fst] at h
  cases hdescribed : w.described? k d p with
  | none =>
    rw [hdescribed] at h
    exact Or.inr h
  | some e =>
    have hid := (described?_eq_some.mp hdescribed).1
    have howned := isOwned_of_described? (hp e.1 hid) hdescribed
    rw [hdescribed, Option.elim_some, putFragment_eq] at h
    have hcases : file = e.1 ∨ w.HoldsFile file := by
      rcases h with h | h
      · exact (Store.holds_of_replace (howned .import) h).imp_right Or.inl
      · exact (Store.holds_of_replace (howned .call) h).imp_right Or.inr
    refine hcases.imp_left ?_
    rintro rfl
    exact hid

/-- The file with the id of a path is taken out. -/
theorem dropFile_eq (w : Workspace) (p : Path) : (FileId.ofPath? w.root p).elim w w.dropFile =
    w.dropWhere fun file => FileId.ofPath? w.root p == some file := by
  cases hid : FileId.ofPath? w.root p with
  | none => exact (dropWhere_false w).symm
  | some id =>
    have hsame : (fun file : String => some id == some file) = fun file => file == id := by
      funext file
      exact BEq.comm
    rw [hsame]
    rfl

end Workspace

/-! ## Which files belong to a folder -/

namespace Workspace

variable {k : Toolkit} {d d' : Disk} {w w' : Workspace} {p folder : Path} {file : String}
  {owned owned' : String → Bool}

/-- A folder above the root has no id. -/
theorem dropBelow_of_isAbove (h : folder.IsAbove w.root) : w.dropBelow folder = w := by
  obtain ⟨hbelow, hsame⟩ := h
  have hid : FileId.ofPath? w.root folder = none := by
    refine FileId.ofPath?_of_not_prefix fun hpre => ?_
    have heq := (Path.isBelow_iff.mp hbelow).eq_of_length_le hpre.length_le
    rw [Path.same, heq, beq_self_eq_true] at hsame
    cases hsame
  rw [dropBelow, hsame, hid]
  rfl

/-- The removal of any other folder takes out the files that lie below it. -/
theorem dropBelow_eq (hroot : w.root.isAbsolute = true) (hfolder : folder.IsClean)
    (hout : ¬ folder.IsAbove w.root) :
    ∃ owned, w.dropBelow folder = w.dropWhere owned ∧ ∀ p file, p.IsClean →
      FileId.ofPath? w.root p = some file → (owned file = true ↔ p.isBelow folder = true) := by
  cases hsame : folder.same w.root with
  | true =>
    refine ⟨fun file => FileId.isWithin file "", by rw [dropBelow, hsame]; rfl, ?_⟩
    intro p file hp hid
    obtain ⟨names, hnames⟩ := hp.isUnder_of_fileId hroot hid
    have hcomponents : folder.components = w.root.components := by
      simpa [Path.same] using hsame
    refine iff_of_true (by simp [FileId.isWithin, show Path.trimSeparators "" = "" by decide]) ?_
    rw [Path.isBelow_iff, hcomponents, hnames.components]
    exact List.prefix_append _ _
  | false =>
    have hdrop : w.dropBelow folder = (FileId.ofPath? w.root folder).elim w w.dropFolder := by
      rw [dropBelow, hsame]
      rfl
    cases hid : FileId.ofPath? w.root folder with
    | some id =>
      refine ⟨fun file => FileId.isWithin file id, by rw [hdrop, hid]; rfl, ?_⟩
      intro p file hp hfile
      obtain ⟨names, hnames, hne, rfl⟩ := (hfolder.isUnder_of_fileId hroot hid).names hid
      obtain ⟨more, hmore, hne', rfl⟩ := (hp.isUnder_of_fileId hroot hfile).names hfile
      rw [hnames.isWithin_id_iff hmore hne hne', hnames.isBelow_iff hmore]
    | none =>
      refine ⟨fun _ => false, by rw [hdrop, hid, dropWhere_false]; rfl, ?_⟩
      intro p file hp hfile
      refine iff_of_false Bool.false_ne_true fun hbelow => ?_
      -- of two folders that hold the same path, one holds the other
      obtain ⟨names, hnames⟩ := hp.isUnder_of_fileId hroot hfile
      have hpre : w.root.components <+: p.components := by
        rw [hnames.components]
        exact List.prefix_append _ _
      rcases List.prefix_or_prefix_of_prefix hpre (Path.isBelow_iff.mp hbelow) with hinside | habove
      · obtain ⟨rest, hrest⟩ := hfolder.isUnder hroot hinside
        rw [hrest.fileId] at hid
        split at hid
        · rename_i hempty
          rw [Path.same, hrest.components, hempty] at hsame
          simp at hsame
        · cases hid
      · exact hout ⟨Path.isBelow_iff.mpr habove, hsame⟩

end Workspace

/-! ## Trackers after a removal -/

namespace Workspace

variable {k : Toolkit} {d d' : Disk} {w w' : Workspace} {p folder : Path} {r : Report}

theorem removeFile_revises (h : w.removeFile k p d = (w', d', .ok r)) :
    w.tracker.Revises w'.tracker := by
  unfold removeFile at h
  dsimp only at h
  split at h
  · cases h
  · rename_i w₁ d₁ b htracker
    obtain ⟨t, hremove, rfl⟩ := withTracker_ok htracker
    rw [((frame_dropFile _ _).trans (settles_of_saved h).1.frame).tracker]
    exact (Tracker.removeFile_saves hremove).revises

theorem removeFolder_revises (h : w.removeFolder k folder d = (w', d', .ok r)) :
    w.tracker.Revises w'.tracker := by
  unfold removeFolder at h
  dsimp only at h
  split at h
  · cases h
  · rename_i w₁ d₁ removed htracker
    obtain ⟨t, hremove, rfl⟩ := withTracker_ok htracker
    rw [((frame_dropBelow _ _).trans (settles_of_saved h).1.frame).tracker]
    exact (Tracker.removeFolder_saves hremove).revises

theorem applyDeleted_revises (h : w.applyDeleted k p d = (w', d', .ok r)) :
    w.tracker.Revises w'.tracker := by
  rw [applyDeleted_eq] at h
  rcases Change.run_ok h with ⟨_, rfl, _⟩ | ⟨t, hnotice, _, hdraw⟩
  · exact .refl _
  · obtain rfl : w' = _ := congrArg Prod.fst hdraw
    rw [(Change.frame_draw k d' { w with tracker := t } _).tracker]
    exact Change.revises_notice? hnotice

end Workspace

/-! ## What the graphs hold after any operations -/

/-- The operation is given clean paths, and all names below a folder that it adds are plain. -/
structure Operation.IsPlain (op : Operation) (m : Moment) : Prop where
  paths : ∀ p ∈ op.paths, p.IsClean
  disk : ∀ folder, op = .addFolder folder → m.disk.PlainBelow folder

/-- The operation is not the removal of a folder above the root. -/
def Operation.IsConfined (op : Operation) (m : Moment) : Prop :=
  ∀ folder, op = .removeFolder folder → ¬ folder.IsAbove m.workspace.root

namespace Workspace

/--
Tracked files are clean, and what the graphs hold belongs to clean paths below the root. If `strict`
then these are tracked.
-/
structure Accounts (strict : Prop) (w : Workspace) : Prop where
  root : w.root.isAbsolute = true
  sound : w.tracker.IsSound
  tracked : ∀ q ∈ w.tracker.files, q.IsClean
  held : ∀ file, w.HoldsFile file → ∃ p, p.IsClean ∧ FileId.ofPath? w.root p = some file ∧
    (strict → p ∈ w.tracker.files)

namespace Accounts

variable {strict : Prop} {k : Toolkit} {d d' d₁ : Disk} {w w' : Workspace} {t : Tracker}
  {p folder : Path} {ps : List Path} {r : Report}

theorem restamps (h : Accounts strict w) (hw : w.Restamps w') : Accounts strict w' := by
  obtain ⟨x, y, rfl⟩ := hw
  exact ⟨h.root, h.sound, h.tracked, h.held⟩

theorem settles (h : Accounts strict w) (hw : w.Settles d w' d') : Accounts strict w' :=
  h.restamps hw.1

/-- More clean files are tracked. -/
theorem track (h : Accounts strict w) (hsound : t.IsSound) (hclean : ∀ q ∈ t.files, q.IsClean)
    (hmore : ∀ q ∈ w.tracker.files, q ∈ t.files) : Accounts strict { w with tracker := t } where
  root := h.root
  sound := hsound
  tracked := hclean
  held file hfile := by
    obtain ⟨p, hp, hid, hstrict⟩ := h.held file hfile
    exact ⟨p, hp, hid, fun hs => hmore p (hstrict hs)⟩

/-- Fewer files are tracked, and if `strict` then those that are not are taken out of the graphs. -/
theorem drop (h : Accounts strict w) {owned : String → Bool} (hsound : t.IsSound)
    (hless : ∀ q ∈ t.files, q ∈ w.tracker.files)
    (hkept : strict → ∀ p file, p ∈ w.tracker.files → FileId.ofPath? w.root p = some file →
      owned file = false → p ∈ t.files) :
    Accounts strict (dropWhere { w with tracker := t } owned) where
  root := h.root
  sound := hsound
  tracked q hq := h.tracked q (hless q hq)
  held file hfile := by
    obtain ⟨hheld, howned⟩ := holdsFile_dropWhere.mp hfile
    obtain ⟨p, hp, hid, hstrict⟩ := h.held file hheld
    exact ⟨p, hp, hid, fun hs => hkept hs p file (hstrict hs) hid howned⟩

theorem index (h : Accounts strict w) (hp : p ∈ w.tracker.files) :
    Accounts strict (w.index k d p).1 := by
  have hframe := frame_index k d w p
  refine ⟨hframe.root ▸ h.root, hframe.tracker ▸ h.sound, hframe.tracker ▸ h.tracked, ?_⟩
  intro file hfile
  rw [hframe.root, hframe.tracker]
  have hunder : ∀ file, FileId.ofPath? w.root p = some file → Path.IsUnder w.root p :=
    fun _ hid => (h.tracked p hp).isUnder_of_fileId h.root hid
  rcases holdsFile_of_index hunder hfile with hid | hheld
  · exact ⟨p, h.tracked p hp, hid, fun _ => hp⟩
  · exact h.held file hheld

theorem indexAll (h : Accounts strict w) (hps : ∀ p ∈ ps, p ∈ w.tracker.files) :
    Accounts strict (w.indexAll k d ps).1 := by
  induction ps generalizing w with
  | nil => exact h
  | cons p ps ih =>
    have hrest : ∀ q ∈ ps, q ∈ (w.index k d p).1.tracker.files := by
      rw [(frame_index k d w p).tracker]
      exact fun q hq => hps q (List.mem_cons_of_mem _ hq)
    exact ih (h.index (hps p List.mem_cons_self)) hrest

/-- Clean files that are new are tracked, and some tracked files are described. -/
theorem advance (h : Accounts strict w) {added : List Path}
    (hext : w.tracker.Extends k.digest d t added)
    (hadded : ∀ p ∈ added, p.IsClean) (hps : ∀ p ∈ ps, p.IsClean ∧ t.isTracked p = true) :
    Accounts strict (Workspace.indexAll k d₁ { w with tracker := t } ps).1 := by
  have hclean : ∀ q ∈ t.files, q.IsClean := by
    intro q hq
    rcases (hext.watched _).mp (Tracker.mem_files.mp hq) with hold | hnew
    · exact h.tracked q (Tracker.mem_files.mpr hold)
    · obtain ⟨p, hp, hkey⟩ := List.mem_map.mp hnew
      have hsame : q = p := by
        rw [← (hadded p hp).key, hkey]
      rw [hsame]
      exact hadded p hp
  have hmore : ∀ q ∈ w.tracker.files, q ∈ t.files := fun q hq =>
    Tracker.mem_files.mpr ((hext.watched _).mpr (Or.inl (Tracker.mem_files.mp hq)))
  refine (h.track (hext.isSound h.sound) hclean hmore).indexAll fun p hp => ?_
  obtain ⟨hp, htracked⟩ := hps p hp
  rw [Tracker.isTracked_iff, hp.normalized_eq] at htracked
  exact Tracker.mem_files.mpr htracked

theorem addFile (h : Accounts strict w) (hp : p.IsClean) (hok : w.addFile k p d = (w', d', .ok r)) :
    Accounts strict w' := by
  obtain ⟨t, d₁, added, ps, hext, _, _, hps, hadded, hsettles, _⟩ := addFile_ok hp.isAbsolute hok
  have hclean : ∀ q ∈ added, q.IsClean := fun q hq => by rw [hadded q hq]; exact hp
  have hdescribed : ∀ q ∈ ps, q.IsClean ∧ t.isTracked q = true := fun q hq =>
    ⟨by rw [(hps q hq).1]; exact hp, (hps q hq).2⟩
  exact (h.advance hext hclean hdescribed).settles hsettles

theorem addFolder (h : Accounts strict w) (hfolder : folder.IsClean) (hd : d.PlainBelow folder)
    (hok : w.addFolder k folder d = (w', d', .ok r)) : Accounts strict w' := by
  obtain ⟨t, d₁, added, hext, _, hsub, hsettles, _⟩ := addFolder_ok hfolder.isAbsolute hok
  have hclean : ∀ q ∈ added, q.IsClean := fun q hq =>
    hfolder.of_isUnder
      (Disk.leadsFrom_of_mem_enumerate _ hd hfolder.leadsFrom_self (hsub q hq))
  have hdescribed : ∀ q ∈ added, q.IsClean ∧ t.isTracked q = true := fun q hq =>
    ⟨hclean q hq, Tracker.isTracked_iff.mpr
      ((hext.watched _).mpr (Or.inr (List.mem_map_of_mem hq)))⟩
  exact (h.advance hext hclean hdescribed).settles hsettles

/-- A file that is tracked no more is taken out of the graphs. -/
theorem dropPath (h : Accounts strict w) (hp : p.IsClean) (hsound : t.IsSound)
    (hdrops : w.tracker.Drops t (· = p.normalized)) :
    Accounts strict ((FileId.ofPath? w.root p).elim { w with tracker := t }
      (Workspace.dropFile { w with tracker := t })) := by
  have hdrop := dropFile_eq { w with tracker := t } p
  change (FileId.ofPath? w.root p).elim _ _ = _ at hdrop
  rw [hdrop]
  refine h.drop hsound (fun q hq => ?_) fun _ q file hq hid hother => ?_
  · exact Tracker.mem_files.mpr ((hdrops.watched _).mp (Tracker.mem_files.mp hq)).1
  · refine Tracker.mem_files.mpr ((hdrops.watched _).mpr ⟨Tracker.mem_files.mp hq, fun hkey => ?_⟩)
    have hsame : q = p := by
      rw [← hp.key, ← hkey]
    rw [hsame] at hid
    change (FileId.ofPath? w.root p == some file) = false at hother
    rw [hid, beq_self_eq_true] at hother
    cases hother

theorem removeFile (h : Accounts strict w) (hp : p.IsClean)
    (hok : w.removeFile k p d = (w', d', .ok r)) : Accounts strict w' := by
  have hrevises := removeFile_revises hok
  obtain ⟨t, d₁, hdrops, _, hsettles⟩ := removeFile_ok hp.isAbsolute hok
  rw [((frame_dropFile _ _).trans hsettles.frame).tracker] at hrevises
  exact (h.dropPath hp (hrevises.sound h.sound) hdrops).settles hsettles

/-- Tracked files belong to a folder by their keys as they do by their components. -/
theorem isWithin_iff (h : Accounts strict w) (hfolder : folder.IsClean) {q : Path}
    (hq : q ∈ w.tracker.files) :
    FileId.isWithin q.text folder.normalized = true ↔ q.isBelow folder = true := by
  have hclean := h.tracked q hq
  rw [← hclean.normalized_eq]
  exact hfolder.isWithin_iff hclean

theorem dropBelow (h : Accounts strict w) (hfolder : folder.IsClean)
    (hconfined : strict → ¬ folder.IsAbove w.root) (hsound : t.IsSound)
    (hdrops : w.tracker.Drops t (FileId.isWithin · folder.normalized = true)) :
    Accounts strict (Workspace.dropBelow { w with tracker := t } folder) := by
  have hless : ∀ q ∈ t.files, q ∈ w.tracker.files := fun q hq =>
    Tracker.mem_files.mpr ((hdrops.watched _).mp (Tracker.mem_files.mp hq)).1
  by_cases habove : folder.IsAbove w.root
  · have hnone := dropBelow_of_isAbove (w := { w with tracker := t }) habove
    rw [hnone, ← dropWhere_false { w with tracker := t }]
    exact h.drop hsound hless fun hs => absurd habove (hconfined hs)
  · obtain ⟨owned, hdrop, howned⟩ := dropBelow_eq (w := { w with tracker := t }) h.root hfolder habove
    rw [hdrop]
    refine h.drop hsound hless fun _ q file hq hid hother => ?_
    refine Tracker.mem_files.mpr
      ((hdrops.watched _).mpr ⟨Tracker.mem_files.mp hq, fun hwithin => ?_⟩)
    rw [(howned q file (h.tracked q hq) hid).mpr ((h.isWithin_iff hfolder hq).mp hwithin)] at hother
    cases hother

theorem removeFolder (h : Accounts strict w) (hfolder : folder.IsClean)
    (hconfined : strict → ¬ folder.IsAbove w.root)
    (hok : w.removeFolder k folder d = (w', d', .ok r)) : Accounts strict w' := by
  have hrevises := removeFolder_revises hok
  obtain ⟨t, d₁, hdrops, _, hsettles⟩ := removeFolder_ok hfolder.isAbsolute hok
  rw [((frame_dropBelow _ _).trans hsettles.frame).tracker] at hrevises
  exact (h.dropBelow hfolder hconfined (hrevises.sound h.sound) hdrops).settles hsettles

theorem sync (h : Accounts strict w) (hok : w.sync k d = (w', d', .ok r)) : Accounts strict w' := by
  obtain ⟨t, d₁, keys, hscan, _, hsettles, _⟩ := sync_ok hok
  have hfiles : t.files = w.tracker.files := Tracker.files_congr hscan.watched
  have htrack : Accounts strict { w with tracker := t } :=
    h.track (hscan.isSound h.sound) (hfiles ▸ h.tracked) fun q hq => hfiles ▸ hq
  refine (htrack.indexAll fun p hp => ?_).settles hsettles
  obtain ⟨key, hkey, rfl⟩ := List.mem_map.mp hp
  change Path.mk key ∈ t.files
  rw [hfiles, Tracker.mk_mem_files]
  exact ((hscan.mem_changed key).mp hkey).1

theorem reindex (h : Accounts strict w) (hok : w.reindex k d = (w', d', .ok r)) :
    Accounts strict w' := by
  have hclear : Accounts strict { w with imports := w.imports.clear, calls := w.calls.clear } :=
    ⟨h.root, h.sound, h.tracked, fun file hfile =>
      (hfile.elim Store.not_holds_clear Store.not_holds_clear).elim⟩
  exact (hclear.indexAll fun p hp => hp).settles (reindex_ok hok)

theorem applyDeleted (h : Accounts strict w) (hp : p.IsClean)
    (hok : w.applyDeleted k p d = (w', d', .ok r)) : Accounts strict w' := by
  have hrevises := applyDeleted_revises hok
  obtain ⟨t, hdrops, _, hw⟩ := applyDeleted_ok hp.isAbsolute hok
  have hframe : Frame { w with tracker := t } w' := hw ▸ frame_dropFile_if _ _ _
  rw [hframe.tracker] at hrevises
  have hsound := hrevises.sound h.sound
  rw [hw]
  split
  · exact h.dropPath hp hsound hdrops
  · rename_i htracked
    -- it was not tracked, so all others are
    rw [← dropWhere_false { w with tracker := t }]
    refine h.drop hsound (fun q hq => ?_) fun _ q file hq _ _ => ?_
    · exact Tracker.mem_files.mpr ((hdrops.watched _).mp (Tracker.mem_files.mp hq)).1
    · have hmem := Tracker.mem_files.mp hq
      refine Tracker.mem_files.mpr ((hdrops.watched _).mpr ⟨hmem, fun hkey => htracked ?_⟩)
      rw [Tracker.isTracked_iff, ← hkey]
      exact hmem

theorem applyModified (h : Accounts strict w) (hp : p.IsClean)
    (hok : w.applyModified k p d = (w', d', .ok r)) : Accounts strict w' := by
  obtain ⟨t, b, htracker, hw, _⟩ := applyModified_ok hp.isAbsolute hok
  rw [hw]
  rcases htracker with ⟨htracked, hrefresh⟩ | ⟨hext, _⟩
  · have hsound := (Tracker.refreshFile_saves hrefresh).revises.sound h.sound
    obtain ⟨_, hwatched, _, _⟩ := Tracker.refreshFile_ok hrefresh
    have hfiles : t.files = w.tracker.files := Tracker.files_congr hwatched
    have htrack : Accounts strict { w with tracker := t } :=
      h.track hsound (hfiles ▸ h.tracked) fun q hq => hfiles ▸ hq
    refine htrack.indexAll fun q hq => ?_
    obtain rfl : q = p := by cases b <;> simp at hq; exact hq
    rw [Tracker.isTracked_iff, hp.normalized_eq] at htracked
    change q ∈ t.files
    rw [hfiles]
    exact Tracker.mem_files.mpr htracked
  · have hmem : ∀ q ∈ (if b then [p] else []), q = p := by cases b <;> simp
    have hclean : ∀ q ∈ (if b then [p] else []), q.IsClean := fun q hq => by
      rw [hmem q hq]
      exact hp
    exact h.advance hext hclean fun q hq => ⟨hclean q hq, Tracker.isTracked_iff.mpr
      ((hext.watched _).mpr (Or.inr (List.mem_map_of_mem hq)))⟩

theorem apply (h : Accounts strict w) {modified deleted : List Path}
    (hpaths : ∀ p ∈ modified ++ deleted, p.IsClean)
    (hok : w.apply k modified deleted d = (w', d', .ok r)) : Accounts strict w' := by
  obtain ⟨w₁, d₁, h₁, hsettles⟩ := apply_ok w.root (motive := fun w _ _ => Accounts strict w)
    (fun p hp w d w' d' r last hw hrun =>
      hw.applyDeleted (hpaths p (List.mem_append_right _ hp)) hrun)
    (fun p hp w d w' d' r last hw hrun =>
      hw.applyModified (hpaths p (List.mem_append_left _ hp)) hrun) ∅ h rfl hok
  exact h₁.settles hsettles

theorem step (h : Accounts strict w) {op : Operation} {last : Latest}
    (hplain : op.IsPlain ⟨w, d, last⟩) (hconfined : strict → op.IsConfined ⟨w, d, last⟩)
    (hok : op.run k w d = (w', d', .ok r)) : Accounts strict w' := by
  have hpaths := hplain.paths
  cases op with
  | addFile p => exact h.addFile (hpaths p List.mem_cons_self) hok
  | addFolder folder =>
    exact h.addFolder (hpaths folder List.mem_cons_self) (hplain.disk folder rfl) hok
  | removeFile p => exact h.removeFile (hpaths p List.mem_cons_self) hok
  | removeFolder folder =>
    exact h.removeFolder (hpaths folder List.mem_cons_self) (fun hs => hconfined hs folder rfl) hok
  | sync => exact h.sync hok
  | apply modified deleted => exact h.apply hpaths hok
  | reindex => exact h.reindex hok

end Accounts

theorem accounts_of_openAt {k : Toolkit} {languages : List Language} {s : WorkspaceSettings}
    {d d' : Disk} {w : Workspace} (hnew : ∀ p ∈ s.documents, d.isFile p = false)
    (h : Workspace.openAt k languages s d = (d', .ok w)) (strict : Prop) : Accounts strict w := by
  obtain ⟨root, hroot, _, rfl⟩ := Workspace.openAt_of_no_documents hnew h
  refine ⟨Path.isAbsolute_of_absoluteFrom? hroot ?_, ?_, ?_, ?_⟩
  · simp [Disk.currentPath, Disk.absolute, Path.isAbsolute]
  · simp [Tracker.IsSound]
  · simp [Tracker.files]
  · intro file hfile
    simp [HoldsFile, Store.Holds] at hfile

end Workspace

theorem Run.accounts {k : Toolkit} {allowed : Operation → Moment → Prop} {start m : Moment}
    {strict : Prop} (hplain : ∀ op m, allowed op m → op.IsPlain m)
    (hconfined : strict → ∀ op m, allowed op m → op.IsConfined m)
    (hstart : start.workspace.Accounts strict) (h : Run k allowed start m) :
    m.workspace.Accounts strict := by
  induction h with
  | start => exact hstart
  | edit _ _ ih => exact ih
  | step _ op now hallowed hok ih =>
    exact ih.step (hplain op _ hallowed) (fun hs => hconfined hs op _ hallowed) hok

end SourceGraph
