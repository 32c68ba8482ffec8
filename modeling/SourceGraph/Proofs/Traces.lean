import SourceGraph.Proofs.Sources

/-!
# Operations one after the other

What an operation does to the root and to the tracked files of a workspace, whether it succeeds or
not, and the states that operations lead through.

* `Tracker.mem_watched_addFile`, `Tracker.mem_watched_removeFile`, …: the keys after an operation.
* `Workspace.frame_addFile`, `Workspace.frame_removeFile`, …: an operation on a workspace changes
  what the tracker does and the contents of the graphs.
* `Workspace.Gains`: the root and the languages stay, and only files of a kind are tracked anew.
* `Operation.offers`, `Operation.gains_offers`: the paths that an operation may track.
* `Workspace.trace`, `Workspace.forall₂_trace`: the states and results of operations, and what holds
  between those of two runs.
-/

set_option autoImplicit false

namespace SourceGraph

/-! ## Tracked files -/

/-- A path that leads to a file on some disk. -/
def Path.IsReadable (p : Path) : Prop := ∃ d : Disk, (d.read p).toOption.isSome = true

namespace Tracker

variable {k : Toolkit} {t : Tracker} {d : Disk} {p folder : Path} {key : String}

theorem saved_fst {α : Type} (t : Tracker) (now : Timestamp) (d : Disk) (a : α) :
    (t.saved now d a).1 = t := by
  rw [saved]
  split <;> rfl

theorem mem_watched_track? (digest : ByteArray → String) (d : Disk) (t : Tracker) (p : Path)
    (key : String) : key ∈ ((track? digest d t p).getD t).watched ↔
      key ∈ t.watched ∨ (d.read p).toOption.isSome = true ∧ key = p.normalized := by
  unfold track?
  split
  · rename_i htracked
    refine ⟨Or.inl, ?_⟩
    rintro (hkey | ⟨-, hkey⟩)
    · exact hkey
    · rw [hkey]
      exact isTracked_iff.mp htracked
  · rw [hashOf?]
    cases d.read p with
    | error f => simp [Except.toOption]
    | ok content =>
      simp only [Option.map_some, Option.getD_some, insert, Std.ExtTreeSet.mem_insert,
        Std.compare_eq_iff_eq, Except.toOption, Option.isSome_some, true_and]
      rw [or_comm, eq_comm]

theorem mem_watched_trackAll (digest : ByteArray → String) (d : Disk) (t : Tracker)
    (ps : List Path) (key : String) : key ∈ (trackAll digest d t ps).1.watched ↔
      key ∈ t.watched ∨ ∃ p ∈ ps, (d.read p).toOption.isSome = true ∧ key = p.normalized := by
  induction ps generalizing t with
  | nil => simp [trackAll]
  | cons p ps ih =>
    have hstep : (trackAll digest d t (p :: ps)).1 =
        (trackAll digest d ((track? digest d t p).getD t) ps).1 := by
      rw [trackAll]
      cases track? digest d t p <;> rfl
    rw [hstep, ih, mem_watched_track?, or_assoc]
    simp

theorem mem_watched_addFile : key ∈ (t.addFile k p d).1.watched ↔
    key ∈ t.watched ∨ (d.read p).toOption.isSome = true ∧ key = p.normalized := by
  rw [← mem_watched_track? k.digest, addFile]
  split
  · rename_i ht
    rw [ht]
    rfl
  · rename_i t' ht
    rw [saved_fst, ht]
    rfl

theorem addFolder_fst :
    (t.addFolder k folder d).1 = (trackAll k.digest d t (d.enumerate t.extensions folder)).1 := by
  rw [addFolder]
  split
  · rename_i ht
    rw [ht]
  · rename_i ht
    rw [saved_fst, ht]

theorem mem_watched_addFolder : key ∈ (t.addFolder k folder d).1.watched ↔
    key ∈ t.watched ∨ ∃ f ∈ d.enumerate t.extensions folder,
      (d.read f).toOption.isSome = true ∧ key = f.normalized := by
  rw [addFolder_fst, mem_watched_trackAll]

theorem mem_watched_removeFile :
    key ∈ (t.removeFile k p d).1.watched ↔ key ∈ t.watched ∧ key ≠ p.normalized := by
  rw [removeFile]
  split
  · rw [saved_fst]
    simp only [erase, Std.ExtTreeSet.mem_erase, ne_eq, Std.compare_eq_iff_eq]
    rw [and_comm, eq_comm]
  · rename_i htracked
    refine ⟨fun hkey => ⟨hkey, fun hsame => ?_⟩, And.left⟩
    rw [hsame] at hkey
    exact htracked (isTracked_iff.mpr hkey)

theorem mem_watched_removeFolder :
    key ∈ (t.removeFolder k folder d).1.watched ↔
      key ∈ t.watched ∧ FileId.isWithin key folder.normalized = false := by
  have hwithin : (key ∈ t.watched ∧ key ∉ t.filesWithin folder) ↔
      key ∈ t.watched ∧ FileId.isWithin key folder.normalized = false := by
    rw [mem_filesWithin, ← Bool.not_eq_true]
    exact and_congr_right fun hkey => not_congr (and_iff_right hkey)
  rw [← hwithin, removeFolder]
  split
  · rename_i hnone
    rw [hnone]
    simp
  · rw [saved_fst]
    exact (drops_eraseAll t _).watched key

theorem watched_refreshFile : (t.refreshFile k p d).1.watched = t.watched := by
  rw [refreshFile]
  split
  · rfl
  · rename_i t' ht
    rw [saved_fst]
    unfold refresh? at ht
    split at ht
    · split at ht
      · split at ht
        · cases ht
        · cases ht
          rfl
      · cases ht
    · cases ht

theorem watched_changedFiles : (t.changedFiles k d).1.watched = t.watched := by
  rw [changedFiles]
  split
  · rename_i ht
    obtain ⟨keys, -, hrescan⟩ := rescan_spec ht
    exact hrescan.watched
  · rename_i ht
    obtain ⟨keys, -, hrescan⟩ := rescan_spec ht
    rw [saved_fst]
    exact hrescan.watched

theorem revises_addFile : t.Revises (t.addFile k p d).1 := by
  rw [addFile]
  split
  · exact .refl t
  · rename_i ht
    rw [saved_fst]
    exact revises_track? ht

theorem revises_addFolder : t.Revises (t.addFolder k folder d).1 := by
  rw [addFolder_fst]
  exact (revises_trackAll k.digest d t _).1

theorem revises_removeFile : t.Revises (t.removeFile k p d).1 := by
  rw [removeFile]
  split
  · rw [saved_fst]
    exact revises_erase t _
  · exact .refl t

theorem revises_removeFolder : t.Revises (t.removeFolder k folder d).1 := by
  rw [removeFolder]
  split
  · exact .refl t
  · rw [saved_fst]
    exact revises_eraseAll t _

theorem revises_refreshFile : t.Revises (t.refreshFile k p d).1 := by
  rw [refreshFile]
  split
  · exact .refl t
  · rename_i ht
    rw [saved_fst]
    exact revises_refresh? ht

theorem revises_changedFiles : t.Revises (t.changedFiles k d).1 := by
  have hrevises := (revises_rescan k.digest d t).1
  rw [changedFiles]
  split
  · rename_i ht
    rwa [ht] at hrevises
  · rename_i ht
    rw [saved_fst]
    rwa [ht] at hrevises

end Tracker

namespace Workspace

variable {k : Toolkit} {d : Disk} {w v : Workspace} {p folder : Path}

theorem frame_saved {α : Type} (w : Workspace) (a : α) : w.Frame (w.saved k d a).1 :=
  (restamps_saved k w d a).frame

theorem frame_addFile :
    w.Frame (w.addFile k p d).1 ∨
      Frame { w with tracker := (w.tracker.addFile k (w.absolute p) d).1 } (w.addFile k p d).1 := by
  rw [addFile]
  dsimp only
  split
  · exact Or.inl (.refl w)
  · refine Or.inr ?_
    generalize w.tracker.addFile k (w.absolute p) d = o
    obtain ⟨t, d', result⟩ := o
    cases result with
    | error f => exact .refl _
    | ok b =>
      dsimp only [withTracker]
      split
      · exact (frame_index k d' _ _).trans (frame_saved _ _)
      · exact .refl _

theorem frame_addFolder :
    Frame { w with tracker := (w.tracker.addFolder k (w.absolute folder) d).1 }
      (w.addFolder k folder d).1 := by
  unfold addFolder
  generalize w.tracker.addFolder k (w.absolute folder) d = o
  obtain ⟨t, d', result⟩ := o
  cases result with
  | error f => exact .refl _
  | ok added => exact (frame_indexAll k d' _ added).trans (frame_saved _ _)

theorem frame_removeFile :
    Frame { w with tracker := (w.tracker.removeFile k (w.absolute p) d).1 }
      (w.removeFile k p d).1 := by
  rw [removeFile]
  dsimp only
  generalize w.tracker.removeFile k (w.absolute p) d = o
  obtain ⟨t, d', result⟩ := o
  cases result with
  | error f => exact .refl _
  | ok b => exact (frame_dropFile _ _).trans (frame_saved _ _)

theorem frame_removeFolder :
    Frame { w with tracker := (w.tracker.removeFolder k (w.absolute folder) d).1 }
      (w.removeFolder k folder d).1 := by
  rw [removeFolder]
  generalize w.tracker.removeFolder k (w.absolute folder) d = o
  obtain ⟨t, d', result⟩ := o
  cases result with
  | error f => exact .refl _
  | ok removed => exact (frame_dropBelow _ _).trans (frame_saved _ _)

theorem frame_sync :
    Frame { w with tracker := (w.tracker.changedFiles k d).1 } (w.sync k d).1 := by
  rw [sync]
  generalize w.tracker.changedFiles k d = o
  obtain ⟨t, d', result⟩ := o
  cases result with
  | error f => exact .refl _
  | ok changed =>
    cases changed with
    | nil => exact .refl _
    | cons f rest => exact (frame_indexAll k d' _ (f :: rest)).trans (frame_saved _ _)

theorem frame_reindex : w.Frame (w.reindex k d).1 := by
  rw [reindex]
  exact ((frame_clear w).trans (frame_indexAll k d _ _)).trans (frame_saved _ _)

theorem frame_applyDeleted :
    Frame { w with tracker := (w.tracker.removeFile k (w.absolute p) d).1 }
      (w.applyDeleted k p d).1 := by
  rw [applyDeleted]
  generalize w.tracker.removeFile k (w.absolute p) d = o
  obtain ⟨t, d', result⟩ := o
  cases result with
  | error f => exact .refl _
  | ok b =>
    cases b with
    | false => exact .refl _
    | true => exact frame_dropFile _ _

theorem frame_applyModified : ∃ t : Tracker,
    Frame { w with tracker := t } (w.applyModified k p d).1 ∧ w.tracker.Revises t ∧
      ∀ key ∈ t.watched, key ∈ w.tracker.watched ∨ w.supports (w.absolute p) = true ∧
        (d.read (w.absolute p)).toOption.isSome = true ∧ key = (w.absolute p).normalized := by
  rw [applyModified]
  dsimp only
  generalize ho : (if w.tracker.isTracked (w.absolute p) then _ else _) = o
  refine ⟨o.1, ?_, ?_, ?_⟩
  · obtain ⟨t, d', result⟩ := o
    cases result with
    | error f => exact .refl _
    | ok b =>
      cases b with
      | false => exact .refl _
      | true => exact frame_index k d' _ _
  · rw [← ho]
    split
    · exact Tracker.revises_refreshFile
    · split
      · exact Tracker.revises_addFile
      · exact .refl _
  · intro key hkey
    rw [← ho] at hkey
    split at hkey
    · rw [Tracker.watched_refreshFile] at hkey
      exact Or.inl hkey
    · split at hkey
      · rename_i hwelcome
        rw [isWelcome, Bool.and_eq_true, Bool.and_eq_true] at hwelcome
        exact (Tracker.mem_watched_addFile.mp hkey).imp_right (And.intro hwelcome.1.2)
      · exact Or.inl hkey

/-! ## Operations -/

/-- The same scope, and no tracked files but those from before and some new ones. -/
structure Gains (w v : Workspace) (new : String → Prop) : Prop where
  root : v.root = w.root
  languages : v.languages = w.languages
  extensions : v.tracker.extensions = w.tracker.extensions
  watched : ∀ key ∈ v.tracker.watched, key ∈ w.tracker.watched ∨ new key

variable {new : String → Prop}

theorem Frame.gains (h : w.Frame v) : w.Gains v new :=
  ⟨h.root, h.languages, h.tracker ▸ rfl, fun _ hkey => Or.inl (h.tracker ▸ hkey)⟩

theorem Gains.of_tracker {t : Tracker} (hframe : Frame { w with tracker := t } v)
    (hrevises : w.tracker.Revises t)
    (h : ∀ key ∈ t.watched, key ∈ w.tracker.watched ∨ new key) : w.Gains v new :=
  ⟨hframe.root, hframe.languages, hframe.tracker ▸ hrevises.extensions,
    fun key hkey => h key (by rwa [hframe.tracker] at hkey)⟩

theorem Gains.trans {u : Workspace} (h : w.Gains v new) (h' : v.Gains u new) : w.Gains u new :=
  ⟨h'.root.trans h.root, h'.languages.trans h.languages, h'.extensions.trans h.extensions,
    fun key hkey => (h'.watched key hkey).elim (h.watched key) Or.inr⟩

theorem Gains.mono {new' : String → Prop} (h : w.Gains v new) (hnew : ∀ key, new key → new' key) :
    w.Gains v new' :=
  { h with watched := fun key hkey => (h.watched key hkey).imp_right (hnew key) }

theorem gains_forEach {op : Path → Workspace → Disk → Outcome Report} {ps : List Path}
    (h : ∀ p ∈ ps, ∀ (v : Workspace) (d : Disk), v.root = w.root → v.languages = w.languages →
      v.Gains (op p v d).1 new) : w.Gains (forEach op ps w d).1 new := by
  induction ps generalizing w d with
  | nil => exact (Frame.refl w).gains
  | cons p ps ih =>
    have hfirst := h p List.mem_cons_self w d rfl rfl
    rw [forEach]
    generalize op p w d = o at hfirst
    obtain ⟨v, d', result⟩ := o
    cases result with
    | error f => exact hfirst
    | ok r =>
      have hrest : v.Gains (forEach op ps v d').1 new :=
        ih fun q hq u e hroot hlanguages => h q (List.mem_cons_of_mem p hq) u e
          (hroot.trans hfirst.root) (hlanguages.trans hfirst.languages)
      dsimp only
      generalize forEach op ps v d' = o at hrest
      obtain ⟨u, d'', result⟩ := o
      cases result with
      | error f => exact hfirst.trans hrest
      | ok s => exact hfirst.trans hrest

end Workspace

namespace Operation

open Workspace

/-- The paths that an operation may track. -/
def offers (w : Workspace) (d : Disk) : Operation → List Path
  | addFile p => [w.absolute p].filter (w.supports ·)
  | addFolder folder => d.enumerate w.tracker.extensions (w.absolute folder)
  | apply modified _ => (modified.map w.absolute).filter (w.supports ·)
  | removeFile _ | removeFolder _ | sync | reindex => []

/-- The keys of the files that an operation may track. -/
def Offered (w : Workspace) (d : Disk) (o : Operation) (key : String) : Prop :=
  ∃ p ∈ o.offers w d, p.IsReadable ∧ key = p.normalized

/-- The keys that an operation may add are of a kind. -/
def Adds (root : Path) (d : Disk) (new : String → Prop) : Operation → Prop
  | addFile p => new (root.absolutize p).normalized
  | addFolder folder => ∀ extensions, ∀ f ∈ d.enumerate extensions (root.absolutize folder),
      new f.normalized
  | apply modified _ => ∀ p ∈ modified, new (root.absolutize p).normalized
  | removeFile _ | removeFolder _ | sync | reindex => True

variable {k : Toolkit} {d : Disk} {w : Workspace} {new : String → Prop}

theorem gains_apply (modified deleted : List Path) :
    w.Gains (w.apply k modified deleted d).1 (Offered w d (.apply modified deleted)) := by
  have hdeleted : w.Gains (forEach (applyDeleted k) deleted w d).1
      (Offered w d (.apply modified deleted)) :=
    gains_forEach fun p _ v e _ _ => .of_tracker frame_applyDeleted Tracker.revises_removeFile
      fun key hkey => Or.inl (Tracker.mem_watched_removeFile.mp hkey).1
  rw [Workspace.apply]
  generalize forEach (applyDeleted k) deleted w d = o at hdeleted
  obtain ⟨v, d', result⟩ := o
  cases result with
  | error f => exact hdeleted
  | ok r =>
    have hmodified : v.Gains (forEach (applyModified k) modified v d').1
        (Offered w d (.apply modified deleted)) := by
      refine gains_forEach fun p hp u e hroot hlanguages => ?_
      have habs : u.absolute p = w.absolute p := by
        rw [absolute, absolute, hroot, hdeleted.root]
      obtain ⟨t, hframe, hrevises, hwatched⟩ :=
        frame_applyModified (k := k) (d := e) (w := u) (p := p)
      refine .of_tracker hframe hrevises fun key hkey => (hwatched key hkey).imp_right ?_
      rw [habs, supports, hlanguages.trans hdeleted.languages]
      rintro ⟨hsupports, hread, hnew⟩
      exact ⟨w.absolute p, List.mem_filter.mpr ⟨List.mem_map_of_mem hp, hsupports⟩,
        ⟨e, hread⟩, hnew⟩
    dsimp only
    generalize forEach (applyModified k) modified v d' = o at hmodified
    obtain ⟨u, d'', result⟩ := o
    have hboth := hdeleted.trans hmodified
    cases result with
    | error f => exact hboth
    | ok s =>
      dsimp only
      split
      · exact hboth
      · exact hboth.trans (frame_saved u _).gains

/-- The files that are tracked after an operation were tracked before, or the operation may track
them. -/
theorem gains_offers (o : Operation) : w.Gains (o.run k w d).1 (o.Offered w d) := by
  cases o with
  | addFile p =>
    change w.Gains (w.addFile k p d).1 _
    by_cases hsupports : w.supports (w.absolute p) = true
    · rcases frame_addFile (k := k) (d := d) (w := w) (p := p) with hframe | hframe
      · exact hframe.gains
      · refine .of_tracker hframe Tracker.revises_addFile fun key hkey =>
          (Tracker.mem_watched_addFile.mp hkey).imp_right ?_
        rintro ⟨hread, hnew⟩
        exact ⟨w.absolute p, by simp [offers, hsupports], ⟨d, hread⟩, hnew⟩
    · rw [Workspace.addFile]
      dsimp only
      rw [if_pos (by simpa using hsupports)]
      exact (Frame.refl w).gains
  | addFolder folder =>
    change w.Gains (w.addFolder k folder d).1 _
    refine .of_tracker frame_addFolder Tracker.revises_addFolder fun key hkey =>
      (Tracker.mem_watched_addFolder.mp hkey).imp_right ?_
    rintro ⟨f, hf, hread, hnew⟩
    exact ⟨f, hf, ⟨d, hread⟩, hnew⟩
  | removeFile p =>
    change w.Gains (w.removeFile k p d).1 _
    exact .of_tracker frame_removeFile Tracker.revises_removeFile fun key hkey =>
      Or.inl (Tracker.mem_watched_removeFile.mp hkey).1
  | removeFolder folder =>
    change w.Gains (w.removeFolder k folder d).1 _
    exact .of_tracker frame_removeFolder Tracker.revises_removeFolder fun key hkey =>
      Or.inl (Tracker.mem_watched_removeFolder.mp hkey).1
  | sync =>
    change w.Gains (w.sync k d).1 _
    exact .of_tracker frame_sync Tracker.revises_changedFiles fun key hkey =>
      Or.inl (Tracker.watched_changedFiles ▸ hkey)
  | apply modified deleted => exact gains_apply modified deleted
  | reindex => exact frame_reindex.gains

theorem gains_run {o : Operation} (h : o.Adds w.root d new) : w.Gains (o.run k w d).1 new := by
  refine (gains_offers o).mono fun key hkey => ?_
  obtain ⟨p, hp, -, rfl⟩ := hkey
  cases o with
  | addFile q =>
    obtain rfl := List.mem_singleton.mp (List.mem_filter.mp hp).1
    exact h
  | addFolder folder => exact h _ p hp
  | apply modified deleted =>
    obtain ⟨q, hq, rfl⟩ := List.mem_map.mp (List.mem_filter.mp hp).1
    exact h q hq
  | removeFile q => cases hp
  | removeFolder folder => cases hp
  | sync => cases hp
  | reindex => cases hp

theorem root_run (o : Operation) : (o.run k w d).1.root = w.root := (gains_offers o).root

end Operation

/-- The states and the results of operations, each with the disk that it finds. -/
def Workspace.trace (k : Toolkit) :
    Workspace → List (Disk × Operation) → List (Workspace × Except WorkspaceFault Report)
  | _, [] => []
  | w, (d, o) :: steps => ((o.run k w d).1, (o.run k w d).2.2) :: trace k (o.run k w d).1 steps

/-- What related steps keep between two workspaces holds in all states that they lead to. -/
theorem Workspace.forall₂_trace {k : Toolkit} {R : Workspace → Workspace → Prop}
    {S : Disk × Operation → Disk × Operation → Prop} {steps steps' : List (Disk × Operation)}
    (hstep : ∀ s s' w v, S s s' → R w v → R (s.2.run k w s.1).1 (s'.2.run k v s'.1).1)
    (h : List.Forall₂ S steps steps') {w v : Workspace} (hwv : R w v) :
    List.Forall₂ (fun s s' => R s.1 s'.1) (w.trace k steps) (v.trace k steps') := by
  induction h generalizing w v with
  | nil => exact .nil
  | cons hfirst _ ih =>
    have hnext := hstep _ _ w v hfirst hwv
    exact .cons hnext (ih hnext)

end SourceGraph
