import SourceGraph.Proofs.Runs

/-!
# What cycles do to a workspace

Each operation that succeeds is taken apart into a change of the tracker, the description of some
files and the saving of the graphs. Nothing else opens the operations.

* `Workspace.Restamps`: the same workspace, saved at other times.
* `Workspace.Settles`: saving changes nothing but times of saving.
* `Workspace.Frame`: what the change of the graphs leaves alone.
* `Workspace.addFile_ok`, `Workspace.addFolder_ok`, `Workspace.removeFile_ok`,
  `Workspace.removeFolder_ok`, `Workspace.sync_ok`, `Workspace.reindex_ok`: the parts of each cycle.
* `Workspace.apply_ok`: what each deleted and each changed file keeps is kept by a batch.
-/

set_option autoImplicit false

namespace SourceGraph

namespace Workspace

variable {k : Toolkit} {d d' : Disk} {w w' w'' : Workspace} {p : Path} {r : Report}

/-- The same workspace, saved at other times. -/
def Restamps (w w' : Workspace) : Prop :=
  ∃ x y, w' = { w with
    imports := { w.imports with savedAt := x }, calls := { w.calls with savedAt := y } }

theorem Restamps.refl (w : Workspace) : w.Restamps w := ⟨w.imports.savedAt, w.calls.savedAt, rfl⟩

theorem Restamps.symm (h : w.Restamps w') : w'.Restamps w := by
  obtain ⟨x, y, rfl⟩ := h
  exact ⟨w.imports.savedAt, w.calls.savedAt, rfl⟩

theorem Restamps.trans (h : w.Restamps w') (h' : w'.Restamps w'') : w.Restamps w'' := by
  obtain ⟨x, y, rfl⟩ := h
  obtain ⟨x', y', rfl⟩ := h'
  exact ⟨x', y', rfl⟩

/-- Only times of saving differ; without documents the disk is as before. -/
def Settles (w : Workspace) (d : Disk) (w' : Workspace) (d' : Disk) : Prop :=
  w.Restamps w' ∧ (w.imports.path = none → w.calls.path = none → d' = d)

theorem Settles.refl (w : Workspace) (d : Disk) : w.Settles d w d :=
  ⟨.refl w, fun _ _ => rfl⟩

theorem save_fst {s s' : Store} {now : Timestamp} {b : Except SaveFault Unit}
    (h : s.save now d = (s', d', b)) :
    (∃ x, s' = { s with savedAt := x }) ∧ (s.path = none → d' = d) := by
  unfold Store.save at h
  split at h
  · cases h
    exact ⟨⟨s.savedAt, rfl⟩, fun _ => rfl⟩
  · rename_i q hpath
    refine ⟨⟨some now, ?_⟩, fun hnone => by simp [hpath] at hnone⟩
    dsimp only at h
    split at h <;> cases h <;> rfl

theorem settles_of_saved {α : Type} {a b : α} (h : w.saved k d a = (w', d', .ok b)) :
    w.Settles d w' d' ∧ b = a := by
  unfold saved at h
  split at h
  · cases h
  · rename_i imports d₁ _ himports
    obtain ⟨⟨x, rfl⟩, hdisk⟩ := save_fst himports
    split at h
    · cases h
    · rename_i calls d₂ _ hcalls
      obtain ⟨⟨y, rfl⟩, hdisk'⟩ := save_fst hcalls
      cases h
      exact ⟨⟨⟨x, y, rfl⟩, fun hi hc => (hdisk' hc).trans (hdisk hi)⟩, rfl⟩

/-- Two workspaces that differ in what their graphs hold only. -/
structure Frame (w w' : Workspace) : Prop where
  root : w'.root = w.root
  languages : w'.languages = w.languages
  tracker : w'.tracker = w.tracker
  importsPath : w'.imports.path = w.imports.path
  callsPath : w'.calls.path = w.calls.path

theorem Frame.refl (w : Workspace) : w.Frame w := ⟨rfl, rfl, rfl, rfl, rfl⟩

theorem Frame.symm (h : w.Frame w') : w'.Frame w :=
  ⟨h.root.symm, h.languages.symm, h.tracker.symm, h.importsPath.symm, h.callsPath.symm⟩

theorem Frame.trans {v : Workspace} (h : w.Frame w') (h' : w'.Frame v) : w.Frame v :=
  ⟨h'.root.trans h.root, h'.languages.trans h.languages, h'.tracker.trans h.tracker,
    h'.importsPath.trans h.importsPath, h'.callsPath.trans h.callsPath⟩

theorem frame_indexAll (k : Toolkit) (d : Disk) (w : Workspace) (ps : List Path) :
    w.Frame (w.indexAll k d ps).1 := by
  obtain ⟨imports, calls, himports, hcalls, h⟩ := indexAll_fst k d w ps
  rw [h]
  exact ⟨rfl, rfl, rfl, himports, hcalls⟩

theorem frame_index (k : Toolkit) (d : Disk) (w : Workspace) (p : Path) :
    w.Frame (w.index k d p).1 := frame_indexAll k d w [p]

theorem frame_dropFile (w : Workspace) (id : Option String) : w.Frame (id.elim w w.dropFile) := by
  cases id <;> exact ⟨rfl, rfl, rfl, rfl, rfl⟩

theorem frame_dropFile_if (w : Workspace) (id : Option String) (b : Bool) :
    w.Frame (if b then id.elim w w.dropFile else w) := by
  cases b with
  | true => exact frame_dropFile w id
  | false => exact .refl w

theorem frame_dropBelow (w : Workspace) (folder : Path) : w.Frame (w.dropBelow folder) := by
  unfold dropBelow
  split
  · exact ⟨rfl, rfl, rfl, rfl, rfl⟩
  · cases FileId.ofPath? w.root folder <;> exact ⟨rfl, rfl, rfl, rfl, rfl⟩

theorem frame_clear (w : Workspace) :
    w.Frame { w with imports := w.imports.clear, calls := w.calls.clear } :=
  ⟨rfl, rfl, rfl, rfl, rfl⟩

theorem Restamps.frame (h : w.Restamps w') : w.Frame w' := by
  obtain ⟨x, y, rfl⟩ := h
  exact ⟨rfl, rfl, rfl, rfl, rfl⟩

theorem Settles.frame (h : w.Settles d w' d') : w.Frame w' := h.1.frame

theorem withTracker_ok {α : Type} {o : Tracker.Outcome α} {a : α}
    (h : w.withTracker o = (w', d', .ok a)) :
    ∃ t, o = (t, d', .ok a) ∧ w' = { w with tracker := t } := by
  obtain ⟨t, d₁, res⟩ := o
  cases res with
  | error f => cases h
  | ok b =>
    cases h
    exact ⟨t, rfl, rfl⟩

theorem absolute_of_isAbsolute (hp : p.isAbsolute = true) : w.absolute p = p := by
  simp [absolute, Path.absolutize, hp]

theorem absolute_of_isUnder (hp : Path.IsUnder w.root p) : w.absolute p = p :=
  absolute_of_isAbsolute hp.isAbsolute

/-- A file is described when it is tracked at the end. -/
theorem addFile_ok (hp : p.isAbsolute = true) (h : w.addFile k p d = (w', d', .ok r)) :
    ∃ t d₁ added ps, w.tracker.Extends k.digest d t added ∧ (w.tracker.path = none → d₁ = d) ∧
      (added = ps ∨ added = [] ∧ w.tracker.isTracked p = true) ∧ (∀ q ∈ ps, q = p ∧ t.isTracked q) ∧
      (∀ q ∈ added, q = p) ∧
      Settles (indexAll k d₁ { w with tracker := t } ps).1 d₁ w' d' ∧
      ∀ last, (Operation.addFile p).latest k w d last = last.indexAll k d₁ w ps := by
  unfold addFile at h
  rw [absolute_of_isAbsolute hp] at h
  cases hsup : w.supports p with
  | false =>
    simp only [hsup, Bool.not_false, ↓reduceIte] at h
    cases h
    exact ⟨w.tracker, d, [], [], .refl _ _ _, fun _ => rfl, Or.inl rfl, by simp, by simp,
      Settles.refl w d, Operation.latest_addFile_unsupported hsup⟩
  | true =>
    simp only [hsup, Bool.not_true, Bool.false_eq_true, ↓reduceIte] at h
    split at h
    · cases h
    · rename_i w₁ d₁ b htracker
      obtain ⟨t, hadd, rfl⟩ := withTracker_ok htracker
      obtain ⟨hext, hdisk⟩ := Tracker.addFile_ok hadd
      have hadded : ∀ q ∈ (if b then [p] else []), q = p := by
        cases b <;> simp
      cases htracked : t.isTracked p with
      | false =>
        -- a file that was taken is tracked now, so this one was refused
        have hb : b = false := by
          cases b with
          | false => rfl
          | true =>
            have hmem := (hext.watched p.normalized).mpr (Or.inr (by simp))
            rw [← Tracker.isTracked_iff, htracked] at hmem
            cases hmem
        subst hb
        simp only [htracked, Bool.false_eq_true, ↓reduceIte] at h
        cases h
        exact ⟨t, d', [], [], hext, hdisk, Or.inl rfl, by simp, by simp, Settles.refl _ _,
          fun last => by rw [Operation.latest_addFile hsup hadd, htracked]; rfl⟩
      | true =>
        simp only [htracked, ↓reduceIte] at h
        refine ⟨t, d₁, _, [p], hext, hdisk, ?_, by simpa using htracked, hadded,
          (settles_of_saved h).1, ?_⟩
        · cases b with
          | true => exact Or.inl rfl
          | false =>
            have hmem := (hext.watched p.normalized).mp (Tracker.isTracked_iff.mp htracked)
            refine Or.inr ⟨rfl, Tracker.isTracked_iff.mpr ?_⟩
            simpa using hmem
        · intro last
          rw [Operation.latest_addFile hsup hadd, htracked]
          rfl

theorem addFolder_ok {folder : Path} (hp : folder.isAbsolute = true)
    (h : w.addFolder k folder d = (w', d', .ok r)) :
    ∃ t d₁ added, w.tracker.Extends k.digest d t added ∧ (w.tracker.path = none → d₁ = d) ∧
      (∀ q ∈ added, q ∈ d.enumerate w.tracker.extensions folder) ∧
      Settles (indexAll k d₁ { w with tracker := t } added).1 d₁ w' d' ∧
      ∀ last, (Operation.addFolder folder).latest k w d last = last.indexAll k d₁ w added := by
  unfold addFolder at h
  rw [absolute_of_isAbsolute hp] at h
  split at h
  · cases h
  · rename_i w₁ d₁ added htracker
    obtain ⟨t, hadd, rfl⟩ := withTracker_ok htracker
    obtain ⟨hext, hsub, hdisk⟩ := Tracker.addFolder_ok hadd
    exact ⟨t, d₁, added, hext, hdisk, hsub, (settles_of_saved h).1,
      Operation.latest_addFolder hadd⟩

theorem removeFile_ok (hp : p.isAbsolute = true) (h : w.removeFile k p d = (w', d', .ok r)) :
    ∃ t d₁, w.tracker.Drops t (· = p.normalized) ∧ (w.tracker.path = none → d₁ = d) ∧
      Settles ((FileId.ofPath? w.root p).elim { w with tracker := t }
        (dropFile { w with tracker := t })) d₁ w' d' := by
  unfold removeFile at h
  rw [absolute_of_isAbsolute hp] at h
  dsimp only at h
  split at h
  · cases h
  · rename_i w₁ d₁ b htracker
    obtain ⟨t, hremove, rfl⟩ := withTracker_ok htracker
    obtain ⟨hdrops, _, hdisk⟩ := Tracker.removeFile_ok hremove
    exact ⟨t, d₁, hdrops, hdisk, (settles_of_saved h).1⟩

theorem removeFolder_ok {folder : Path} (hp : folder.isAbsolute = true)
    (h : w.removeFolder k folder d = (w', d', .ok r)) :
    ∃ t d₁, w.tracker.Drops t (FileId.isWithin · folder.normalized = true) ∧
      (w.tracker.path = none → d₁ = d) ∧
      Settles (dropBelow { w with tracker := t } folder) d₁ w' d' := by
  unfold removeFolder at h
  rw [absolute_of_isAbsolute hp] at h
  dsimp only at h
  split at h
  · cases h
  · rename_i w₁ d₁ b htracker
    obtain ⟨t, hremove, rfl⟩ := withTracker_ok htracker
    obtain ⟨hdrops, hdisk⟩ := Tracker.removeFolder_ok hremove
    exact ⟨t, d₁, hdrops, hdisk, (settles_of_saved h).1⟩

theorem sync_ok (h : w.sync k d = (w', d', .ok r)) :
    ∃ t d₁ keys, w.tracker.Rescans k.digest d t keys ∧ (w.tracker.path = none → d₁ = d) ∧
      Settles (indexAll k d₁ { w with tracker := t } (keys.map Path.mk)).1 d₁ w' d' ∧
      ∀ last, Operation.sync.latest k w d last = last.indexAll k d₁ w (keys.map Path.mk) := by
  unfold sync at h
  split at h
  · cases h
  · rename_i w₁ d₁ htracker
    obtain ⟨t, hchanged, rfl⟩ := withTracker_ok htracker
    obtain ⟨⟨keys, hkeys, hspec⟩, hdisk⟩ := Tracker.changedFiles_ok hchanged
    cases h
    rw [hkeys] at hchanged
    refine ⟨t, d', keys, hspec, hdisk, ?_, Operation.latest_sync hchanged⟩
    rw [← hkeys]
    exact Settles.refl _ _
  · rename_i w₁ d₁ changed _ htracker
    obtain ⟨t, hchanged, rfl⟩ := withTracker_ok htracker
    obtain ⟨⟨keys, rfl, hspec⟩, hdisk⟩ := Tracker.changedFiles_ok hchanged
    exact ⟨t, d₁, keys, hspec, hdisk, (settles_of_saved h).1,
      Operation.latest_sync hchanged⟩

theorem reindex_ok (h : w.reindex k d = (w', d', .ok r)) :
    Settles (indexAll k d { w with imports := w.imports.clear, calls := w.calls.clear }
      w.tracker.files).1 d w' d' :=
  (settles_of_saved h).1

/-! ## Batches of changes -/

theorem applyDeleted_ok (hp : p.isAbsolute = true)
    (h : w.applyDeleted k p d = (w', d', .ok r)) :
    ∃ t, w.tracker.Drops t (· = p.normalized) ∧ (w.tracker.path = none → d' = d) ∧
      w' = if w.tracker.isTracked p then
        (FileId.ofPath? w.root p).elim { w with tracker := t } (dropFile { w with tracker := t })
      else { w with tracker := t } := by
  unfold applyDeleted at h
  rw [absolute_of_isAbsolute hp] at h
  dsimp only at h
  split at h
  · cases h
  · rename_i w₁ d₁ htracker
    obtain ⟨t, hremove, rfl⟩ := withTracker_ok htracker
    obtain ⟨hdrops, htracked, hdisk⟩ := Tracker.removeFile_ok hremove
    cases h
    exact ⟨t, hdrops, hdisk, by simp [← htracked]⟩
  · rename_i w₁ d₁ htracker
    obtain ⟨t, hremove, rfl⟩ := withTracker_ok htracker
    obtain ⟨hdrops, htracked, hdisk⟩ := Tracker.removeFile_ok hremove
    cases h
    exact ⟨t, hdrops, hdisk, by simp [← htracked]⟩

theorem indexed_index (k : Toolkit) (d : Disk) (w : Workspace) (p : Path) :
    (w.index k d p).2.indexed = if (w.described? k d p).isSome then 1 else 0 := by
  unfold index described?
  cases FileId.ofPath? w.root p with
  | none => rfl
  | some file =>
    cases w.describe k d p with
    | ok o => cases o <;> rfl
    | error f => cases f <;> rfl

/-- A change is noticed by the digest of a tracked file, or by tracking a new file. -/
theorem noticed_ok {t : Tracker} {b : Bool}
    (h : (if w.tracker.isTracked p then w.tracker.refreshFile k p d
      else if w.isWelcome p then w.tracker.addFile k p d
      else (w.tracker, d, .ok false)) = (t, d', .ok b)) :
    w.tracker.isTracked p = true ∧ w.tracker.refreshFile k p d = (t, d', .ok b) ∨
      w.tracker.Extends k.digest d t (if b then [p] else []) ∧
        (w.tracker.path = none → d' = d) := by
  split at h
  · rename_i htracked
    exact Or.inl ⟨htracked, h⟩
  · split at h
    · exact Or.inr (Tracker.addFile_ok h)
    · cases h
      exact Or.inr ⟨.refl _ _ _, fun _ => rfl⟩

/-- A changed file is described when its digest is new, or when it is tracked from now on. -/
theorem applyModified_ok (hp : p.isAbsolute = true)
    (h : w.applyModified k p d = (w', d', .ok r)) :
    ∃ t b,
      (w.tracker.isTracked p = true ∧ w.tracker.refreshFile k p d = (t, d', .ok b) ∨
        w.tracker.Extends k.digest d t (if b then [p] else []) ∧
          (w.tracker.path = none → d' = d)) ∧
      w' = (indexAll k d' { w with tracker := t } (if b then [p] else [])).1 ∧
      ∀ last : Latest, (if r.indexed = 0 then last else last.index k d' w' p) =
        last.indexAll k d' w (if b then [p] else []) := by
  unfold applyModified at h
  rw [absolute_of_isAbsolute hp] at h
  dsimp only at h
  split at h
  · cases h
  · rename_i w₁ d₁ htracker
    obtain ⟨t, hnoticed, rfl⟩ := withTracker_ok htracker
    cases h
    exact ⟨t, false, noticed_ok hnoticed, rfl, fun last => by simp [Latest.indexAll]⟩
  · rename_i w₁ d₁ htracker
    obtain ⟨t, hnoticed, rfl⟩ := withTracker_ok htracker
    cases h
    refine ⟨t, true, noticed_ok hnoticed, rfl, ?_⟩
    -- the report counts a file exactly when it was described, also as seen from `w'`
    intro last
    obtain ⟨imports, calls, _, _, hw⟩ := indexAll_fst k d' { w with tracker := t } [p]
    have hindex : (index k d' { w with tracker := t } p).1 =
        { w with tracker := t, imports, calls } := hw
    have hsame : ∀ w₂ : Workspace, w₂ = { w with tracker := t, imports, calls } →
        w₂.described? k d' p = w.described? k d' p := by
      rintro _ rfl
      rfl
    have hdesc : described? k d' { w with tracker := t } p = w.described? k d' p := rfl
    simp only [indexed_index, hdesc, Latest.index, hsame _ hindex]
    cases hd : w.described? k d' p with
    | none => simp [Latest.indexAll, Latest.index, hd]
    | some e => simp [Latest.indexAll, Latest.index, hd]

theorem forEach_cons_ok {op : Path → Workspace → Disk → Outcome Report} {ps : List Path}
    (h : forEach op (p :: ps) w d = (w', d', .ok r)) :
    ∃ w₁ d₁ r₁ r₂, op p w d = (w₁, d₁, .ok r₁) ∧ forEach op ps w₁ d₁ = (w', d', .ok r₂) := by
  unfold forEach at h
  split at h
  · cases h
  · rename_i w₁ d₁ r₁ hfirst
    split at h
    · cases h
    · rename_i w₂ d₂ r₂ hrest
      cases h
      exact ⟨w₁, d₁, r₁, r₂, hfirst, hrest⟩

/-- What the removal of each deleted file keeps is kept by the removal of all. -/
theorem forEach_applyDeleted {root : Path} {motive : Workspace → Disk → Latest → Prop}
    {ps : List Path}
    (hstep : ∀ p ∈ ps, ∀ w d w' d' r last, motive w d last →
      w.applyDeleted k p d = (w', d', .ok r) → motive w' d' (last.outside root (·.same p)))
    {last : Latest} (hstart : motive w d last)
    (h : forEach (applyDeleted k) ps w d = (w', d', .ok r)) :
    motive w' d' (last.outside root fun q => ps.any q.same) := by
  induction ps generalizing w d last r with
  | nil =>
    cases h
    have hall : last.outside root (fun q => [].any q.same) = last := Latest.outside_none root last
    rwa [hall]
  | cons p ps ih =>
    obtain ⟨w₁, d₁, r₁, r₂, hfirst, hrest⟩ := forEach_cons_ok h
    have hmid := hstep p List.mem_cons_self w d w₁ d₁ r₁ last hstart hfirst
    have hend := ih (fun q hq => hstep q (List.mem_cons_of_mem _ hq)) hmid hrest
    have hall : (last.outside root (·.same p)).outside root (fun q => ps.any q.same) =
        last.outside root fun q => (p :: ps).any q.same :=
      Latest.outside_outside root _ _ last
    rwa [hall] at hend

/-- What the description of each changed file keeps is kept by the description of all. -/
theorem forEach_applyModified {motive : Workspace → Disk → Latest → Prop} {ps : List Path}
    (hstep : ∀ p ∈ ps, ∀ w d w' d' r last, motive w d last →
      w.applyModified k p d = (w', d', .ok r) →
      motive w' d' (if r.indexed = 0 then last else last.index k d' w' p))
    {last : Latest} (hstart : motive w d last)
    (h : forEach (applyModified k) ps w d = (w', d', .ok r)) :
    motive w' d' (last.modify k ps w d) := by
  induction ps generalizing w d last r with
  | nil =>
    cases h
    exact hstart
  | cons p ps ih =>
    obtain ⟨w₁, d₁, r₁, r₂, hfirst, hrest⟩ := forEach_cons_ok h
    have hmid := hstep p List.mem_cons_self w d w₁ d₁ r₁ last hstart hfirst
    have hend := ih (fun q hq => hstep q (List.mem_cons_of_mem _ hq)) hmid hrest
    rw [Latest.modify, hfirst]
    exact hend

/-- What deleted and changed files keep is kept by a batch of them, up to the saving. -/
theorem apply_ok (root : Path) {motive : Workspace → Disk → Latest → Prop}
    {modified deleted : List Path}
    (hdeleted : ∀ p ∈ deleted, ∀ w d w' d' r last, motive w d last →
      w.applyDeleted k p d = (w', d', .ok r) → motive w' d' (last.outside root (·.same p)))
    (hmodified : ∀ p ∈ modified, ∀ w d w' d' r last, motive w d last →
      w.applyModified k p d = (w', d', .ok r) →
      motive w' d' (if r.indexed = 0 then last else last.index k d' w' p))
    (last : Latest) (hstart : motive w d last) (hroot : w.root = root)
    (h : w.apply k modified deleted d = (w', d', .ok r)) :
    ∃ w₁ d₁, motive w₁ d₁ ((Operation.apply modified deleted).latest k w d last) ∧
      w₁.Settles d₁ w' d' := by
  unfold apply at h
  split at h
  · cases h
  · rename_i w₁ d₁ r₁ hdel
    split at h
    · cases h
    · rename_i w₂ d₂ r₂ hmod
      have hmid := forEach_applyDeleted hdeleted hstart hdel
      have hend := forEach_applyModified hmodified hmid hmod
      have hlatest : (Operation.apply modified deleted).latest k w d last =
          (last.outside root fun q => deleted.any q.same).modify k modified w₁ d₁ := by
        rw [Operation.latest_apply hdel, hroot]
      rw [hlatest]
      refine ⟨w₂, d₂, hend, ?_⟩
      dsimp only at h
      split at h
      · cases h
        exact Settles.refl _ _
      · exact (settles_of_saved h).1

end Workspace

end SourceGraph
