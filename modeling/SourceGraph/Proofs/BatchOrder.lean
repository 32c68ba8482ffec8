import SourceGraph.Proofs.Exchange

/-!
# The order of a batch

A new file is tracked when a folder that directly holds a tracked file covers it. A file that is
covered brings nothing new under cover, so the changed files of a batch may come in any order. That is
not so for the deleted ones: they go first, and with them what only they covered.

* `Tracker.Encloses`: what tracking a covered file would cover is covered already.
* `Change.covers_pass`: so the covered region stays.
* `Workspace.apply_of_same_files`: changed files in any order, and more than once.
* `Change.IsLost`: a new file that only deleted files cover.
* `Workspace.apply_split`: one batch or two, but for the files that are lost.
-/

set_option autoImplicit false

namespace SourceGraph

/-! ## The covered region -/

namespace Tracker

variable {t t' : Tracker} {p : Path}

theorem covers_of_subset (h : ∀ key ∈ t.watched, key ∈ t'.watched) (hp : t.covers p = true) :
    t'.covers p = true := by
  rw [covers_iff] at hp ⊢
  obtain ⟨file, hfile, hcovers⟩ := hp
  exact ⟨file, h file hfile, hcovers⟩

theorem covers_congr (h : ∀ key, key ∈ t.watched ↔ key ∈ t'.watched) : t.covers p = t'.covers p := by
  rw [Bool.eq_iff_iff]
  exact ⟨covers_of_subset fun key => (h key).mp, covers_of_subset fun key => (h key).mpr⟩

/-- If a file is covered, then so is all that its folder holds. -/
def Encloses (t : Tracker) (p : Path) : Prop :=
  t.covers p = true → ∀ q : Path, FileId.parent p.normalized ≠ "" →
    FileId.isWithin q.normalized (FileId.parent p.normalized) = true → t.covers q = true

theorem Encloses.congr (h : t.Encloses p) (hcovers : ∀ q, t'.covers q = t.covers q) :
    t'.Encloses p := by
  intro hp q hparent hq
  rw [hcovers] at hp ⊢
  exact h hp q hparent hq

/-- A file encloses nothing new unless it stands where tracked files have their folder. -/
theorem encloses_of_parent_ne (hp : p.IsClean) (hkeys : ∀ q ∈ t.files, q.IsClean)
    (hparent : ∀ q ∈ t.files, FileId.parent q.text ≠ p.text) : t.Encloses p := by
  intro hcovers q hne hq
  rw [covers_iff] at hcovers ⊢
  obtain ⟨file, hfile, hfolder, hwithin⟩ := hcovers
  have hmem : Path.mk file ∈ t.files := mk_mem_files.mpr hfile
  refine ⟨file, hfile, hfolder, FileId.isWithin_of_parent hwithin ?_ hne hq⟩
  have htrim : Path.trimSeparators (FileId.parent file) = FileId.parent file :=
    (hkeys _ hmem).trimSeparators_parent
  rw [htrim, hp.normalized_eq]
  exact hparent _ hmem

end Tracker

/-! ## What a batch tracks -/

namespace Change

variable {k : Toolkit} {d : Disk} {w : Workspace} {p q : Path} {key : String}

theorem mem_watched_iff {t : Tracker} : key ∈ t.watched ↔ (t.entry key).1 = true :=
  Std.ExtTreeSet.contains_iff_mem.symm

/-- What is noted for a changed file is its digest, if it was tracked or is welcome. -/
theorem news?_modified {n : Option String} (h : (modified p).news? k.digest d w = some n) :
    n = Tracker.hashOf? k.digest d (w.absolute p) ∧ n ≠ none ∧
      (w.tracker.isTracked (w.absolute p) = true ∨ w.isWelcome (w.absolute p) = true) := by
  rw [news?] at h
  split at h
  · rename_i htracked
    obtain ⟨hash, hhash, rfl⟩ := Option.map_eq_some_iff.mp h
    exact ⟨(Option.filter_eq_some_iff.mp hhash).1.symm, by simp, Or.inl htracked⟩
  · split at h
    · rename_i hwelcome
      obtain ⟨hash, hhash, rfl⟩ := Option.map_eq_some_iff.mp h
      exact ⟨hhash.symm, by simp, Or.inr hwelcome⟩
    · cases h

/-- After a changed file what was tracked is tracked, and the file if it is welcome and readable. -/
theorem mem_watched_modified (hp : p.IsClean) :
    key ∈ (pass k d w (modified p)).tracker.watched ↔ key ∈ w.tracker.watched ∨
      p.normalized = key ∧ Tracker.hashOf? k.digest d p ≠ none ∧ w.isWelcome p = true := by
  have habsolute : w.absolute p = p := Workspace.absolute_of_isAbsolute hp.isAbsolute
  have hkey : (modified p).key w = p.normalized := key_eq hp
  by_cases hother : key = p.normalized
  · rw [hother, pass_eq, hkey]
    cases hnews : (modified p).news? k.digest d w with
    | none =>
      refine ⟨Or.inl, ?_⟩
      rintro (hmem | ⟨_, hread, hwelcome⟩)
      · exact hmem
      · -- a file that is readable and welcome is noted, unless it is tracked
        by_contra hnot
        have htracked : w.tracker.isTracked p = false := Tracker.isTracked_eq_false.mpr hnot
        rw [news?, habsolute, htracked, hwelcome] at hnews
        simp only [Bool.false_eq_true, if_false, if_true, Option.map_eq_none_iff] at hnews
        exact hread hnews
    | some n =>
      obtain ⟨hn, hsome, hcase⟩ := news?_modified hnews
      rw [habsolute] at hn hcase
      have hnow : p.normalized ∈ (w.install p.normalized n
          ((modified p).redraw? k d w)).tracker.watched := by
        rw [mem_watched_iff]
        change ((w.tracker.note p.normalized n).entry p.normalized).1 = true
        rw [Tracker.entry_note, if_pos rfl]
        exact Option.isSome_iff_ne_none.mpr hsome
      refine ⟨fun _ => ?_, fun _ => hnow⟩
      rcases hcase with htracked | hwelcome
      · exact Or.inl (Tracker.isTracked_iff.mp htracked)
      · exact Or.inr ⟨rfl, hn ▸ hsome, hwelcome⟩
  · rw [mem_watched_iff, entry_pass (hkey ▸ hother), ← mem_watched_iff]
    exact ⟨Or.inl, fun h => h.resolve_right fun h => hother h.1.symm⟩

/-- After a deleted file it is tracked no more, and the others are. -/
theorem mem_watched_deleted :
    key ∈ (pass k d w (deleted p)).tracker.watched ↔
      key ∈ w.tracker.watched ∧ key ≠ (deleted p).key w := by
  by_cases hother : key = (deleted p).key w
  · rw [hother]
    refine ⟨fun hmem => absurd hmem ?_, fun h => absurd rfl h.2⟩
    rw [pass_eq]
    cases hnews : (deleted p).news? k.digest d w with
    | none =>
      rw [news?] at hnews
      split at hnews
      · cases hnews
      · rename_i htracked
        exact fun hmem => htracked (Tracker.isTracked_iff.mpr hmem)
    | some n =>
      have hn : n = none := by
        rw [news?] at hnews
        split at hnews
        · exact (Option.some.inj hnews).symm
        · cases hnews
      rw [mem_watched_iff]
      change ¬ ((w.tracker.note ((deleted p).key w) n).entry _).1 = true
      rw [Tracker.entry_note, if_pos rfl, hn]
      exact Bool.false_ne_true
  · rw [mem_watched_iff, entry_pass hother, ← mem_watched_iff, and_iff_left hother]

theorem mem_watched_deletedAll {ps : List Path} (hps : ∀ p ∈ ps, p.IsClean) :
    key ∈ (passAll k d w (ps.map deleted)).tracker.watched ↔
      key ∈ w.tracker.watched ∧ key ∉ ps.map Path.normalized := by
  induction ps generalizing w with
  | nil => simp [passAll]
  | cons p ps ih =>
    have hrest := ih (w := pass k d w (deleted p)) fun q hq => hps q (List.mem_cons_of_mem _ hq)
    have hkey : (deleted p).key w = p.normalized := key_eq (hps p List.mem_cons_self)
    rw [List.map_cons, passAll, List.foldl_cons]
    refine hrest.trans ?_
    rw [mem_watched_deleted, hkey, List.map_cons, List.mem_cons, not_or, and_assoc]

/-- Changed files do not change the covered region. -/
theorem covers_pass (hp : p.IsClean) (h : w.tracker.Encloses p) :
    (pass k d w (modified p)).tracker.covers q = w.tracker.covers q := by
  rw [Bool.eq_iff_iff]
  constructor
  · intro hq
    rw [Tracker.covers_iff] at hq
    obtain ⟨file, hfile, hfolder, hwithin⟩ := hq
    rw [mem_watched_modified hp] at hfile
    rcases hfile with hfile | ⟨rfl, _, hwelcome⟩
    · exact Tracker.covers_iff.mpr ⟨file, hfile, hfolder, hwithin⟩
    · rw [Workspace.isWelcome, Bool.and_eq_true, Bool.and_eq_true] at hwelcome
      exact h hwelcome.1.1 q hfolder hwithin
  · exact Tracker.covers_of_subset fun key hkey => (mem_watched_modified hp).mpr (Or.inl hkey)

theorem isWelcome_eq {w w' : Workspace} (hroot : w'.root = w.root)
    (hlanguages : w'.languages = w.languages)
    (hextensions : w'.tracker.extensions = w.tracker.extensions) :
    w'.isWelcome q = (w'.tracker.covers q && (w.supports q &&
      Tracker.isCandidate w.tracker.extensions w.root q)) := by
  rw [Workspace.isWelcome, Workspace.supports, Workspace.supports, hroot, hlanguages, hextensions,
    Bool.and_assoc]

theorem isWelcome_pass (hp : p.IsClean) (h : w.tracker.Encloses p) :
    (pass k d w (modified p)).isWelcome q = w.isWelcome q := by
  obtain ⟨hroot, hlanguages, _, hextensions, _⟩ := pass_fixed k d w (modified p)
  rw [isWelcome_eq hroot hlanguages hextensions, isWelcome_eq rfl rfl rfl, covers_pass hp h]

end Change

/-! ## Changed files in any order -/

/-- No file of a batch encloses anything new. -/
structure Workspace.IsSteady (w : Workspace) (files : List Path) : Prop where
  root : w.root.isAbsolute = true
  encloses : ∀ p ∈ files, w.tracker.Encloses p

namespace Change

variable {k : Toolkit} {d : Disk} {w w' : Workspace} {p : Path} {files : List Path}

theorem isSteady_of_frame (h : w.IsSteady files) (hframe : w.Frame w') : w'.IsSteady files where
  root := by rw [hframe.root]; exact h.root
  encloses := by rw [hframe.tracker]; exact h.encloses

theorem isSteady_pass (h : w.IsSteady files) (hp : p ∈ files) (hclean : p.IsClean) :
    (pass k d w (modified p)).IsSteady files where
  root := by rw [(pass_fixed k d w (modified p)).root]; exact h.root
  encloses q hq := (h.encloses q hq).congr fun _ => covers_pass hclean (h.encloses p hp)

/-- Whether a changed file is tracked depends on the start only. -/
theorem mem_watched_modifiedAll {key : String} (h : w.IsSteady files)
    (hclean : ∀ p ∈ files, p.IsClean) {ps : List Path} (hps : ∀ p ∈ ps, p ∈ files) :
    key ∈ (passAll k d w (ps.map modified)).tracker.watched ↔ key ∈ w.tracker.watched ∨
      ∃ p ∈ ps, p.normalized = key ∧ Tracker.hashOf? k.digest d p ≠ none ∧
        w.isWelcome p = true := by
  induction ps generalizing w with
  | nil => simp [passAll]
  | cons p ps ih =>
    have hp := hps p List.mem_cons_self
    have hrest := ih (isSteady_pass (k := k) (d := d) h hp (hclean p hp)) fun q hq =>
      hps q (List.mem_cons_of_mem _ hq)
    simp only [isWelcome_pass (hclean p hp) (h.encloses p hp), mem_watched_modified (hclean p hp),
      or_assoc] at hrest
    rw [List.map_cons, passAll, List.foldl_cons]
    refine hrest.trans ?_
    simp only [List.mem_cons, exists_eq_or_imp]

theorem interchanges (k : Toolkit) (d : Disk) (hclean : ∀ p ∈ files, p.IsClean) :
    Interchanges (fun s t => Agree s t ∧ s.1.IsSteady files)
      (fun s p => advance k d s (modified p)) (· ∈ files) where
  symm := fun ⟨hagree, hsteady⟩ => ⟨hagree.symm, isSteady_of_frame hsteady hagree.1.frame⟩
  trans := fun h h' => ⟨h.1.trans h'.1, h.2⟩
  congr := fun {s t p} hp ⟨hagree, hsteady⟩ =>
    ⟨hagree.advance k d (modified p), isSteady_pass hsteady hp (hclean p hp)⟩
  swap := by
    rintro s p q hp hq ⟨hagree, hsteady⟩
    have hlast : (advance k d (advance k d s (modified p)) (modified q)).1.IsSteady files :=
      isSteady_pass (isSteady_pass hsteady hp (hclean p hp)) hq (hclean q hq)
    -- neither of two files decides whether the other one is welcome
    have hstay : ∀ {x y : Path}, x ∈ files → y ∈ files → x ≠ y →
        (modified x).news? k.digest d (pass k d s.1 (modified y)) =
          (modified x).news? k.digest d s.1 := by
      intro x y hx hy hne
      have hkey : (modified x).key s.1 ≠ (modified y).key s.1 :=
        key_ne (hclean x hx) (hclean y hy) hne
      exact news?_congr (pass_fixed k d s.1 _).root (entry_pass hkey) fun z _ _ _ =>
        isWelcome_pass (hclean y hy) (hsteady.encloses y hy)
    by_cases hne : p = q
    · subst hne
      exact ⟨⟨.refl _, rfl⟩, hlast⟩
    · exact ⟨advance_comm hsteady.root (hclean p hp) (hclean q hq) hne (hstay hp hq hne)
        (hstay hq hp (Ne.symm hne)), hlast⟩
  again := by
    rintro s p hp ⟨hagree, hsteady⟩
    rw [advance_again]
    exact ⟨⟨.refl _, rfl⟩, isSteady_pass hsteady hp (hclean p hp)⟩

/-- Deleted files take nothing away that a file encloses. -/
theorem isSteady_deletedAll (hroot : w.root.isAbsolute = true)
    (htracked : ∀ q ∈ w.tracker.files, q.IsClean) (hclean : ∀ p ∈ files, p.IsClean)
    (hfolders : ∀ p ∈ files, ∀ q ∈ w.tracker.files, FileId.parent q.text ≠ p.text)
    (k : Toolkit) (d : Disk) (gone : List Path) :
    (passAll k d w (gone.map deleted)).IsSteady files := by
  induction gone generalizing w with
  | nil =>
    exact ⟨hroot, fun p hp =>
      Tracker.encloses_of_parent_ne (hclean p hp) htracked (hfolders p hp)⟩
  | cons x gone ih =>
    have hsub : ∀ q ∈ (pass k d w (deleted x)).tracker.files, q ∈ w.tracker.files := fun q hq =>
      Tracker.mem_files.mpr (mem_watched_deleted.mp (Tracker.mem_files.mp hq)).1
    refine ih ?_ (fun q hq => htracked q (hsub q hq)) fun p hp q hq => hfolders p hp q (hsub q hq)
    rw [(pass_fixed k d w (deleted x)).root]
    exact hroot

end Change

/-- The changed files of a batch may come in any order, and more than once. -/
theorem Workspace.apply_of_same_files {k : Toolkit} {d : Disk} {w : Workspace}
    {changed changed' gone : List Path} (hroot : w.root.isAbsolute = true) (hmemory : w.IsInMemory)
    (htracked : ∀ q ∈ w.tracker.files, q.IsClean) (hclean : ∀ p ∈ changed, p.IsClean)
    (hsame : ∀ p, p ∈ changed ↔ p ∈ changed')
    (hfolders : ∀ p ∈ changed, ∀ q ∈ w.tracker.files, FileId.parent q.text ≠ p.text) :
    ∃ u v r, w.apply k changed gone d = (u, d, .ok r) ∧
      w.apply k changed' gone d = (v, d, .ok r) ∧ u.Matches v := by
  have hsteady := Change.isSteady_deletedAll hroot htracked hclean hfolders k d gone
  obtain ⟨⟨hmatches, hreport⟩, _⟩ := (Change.interchanges k d hclean).foldl_of_same
    (s := (gone.map Change.deleted).foldl (Change.advance k d) (w, {})) (fun p hp => hp) hsame
    ⟨⟨.refl _, rfl⟩, by rw [Change.foldl_advance_fst]; exact hsteady⟩
  have hbatch : ∀ ps, (Change.ofBatch ps gone).foldl (Change.advance k d) (w, {}) =
      ps.foldl (fun s p => Change.advance k d s (.modified p))
        ((gone.map Change.deleted).foldl (Change.advance k d) (w, {})) := by
    intro ps
    rw [Change.ofBatch, List.foldl_append, List.foldl_map]
  rw [← hbatch, ← hbatch] at hmatches hreport
  rw [Change.foldl_advance_fst, Change.foldl_advance_fst] at hmatches
  have hfirst := apply_of_isInMemory (k := k) (d := d) hmemory changed gone
  have hsecond := apply_of_isInMemory (k := k) (d := d) hmemory changed' gone
  rw [← hreport] at hsecond
  exact ⟨_, _, _, hfirst, hsecond, hmatches⟩

namespace Echo

/-- Another file of the folder. -/
def second : Path := ⟨"/w/b.ts"⟩

/-- The workspace when files with one extension are picked up, and the first file is tracked. -/
def attached : Workspace :=
  { workspace with tracker := Tracker.insert { extensions := ["ts"] } file.text "f" }

/-- The folder after the first file was written and the second one was added. -/
def pair : Disk where
  top := .folder "w" (.file "a.ts" "g".toUTF8 (.file "b.ts" "h".toUTF8 .nil)) .nil
  current := []

theorem isClean_file : file.IsClean :=
  ⟨["w", "a.ts"], by decide +kernel, by decide +kernel⟩

theorem isClean_second : second.IsClean :=
  ⟨["w", "b.ts"], by decide +kernel, by decide +kernel⟩

theorem files_attached : attached.tracker.files = [file] := by decide +kernel

theorem isInMemory_attached : attached.IsInMemory := ⟨rfl, rfl, rfl⟩

theorem isClean_files_attached : ∀ q ∈ attached.tracker.files, q.IsClean := by
  rw [files_attached]
  rintro q hq
  rw [List.mem_singleton.mp hq]
  exact isClean_file

end Echo

theorem Workspace.apply_of_same_files_echo :
    ∃ u v r, Echo.attached.apply Echo.toolkit [Echo.file, Echo.second] [] Echo.pair =
        (u, Echo.pair, .ok r) ∧
      Echo.attached.apply Echo.toolkit [Echo.second, Echo.file, Echo.second] [] Echo.pair =
        (v, Echo.pair, .ok r) ∧
      u.Matches v ∧ r.indexed = 2 := by
  have hclean : ∀ p ∈ [Echo.file, Echo.second], p.IsClean := by
    simp only [List.mem_cons, List.not_mem_nil, or_false]
    rintro p (rfl | rfl)
    · exact Echo.isClean_file
    · exact Echo.isClean_second
  have hfolders : ∀ p ∈ [Echo.file, Echo.second], ∀ q ∈ Echo.attached.tracker.files,
      FileId.parent q.text ≠ p.text := by
    rw [Echo.files_attached]
    decide +kernel
  have hsame : ∀ p, p ∈ [Echo.file, Echo.second] ↔ p ∈ [Echo.second, Echo.file, Echo.second] := by
    simp [or_comm, or_left_comm]
  obtain ⟨u, v, r, hfirst, hsecond, hmatches⟩ := Workspace.apply_of_same_files (k := Echo.toolkit)
    (d := Echo.pair) (by decide +kernel) Echo.isInMemory_attached Echo.isClean_files_attached hclean
    hsame hfolders
  refine ⟨u, v, r, hfirst, hsecond, hmatches, ?_⟩
  have hindexed : (Echo.attached.apply Echo.toolkit [Echo.file, Echo.second] []
      Echo.pair).2.2.toOption.map Report.indexed = some 2 := by decide +kernel
  rw [hfirst] at hindexed
  exact Option.some.inj hindexed

/-! ## Deleted files first -/

/-- A new file that is covered by deleted files only. -/
structure Change.IsLost (k : Toolkit) (d : Disk) (w : Workspace) (gone : List Path) (p : Path) :
    Prop where
  new : w.tracker.isTracked p = false
  readable : Tracker.hashOf? k.digest d p ≠ none
  welcome : w.isWelcome p = true
  uncovered : (w.tracker.eraseAll (gone.map Path.normalized)).covers p = false

namespace Change

variable {k : Toolkit} {d : Disk} {w : Workspace} {p q x : Path} {gone : List Path}

theorem mem_eraseAll {t : Tracker} {keys : List String} {key : String} :
    key ∈ (t.eraseAll keys).watched ↔ key ∈ t.watched ∧ key ∉ keys :=
  (Tracker.drops_eraseAll t keys).watched key

theorem isWelcome_mono {w w' : Workspace} (hroot : w'.root = w.root)
    (hlanguages : w'.languages = w.languages)
    (hextensions : w'.tracker.extensions = w.tracker.extensions)
    (hcovers : w'.tracker.covers p = true → w.tracker.covers p = true)
    (h : w'.isWelcome p = true) : w.isWelcome p = true := by
  rw [isWelcome_eq hroot hlanguages hextensions, Bool.and_eq_true] at h
  rw [isWelcome_eq rfl rfl rfl, Bool.and_eq_true]
  exact ⟨hcovers h.1, h.2⟩

theorem isWelcome_of_deleted (h : (pass k d w (deleted x)).isWelcome p = true) :
    w.isWelcome p = true := by
  obtain ⟨hroot, hlanguages, _, hextensions, _⟩ := pass_fixed k d w (deleted x)
  refine isWelcome_mono hroot hlanguages hextensions ?_ h
  exact Tracker.covers_of_subset fun key hkey => (mem_watched_deleted.mp hkey).1

theorem key_deleted (hx : x.IsClean) : (deleted x).key w = x.normalized := key_eq hx

/-- A file that is lost after one of the deleted files is lost with all of them. -/
theorem IsLost.of_deleted (hp : p.IsClean) (hx : x.IsClean) (hne : p ≠ x)
    (h : IsLost k d (pass k d w (deleted x)) gone p) : IsLost k d w (x :: gone) p where
  new := by
    have hkey : p.normalized ≠ (deleted x).key w := by
      rw [key_deleted hx]
      exact fun e => hne (hp.eq_of_key hx e)
    exact Tracker.isTracked_eq_false.mpr fun hmem =>
      Tracker.isTracked_eq_false.mp h.new (mem_watched_deleted.mpr ⟨hmem, hkey⟩)
  readable := h.readable
  welcome := isWelcome_of_deleted h.welcome
  uncovered := by
    rw [← h.uncovered]
    refine Tracker.covers_congr fun key => ?_
    rw [mem_eraseAll, mem_eraseAll, mem_watched_deleted, key_deleted hx, List.map_cons, List.mem_cons,
      not_or, and_assoc]

theorem normalized_not_mem (hp : p.IsClean) (hgone : ∀ x ∈ gone, x.IsClean) (hnot : p ∉ gone) :
    p.normalized ∉ gone.map Path.normalized := by
  intro hmem
  obtain ⟨x, hx, hkey⟩ := List.mem_map.mp hmem
  exact hnot ((hgone x hx).eq_of_key hp hkey ▸ hx)

/-- A file that is lost after a changed file was lost before. -/
theorem IsLost.of_modified (hp : p.IsClean) (hgone : ∀ x ∈ gone, x.IsClean) (hnot : p ∉ gone)
    (h : IsLost k d (pass k d w (modified p)) gone q) : IsLost k d w gone q := by
  have huncovered := h.uncovered
  -- what the changed file covers it covers after the deleted files, too
  have hcovers : (pass k d w (modified p)).tracker.covers q = true → w.tracker.covers q = true := by
    intro hq
    rw [Tracker.covers_iff] at hq
    obtain ⟨file, hfile, hfolder, hwithin⟩ := hq
    refine Tracker.covers_iff.mpr ⟨file, ?_, hfolder, hwithin⟩
    rcases (mem_watched_modified hp).mp hfile with hold | ⟨rfl, _⟩
    · exact hold
    · have hkept : p.normalized ∈ ((pass k d w (modified p)).tracker.eraseAll
          (gone.map Path.normalized)).watched := by
        exact mem_eraseAll.mpr ⟨hfile, normalized_not_mem hp hgone hnot⟩
      have hcovered := Tracker.covers_iff.mpr ⟨_, hkept, hfolder, hwithin⟩
      rw [huncovered] at hcovered
      cases hcovered
  obtain ⟨hroot, hlanguages, _, hextensions, _⟩ := pass_fixed k d w (modified p)
  refine ⟨?_, h.readable, isWelcome_mono hroot hlanguages hextensions hcovers h.welcome, ?_⟩
  · exact Tracker.isTracked_eq_false.mpr fun hmem =>
      Tracker.isTracked_eq_false.mp h.new ((mem_watched_modified hp).mpr (Or.inl hmem))
  · rw [Bool.eq_false_iff, ne_eq]
    intro hold
    have hcovered : ((pass k d w (modified p)).tracker.eraseAll
        (gone.map Path.normalized)).covers q = true := by
      refine Tracker.covers_of_subset (fun key hkey => ?_) hold
      obtain ⟨hmem, hkeep⟩ := mem_eraseAll.mp hkey
      exact mem_eraseAll.mpr ⟨(mem_watched_modified hp).mpr (Or.inl hmem), hkeep⟩
    rw [huncovered] at hcovered
    cases hcovered

/-- A changed file that is not lost may come before a deleted one. -/
theorem advance_swap {s : Workspace × Report} (hroot : s.1.root.isAbsolute = true) (hp : p.IsClean)
    (hx : x.IsClean) (hne : p ≠ x) (hkept : ¬ IsLost k d s.1 (x :: gone) p) :
    Agree (advance k d (advance k d s (deleted x)) (modified p))
      (advance k d (advance k d s (modified p)) (deleted x)) := by
  have hpath : s.1.absolute p = p := Workspace.absolute_of_isAbsolute hp.isAbsolute
  have hkeys : (modified p).key s.1 ≠ (deleted x).key s.1 := key_ne hp hx hne
  refine advance_comm hroot hx hp (Ne.symm hne) ?_ ?_
  · exact news?_congr (pass_fixed k d s.1 _).root (entry_pass (Ne.symm hkeys)) fun z hz => by cases hz
  · refine news?_congr (pass_fixed k d s.1 _).root (entry_pass hkeys) fun z hz hnew hread => ?_
    obtain rfl : p = z := by cases hz; rfl
    rw [hpath] at hnew hread ⊢
    rw [Bool.eq_iff_iff]
    refine ⟨isWelcome_of_deleted, fun hwelcome => ?_⟩
    -- the other tracked files cover it
    have hcovered : (s.1.tracker.eraseAll ((x :: gone).map Path.normalized)).covers p = true := by
      by_contra hnot
      exact hkept ⟨hnew, hread, hwelcome, by simpa using hnot⟩
    obtain ⟨hr, hl, _, he, _⟩ := pass_fixed k d s.1 (deleted x)
    refine isWelcome_mono hr.symm hl.symm he.symm (fun _ => ?_) hwelcome
    refine Tracker.covers_of_subset (fun key hkey => ?_) hcovered
    obtain ⟨hmem, hkeep⟩ := mem_eraseAll.mp hkey
    rw [List.map_cons, List.mem_cons, not_or] at hkeep
    exact mem_watched_deleted.mpr ⟨hmem, by rw [key_deleted hx]; exact hkeep.1⟩

theorem advance_past {s : Workspace × Report} (hroot : s.1.root.isAbsolute = true) (hp : p.IsClean)
    (hgone : ∀ x ∈ gone, x.IsClean) (hnot : p ∉ gone) (hkept : ¬ IsLost k d s.1 gone p) :
    Agree (advance k d ((gone.map deleted).foldl (advance k d) s) (modified p))
      ((gone.map deleted).foldl (advance k d) (advance k d s (modified p))) := by
  induction gone generalizing s with
  | nil => exact ⟨.refl _, rfl⟩
  | cons x gone ih =>
    have hx := hgone x List.mem_cons_self
    have hne : p ≠ x := fun e => hnot (e ▸ List.mem_cons_self)
    have hroot' : (advance k d s (deleted x)).1.root.isAbsolute = true := by
      rw [advance, (pass_fixed k d s.1 (deleted x)).root]
      exact hroot
    have hrest := ih hroot' (fun y hy => hgone y (List.mem_cons_of_mem _ hy))
      (fun hmem => hnot (List.mem_cons_of_mem _ hmem)) fun hlost => hkept (hlost.of_deleted hp hx hne)
    have hswap := (advance_swap hroot hp hx hne hkept).advanceAll k d (gone.map deleted)
    rw [List.map_cons, List.foldl_cons, List.foldl_cons]
    exact hrest.trans hswap

/-- If no changed file is lost, the changed files may as well come first. -/
theorem advanceAll_past {s : Workspace × Report} (hroot : s.1.root.isAbsolute = true)
    {changed : List Path} (hchanged : ∀ p ∈ changed, p.IsClean) (hgone : ∀ x ∈ gone, x.IsClean)
    (hdisjoint : ∀ p ∈ changed, p ∉ gone) (hkept : ∀ p ∈ changed, ¬ IsLost k d s.1 gone p) :
    Agree ((changed.map modified).foldl (advance k d) ((gone.map deleted).foldl (advance k d) s))
      ((gone.map deleted).foldl (advance k d) ((changed.map modified).foldl (advance k d) s)) := by
  induction changed generalizing s with
  | nil => exact ⟨.refl _, rfl⟩
  | cons p changed ih =>
    have hp := hchanged p List.mem_cons_self
    have hnot := hdisjoint p List.mem_cons_self
    have hroot' : (advance k d s (modified p)).1.root.isAbsolute = true := by
      rw [advance, (pass_fixed k d s.1 (modified p)).root]
      exact hroot
    have hfirst := (advance_past hroot hp hgone hnot (hkept p List.mem_cons_self)).advanceAll k d
      (changed.map modified)
    have hrest := ih hroot' (fun q hq => hchanged q (List.mem_cons_of_mem _ hq))
      (fun q hq => hdisjoint q (List.mem_cons_of_mem _ hq)) fun q hq hlost =>
        hkept q (List.mem_cons_of_mem _ hq) (hlost.of_modified hp hgone hnot)
    rw [List.map_cons, List.foldl_cons, List.foldl_cons]
    exact hfirst.trans hrest

/-- After deleted files those are welcome that the other files cover. -/
theorem isWelcome_deletedAll (hgone : ∀ x ∈ gone, x.IsClean) :
    (passAll k d w (gone.map deleted)).isWelcome p = true ↔ w.isWelcome p = true ∧
      (w.tracker.eraseAll (gone.map Path.normalized)).covers p = true := by
  obtain ⟨hroot, hlanguages, _, hextensions, _⟩ := passAll_fixed k d w (gone.map deleted)
  have hcovers : (passAll k d w (gone.map deleted)).tracker.covers p =
      (w.tracker.eraseAll (gone.map Path.normalized)).covers p :=
    Tracker.covers_congr fun key => by rw [mem_watched_deletedAll hgone, mem_eraseAll]
  have hless : (w.tracker.eraseAll (gone.map Path.normalized)).covers p = true →
      w.tracker.covers p = true :=
    Tracker.covers_of_subset fun key hkey => (mem_eraseAll.mp hkey).1
  rw [isWelcome_eq hroot hlanguages hextensions, hcovers, isWelcome_eq rfl rfl rfl]
  generalize (w.supports p && Tracker.isCandidate w.tracker.extensions w.root p) = rest
  rw [Bool.and_eq_true, Bool.and_eq_true]
  constructor
  · exact fun ⟨hcovered, hrest⟩ => ⟨⟨hless hcovered, hrest⟩, hcovered⟩
  · exact fun ⟨⟨_, hrest⟩, hcovered⟩ => ⟨hcovered, hrest⟩

/-- What one batch tracks, and what two batches do, is decided at the start. -/
theorem mem_watched_split {changed : List Path} (hroot : w.root.isAbsolute = true)
    (htracked : ∀ q ∈ w.tracker.files, q.IsClean) (hchanged : ∀ p ∈ changed, p.IsClean)
    (hgone : ∀ x ∈ gone, x.IsClean)
    (hfolders : ∀ p ∈ changed, ∀ q ∈ w.tracker.files, FileId.parent q.text ≠ p.text)
    (key : String) :
    (key ∈ (passAll k d (passAll k d w (gone.map deleted)) (changed.map modified)).tracker.watched ↔
      (key ∈ w.tracker.watched ∧ key ∉ gone.map Path.normalized) ∨
        ∃ p ∈ changed, p.normalized = key ∧ Tracker.hashOf? k.digest d p ≠ none ∧
          w.isWelcome p = true ∧
          (w.tracker.eraseAll (gone.map Path.normalized)).covers p = true) ∧
    (key ∈ (passAll k d (passAll k d w (changed.map modified)) (gone.map deleted)).tracker.watched ↔
      (key ∈ w.tracker.watched ∨ ∃ p ∈ changed, p.normalized = key ∧
        Tracker.hashOf? k.digest d p ≠ none ∧ w.isWelcome p = true) ∧
          key ∉ gone.map Path.normalized) := by
  have hstart := isSteady_deletedAll hroot htracked hchanged hfolders k d []
  have hsteady := isSteady_deletedAll hroot htracked hchanged hfolders k d gone
  constructor
  · rw [mem_watched_modifiedAll hsteady hchanged fun p hp => hp, mem_watched_deletedAll hgone]
    simp only [isWelcome_deletedAll hgone]
  · rw [mem_watched_deletedAll hgone]
    exact and_congr_left' (mem_watched_modifiedAll hstart hchanged fun p hp => hp)

/-- The files that two batches track and one does not are those that are lost. -/
theorem mem_watched_lost {changed : List Path} (hroot : w.root.isAbsolute = true)
    (htracked : ∀ q ∈ w.tracker.files, q.IsClean) (hchanged : ∀ p ∈ changed, p.IsClean)
    (hgone : ∀ x ∈ gone, x.IsClean) (hdisjoint : ∀ p ∈ changed, p ∉ gone)
    (hfolders : ∀ p ∈ changed, ∀ q ∈ w.tracker.files, FileId.parent q.text ≠ p.text) :
    (∀ key,
      key ∈ (passAll k d (passAll k d w (changed.map modified)) (gone.map deleted)).tracker.watched ↔
        key ∈ (passAll k d (passAll k d w (gone.map deleted)) (changed.map modified)).tracker.watched ∨
          ∃ p ∈ changed, IsLost k d w gone p ∧ p.normalized = key) ∧
    ∀ p ∈ changed, IsLost k d w gone p → p.normalized ∉
      (passAll k d (passAll k d w (gone.map deleted)) (changed.map modified)).tracker.watched := by
  have hsplit := mem_watched_split (k := k) (d := d) hroot htracked hchanged hgone hfolders
  refine ⟨fun key => ?_, fun p hp hlost hmem => ?_⟩
  · rw [(hsplit key).1, (hsplit key).2]
    constructor
    · rintro ⟨hold | ⟨p, hp, rfl, hread, hwelcome⟩, hkeep⟩
      · exact Or.inl (Or.inl ⟨hold, hkeep⟩)
      · by_cases hknown : p.normalized ∈ w.tracker.watched
        · exact Or.inl (Or.inl ⟨hknown, hkeep⟩)
        by_cases hcovers : (w.tracker.eraseAll (gone.map Path.normalized)).covers p = true
        · exact Or.inl (Or.inr ⟨p, hp, rfl, hread, hwelcome, hcovers⟩)
        · have hnew := Tracker.isTracked_eq_false.mpr hknown
          exact Or.inr ⟨p, hp, ⟨hnew, hread, hwelcome, by simpa using hcovers⟩, rfl⟩
    · rintro ((⟨hold, hkeep⟩ | ⟨p, hp, rfl, hread, hwelcome, _⟩) | ⟨p, hp, hlost, rfl⟩)
      · exact ⟨Or.inl hold, hkeep⟩
      · exact ⟨Or.inr ⟨p, hp, rfl, hread, hwelcome⟩,
          normalized_not_mem (hchanged p hp) hgone (hdisjoint p hp)⟩
      · exact ⟨Or.inr ⟨p, hp, rfl, hlost.readable, hlost.welcome⟩,
          normalized_not_mem (hchanged p hp) hgone (hdisjoint p hp)⟩
  · rcases (hsplit _).1.mp hmem with ⟨hold, _⟩ | ⟨q, hq, hkey, _, _, hcovers⟩
    · exact Tracker.isTracked_eq_false.mp hlost.new hold
    · rw [(hchanged q hq).eq_of_key (hchanged p hp) hkey, hlost.uncovered] at hcovers
      cases hcovers

end Change

/--
One batch does what two batches do, the changed files before the deleted ones, if no changed file is
lost. The files that are lost are those that two batches track and one does not, when no changed file
stands where tracked files have their folder.
-/
theorem Workspace.apply_split {k : Toolkit} {d : Disk} {w : Workspace} {changed gone : List Path}
    (hroot : w.root.isAbsolute = true) (hmemory : w.IsInMemory)
    (htracked : ∀ q ∈ w.tracker.files, q.IsClean) (hchanged : ∀ p ∈ changed, p.IsClean)
    (hgone : ∀ x ∈ gone, x.IsClean) (hdisjoint : ∀ p ∈ changed, p ∉ gone) :
    ∃ u v₁ v r r₁ r₂, w.apply k changed gone d = (u, d, .ok r) ∧
      w.apply k changed [] d = (v₁, d, .ok r₁) ∧ v₁.apply k [] gone d = (v, d, .ok r₂) ∧
      ((∀ p ∈ changed, ¬ Change.IsLost k d w gone p) → u.Matches v ∧ r = r₁.merge r₂) ∧
      ((∀ p ∈ changed, ∀ q ∈ w.tracker.files, FileId.parent q.text ≠ p.text) →
        (∀ key, key ∈ v.tracker.watched ↔ key ∈ u.tracker.watched ∨
          ∃ p ∈ changed, Change.IsLost k d w gone p ∧ p.normalized = key) ∧
        ∀ p ∈ changed, Change.IsLost k d w gone p → p.normalized ∉ u.tracker.watched) := by
  have htogether := apply_of_isInMemory (k := k) (d := d) hmemory changed gone
  have hfirst := apply_of_isInMemory (k := k) (d := d) hmemory changed []
  have hmemory' := Change.isInMemory_passAll hmemory k d (changed.map .modified)
  have hsecond := apply_of_isInMemory (k := k) (d := d) hmemory' [] gone
  have hbatch : (Change.ofBatch changed gone).foldl (Change.advance k d) (w, {}) =
      (changed.map .modified).foldl (Change.advance k d)
        ((gone.map .deleted).foldl (Change.advance k d) (w, {})) := by
    rw [Change.ofBatch, List.foldl_append]
  have hpass : Change.passAll k d w (Change.ofBatch changed gone) =
      Change.passAll k d (Change.passAll k d w (gone.map .deleted)) (changed.map .modified) := by
    rw [Change.ofBatch, Change.passAll, List.foldl_append]
    rfl
  have hchanges : Change.ofBatch changed [] = changed.map .modified := rfl
  have hdeletions : Change.ofBatch [] gone = gone.map .deleted := List.append_nil _
  rw [hpass, hbatch] at htogether
  rw [hchanges] at hfirst
  rw [hdeletions] at hsecond
  refine ⟨_, _, _, _, _, _, htogether, hfirst, hsecond, fun hkept => ?_, fun hfolders => ?_⟩
  · obtain ⟨hmatches, hreport⟩ := Change.advanceAll_past (k := k) (s := (w, {})) hroot hchanged hgone
      hdisjoint hkept
    simp only [Change.foldl_advance_fst] at hmatches
    have hreports : ((gone.map .deleted).foldl (Change.advance k d)
        ((changed.map .modified).foldl (Change.advance k d) (w, {}))).2 =
          ((changed.map .modified).foldl (Change.advance k d) (w, {})).2.merge
            ((gone.map .deleted).foldl (Change.advance k d)
              (Change.passAll k d w (changed.map .modified), {})).2 := by
      rw [← Change.foldl_advance_fst k d (w, {}) (changed.map .modified)]
      exact congrArg Prod.snd (Change.foldl_advance k d _ _ (gone.map .deleted))
    exact ⟨hmatches, hreport.trans hreports⟩
  · exact Change.mem_watched_lost hroot htracked hchanged hgone hdisjoint hfolders

namespace Echo

/-- The folder after the first file was renamed to the second one. -/
def renamed : Disk where
  top := .folder "w" (.file "b.ts" "f".toUTF8 .nil) .nil
  current := []

def third : Path := ⟨"/w/c.ts"⟩

/-- The workspace when two files of the folder are tracked. -/
def flanked : Workspace :=
  { attached with tracker := attached.tracker.insert third.text "i" }

theorem isClean_third : third.IsClean :=
  ⟨["w", "c.ts"], by decide +kernel, by decide +kernel⟩

theorem isLost_second : Change.IsLost toolkit renamed attached [file] second :=
  ⟨by decide +kernel, by decide +kernel, by decide +kernel, by decide +kernel⟩

theorem files_flanked : flanked.tracker.files = [file, third] := by decide +kernel

theorem isClean_files_flanked : ∀ q ∈ flanked.tracker.files, q.IsClean := by
  rw [files_flanked]
  simp only [List.mem_cons, List.not_mem_nil, or_false]
  rintro q (rfl | rfl)
  · exact isClean_file
  · exact isClean_third

end Echo

theorem Workspace.apply_split_echo :
    (∃ u v₁ v r r₁ r₂,
      Echo.attached.apply Echo.toolkit [Echo.second] [Echo.file] Echo.renamed =
        (u, Echo.renamed, .ok r) ∧
      Echo.attached.apply Echo.toolkit [Echo.second] [] Echo.renamed = (v₁, Echo.renamed, .ok r₁) ∧
      v₁.apply Echo.toolkit [] [Echo.file] Echo.renamed = (v, Echo.renamed, .ok r₂) ∧
      Echo.second.normalized ∈ v.tracker.watched ∧ Echo.second.normalized ∉ u.tracker.watched) ∧
    ∃ u v₁ v r r₁ r₂,
      Echo.flanked.apply Echo.toolkit [Echo.second] [Echo.third] Echo.pair =
        (u, Echo.pair, .ok r) ∧
      Echo.flanked.apply Echo.toolkit [Echo.second] [] Echo.pair = (v₁, Echo.pair, .ok r₁) ∧
      v₁.apply Echo.toolkit [] [Echo.third] Echo.pair = (v, Echo.pair, .ok r₂) ∧
      u.Matches v ∧ r = r₁.merge r₂ := by
  have hsecond : ∀ p ∈ [Echo.second], p.IsClean := fun p hp =>
    List.mem_singleton.mp hp ▸ Echo.isClean_second
  constructor
  · have hgone : ∀ x ∈ [Echo.file], x.IsClean := fun x hx =>
      List.mem_singleton.mp hx ▸ Echo.isClean_file
    obtain ⟨u, v₁, v, r, r₁, r₂, htogether, hfirst, hlast, _, hlost⟩ := Workspace.apply_split
      (k := Echo.toolkit) (d := Echo.renamed) (w := Echo.attached) (by decide +kernel)
      Echo.isInMemory_attached Echo.isClean_files_attached hsecond hgone (by decide +kernel)
    obtain ⟨hwatched, hnot⟩ := hlost (by rw [Echo.files_attached]; decide +kernel)
    refine ⟨u, v₁, v, r, r₁, r₂, htogether, hfirst, hlast, ?_, ?_⟩
    · exact (hwatched _).mpr (Or.inr ⟨_, List.mem_singleton_self _, Echo.isLost_second, rfl⟩)
    · exact hnot _ (List.mem_singleton_self _) Echo.isLost_second
  · have hgone : ∀ x ∈ [Echo.third], x.IsClean := fun x hx =>
      List.mem_singleton.mp hx ▸ Echo.isClean_third
    obtain ⟨u, v₁, v, r, r₁, r₂, htogether, hfirst, hlast, hkept, _⟩ := Workspace.apply_split
      (k := Echo.toolkit) (d := Echo.pair) (w := Echo.flanked) (by decide +kernel)
      ⟨rfl, rfl, rfl⟩ Echo.isClean_files_flanked hsecond hgone (by decide +kernel)
    refine ⟨u, v₁, v, r, r₁, r₂, htogether, hfirst, hlast, hkept fun p hp hlost => ?_⟩
    -- the first file still covers the new one
    have hcovered : (Echo.flanked.tracker.eraseAll ([Echo.third].map Path.normalized)).covers
        Echo.second = true := by decide +kernel
    rw [← List.mem_singleton.mp hp, hlost.uncovered] at hcovered
    cases hcovered

end SourceGraph
