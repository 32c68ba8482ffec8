import SourceGraph.Proofs.Reopen

/-!
# The history of a tracker

A tracker is opened from whatever is at the path of its document: nothing, a text that is no
document, a document of the current shape or one of the earlier shape. From then on its document
says what it tracks, whatever operations follow, so that opening it again gives it back.

* `Tracker.IsRecorded`: the document gives the tracker back, and has not the earlier shape.
* `Tracker.isRecorded_of_openAt`: that is so once the tracker is opened.
* `Tracker.Step`, `Tracker.IsRecorded.step`: every operation that succeeds keeps that.
* `Tracker.History`: operations, and changes of other files by others.
-/

set_option autoImplicit false

namespace SourceGraph

/-- The text of a file, if it can be read. -/
def Disk.text? (d : Disk) (p : Path) : Option String := (d.readText p).toOption

theorem Disk.Alike.text? {d d' : Disk} {p : Path} (h : d.Alike d' p) : d.text? p = d'.text? p := by
  unfold Disk.text? Disk.readText
  cases hread : d.read p with
  | ok content => rw [(h content).mp hread]
  | error f =>
    cases hread' : d'.read p with
    | ok content => rw [(h content).mpr hread'] at hread; cases hread
    | error f' => rfl

namespace Tracker

variable {k : Toolkit} {d d' e : Disk} {t t' : Tracker} {p : Path}

/-! ## Documents of any content -/

theorem revises_enlist (t : Tracker) (key : String) (hash : Option String) :
    t.Revises (t.enlist key hash) := by
  cases hash with
  | some hash => exact revises_insert t key hash
  | none =>
    refine ⟨rfl, rfl, fun ht other hother => ?_⟩
    exact Std.ExtTreeSet.mem_insert.mpr (Or.inr (ht other hother))

theorem revises_adoptEntry (d : Disk) (hashes : List (String × String)) (t : Tracker)
    (e : EarlierEntry) : t.Revises (t.adoptEntry d hashes e) := by
  unfold adoptEntry
  split
  · -- the files of the folder, one after the other
    generalize d.enumerate t.extensions e.path = files
    induction files generalizing t with
    | nil => exact .refl t
    | cons p files ih => exact (revises_enlist t _ _).trans (ih _)
  · exact revises_enlist t _ _

theorem revises_adopt (d : Disk) (t : Tracker) (doc : EarlierDocument) :
    t.Revises (t.adopt d doc) := by
  unfold adopt
  generalize doc.entries = entries
  induction entries generalizing t with
  | nil => exact .refl t
  | cons e entries ih => exact (revises_adoptEntry d _ t e).trans (ih _)

theorem mem_foldl_insert {hashes : List (String × String)} {m : Std.ExtTreeMap String String}
    {key : String} (h : key ∈ hashes.foldl (fun m h => m.insert h.1 h.2) m) :
    key ∈ m ∨ ∃ entry ∈ hashes, entry.1 = key := by
  induction hashes generalizing m with
  | nil => exact Or.inl h
  | cons entry hashes ih =>
    rcases ih h with hmem | ⟨other, hother, rfl⟩
    · rcases Std.ExtTreeMap.mem_insert.mp hmem with hkey | hmem
      · exact Or.inr ⟨entry, List.mem_cons_self, Std.compare_eq_iff_eq.mp hkey⟩
      · exact Or.inl hmem
    · exact Or.inr ⟨other, List.mem_cons_of_mem _ hother, rfl⟩

theorem isSound_fill (t : Tracker) (doc : TrackerDocument) : (t.fill doc).IsSound := by
  intro key hkey
  rcases mem_foldl_insert hkey with hmem | ⟨entry, hentry, rfl⟩
  · exact absurd hmem Std.ExtTreeMap.not_mem_empty
  · exact Std.ExtTreeSet.contains_iff_mem.mp (List.mem_filter.mp hentry).2

/-! ## Opening -/

theorem load_eq (p : Path) (d : Disk) :
    load { path := some p } d =
      match (d.text? p).bind Json.general? with
      | none => ({ path := some p }, false)
      | some j =>
        if isEarlier (statedVersion j) then
          match EarlierDocument.ofJson? j with
          | some doc => (adopt d { path := some p } doc, true)
          | none => ({ path := some p }, false)
        else
          match TrackerDocument.ofJson? j with
          | some doc => (fill { path := some p } doc, false)
          | none => ({ path := some p }, false) := by
  rw [load, Option.bind_some, Disk.text?]
  cases d.readText p with
  | ok s => rfl
  | error f => rfl

/--
What there is at a path holds no document, or one of the current shape, and then nothing but its text
counts; or one of the earlier shape.
-/
theorem load_cases (p : Path) (d : Disk) :
    (∀ e : Disk, e.text? p = d.text? p → load { path := some p } e = ({ path := some p }, false)) ∨
      (∃ doc, ∀ e : Disk, e.text? p = d.text? p →
        load { path := some p } e = (fill { path := some p } doc, false)) ∨
      ∃ doc, load { path := some p } d = (adopt d { path := some p } doc, true) := by
  simp only [load_eq]
  cases hvalue : (d.text? p).bind Json.general? with
  | none =>
    refine Or.inl fun e he => ?_
    rw [he, hvalue]
  | some j =>
    cases hearlier : isEarlier (statedVersion j) with
    | true =>
      cases hdoc : EarlierDocument.ofJson? j with
      | none =>
        refine Or.inl fun e he => ?_
        simp only [he, hvalue, hearlier, if_true, hdoc]
      | some doc =>
        refine Or.inr (Or.inr ⟨doc, ?_⟩)
        simp only [hearlier, if_true, hdoc]
    | false =>
      cases hdoc : TrackerDocument.ofJson? j with
      | none =>
        refine Or.inl fun e he => ?_
        simp only [he, hvalue, hearlier, Bool.false_eq_true, if_false, hdoc]
      | some doc =>
        refine Or.inr (Or.inl ⟨doc, fun e he => ?_⟩)
        simp only [he, hvalue, hearlier, Bool.false_eq_true, if_false, hdoc]

/--
The document at a path gives a tracker back with its files and digests, and needs no rewriting; nothing
but its text counts for that.
-/
structure IsRecorded (p : Path) (t : Tracker) (d : Disk) : Prop where
  stands : d.Stands
  path : t.path = some p
  sound : t.IsSound
  load : ∀ e : Disk, e.text? p = d.text? p → Tracker.load { path := some p } e =
    ({ path := some p, watched := t.watched, hashes := t.hashes }, false)

theorem isRecorded_of_save (hpath : t.path = some p) (hsound : t.IsSound) (hd : d.Stands)
    (hnow : k.now.IsValid) (h : t.save k.now d = (d', .ok ())) : IsRecorded p t d' := by
  obtain ⟨hkept, hgrows⟩ := save_keptAt hpath hd hnow h
  have hstands := hgrows.stands hd
  have hload := hkept.load hstands hsound
  refine ⟨hstands, hpath, hsound, fun e he => ?_⟩
  -- the document was written in the current shape, so the third case is none
  rcases load_cases p d' with hnone | ⟨doc, hdoc⟩ | ⟨doc, hdoc⟩
  · rw [hnone e he, ← hnone d' rfl, hload]
  · rw [hdoc e he, ← hdoc d' rfl, hload]
  · rw [hdoc] at hload
    cases congrArg Prod.snd hload

theorem isRecorded_of_openAt (hd : d.Stands) (hnow : k.now.IsValid)
    (h : openAt k p d = (t, d', .ok ())) : IsRecorded p t d' := by
  have hempty : IsSound { path := some p } := fun key hkey =>
    absurd hkey Std.ExtTreeMap.not_mem_empty
  unfold openAt at h
  rcases load_cases p d with hnone | ⟨doc, hdoc⟩ | ⟨doc, hdoc⟩
  · rw [hnone d rfl] at h
    cases h
    exact ⟨hd, rfl, hempty, hnone⟩
  · rw [hdoc d rfl] at h
    cases h
    exact ⟨hd, rfl, isSound_fill _ doc, hdoc⟩
  · rw [hdoc] at h
    have hrevises := revises_adopt d { path := some p } doc
    dsimp only at h
    unfold saved at h
    split at h
    · rename_i hsave
      cases h
      exact isRecorded_of_save hrevises.path (hrevises.sound hempty) hd hnow hsave
    · cases h

theorem IsRecorded.openAt (h : IsRecorded p t d) (k : Toolkit) (he : e.text? p = d.text? p) :
    Tracker.openAt k p e =
      ({ path := some p, watched := t.watched, hashes := t.hashes }, e, .ok ()) := by
  rw [Tracker.openAt, h.load e he]

/-! ## Operations -/

/-- An operation on a tracker that succeeds. -/
inductive Step (k : Toolkit) (t : Tracker) (d : Disk) (t' : Tracker) (d' : Disk) : Prop
  | addFile (p : Path) (added : Bool) (h : t.addFile k p d = (t', d', .ok added))
  | addFolder (folder : Path) (added : List Path)
      (h : t.addFolder k folder d = (t', d', .ok added))
  | removeFile (p : Path) (removed : Bool) (h : t.removeFile k p d = (t', d', .ok removed))
  | removeFolder (folder : Path) (removed : List Path)
      (h : t.removeFolder k folder d = (t', d', .ok removed))
  | changedFiles (changed : List Path) (h : t.changedFiles k d = (t', d', .ok changed))
  | refreshFile (p : Path) (changed : Bool) (h : t.refreshFile k p d = (t', d', .ok changed))

theorem Step.saves (h : t.Step k d t' d') : t.Saves k d t' d' := by
  cases h with
  | addFile p added h => exact addFile_saves h
  | addFolder folder added h => exact addFolder_saves h
  | removeFile p removed h => exact removeFile_saves h
  | removeFolder folder removed h => exact removeFolder_saves h
  | changedFiles changed h => exact changedFiles_saves h
  | refreshFile p changed h => exact refreshFile_saves h

theorem IsRecorded.step (h : IsRecorded p t d) (hnow : k.now.IsValid) (hstep : t.Step k d t' d') :
    IsRecorded p t' d' := by
  rcases hstep.saves with ⟨rfl, rfl⟩ | ⟨hrevises, hsave⟩
  · exact h
  · exact isRecorded_of_save (hrevises.path.trans h.path) (hrevises.sound h.sound) h.stands hnow hsave

/--
The states of a tracker that are reached by operations that succeed, each at its own time, by giving
it other extensions, and by changes of the disk by others, who leave the text of its document.
-/
inductive History (p : Path) (t₀ : Tracker) (d₀ : Disk) : Tracker → Disk → Prop
  | start : History p t₀ d₀ t₀ d₀
  | widen {t : Tracker} {d : Disk} (h : History p t₀ d₀ t d) (extensions : List String) :
      History p t₀ d₀ { t with extensions } d
  | edit {t : Tracker} {d d' : Disk} (h : History p t₀ d₀ t d) (hstands : d'.Stands)
      (htext : d'.text? p = d.text? p) : History p t₀ d₀ t d'
  | step {t t' : Tracker} {d d' : Disk} {k : Toolkit} (h : History p t₀ d₀ t d)
      (hnow : k.now.IsValid) (hstep : t.Step k d t' d') : History p t₀ d₀ t' d'

theorem History.isRecorded {t₀ : Tracker} {d₀ : Disk} (h : History p t₀ d₀ t d)
    (hstart : IsRecorded p t₀ d₀) : IsRecorded p t d := by
  induction h with
  | start => exact hstart
  | widen _ extensions ih => exact ⟨ih.stands, ih.path, ih.sound, ih.load⟩
  | edit _ hstands htext ih =>
    exact ⟨hstands, ih.path, ih.sound, fun e he => ih.load e (he.trans htext)⟩
  | step _ hnow hstep ih => exact ih.step hnow hstep

/-- A file at another place may be written at any time. -/
theorem History.write {t₀ : Tracker} {d₀ : Disk} (h : History p t₀ d₀ t d) (hd : d.Stands) {q : Path}
    (content : ByteArray) (hup : ".." ∉ p.segments) (hq : d.place p ≠ d.place q) :
    History p t₀ d₀ t (d.settle (d.write q content)).1 := by
  have hgrows : Disk.Grows [d.place q] d (d.settle (d.write q content)).1 := by
    refine Disk.grows_settle fun d' hwrite => ?_
    obtain ⟨hsets, hfree, _⟩ := Disk.write_ok hd hwrite
    exact hsets.grows hfree
  have halike : Disk.Alike d (d.settle (d.write q content)).1 p := fun _ =>
    (hgrows.read_iff (by simpa using hq) hup).symm
  exact h.edit (hgrows.stands hd) halike.text?.symm

/-! ## Main statement -/

/--
Whatever there was at its path when it was opened: in every later state a tracker has digests of
tracked files only, and opening it again gives its files and digests back. Nothing counts for that
but the text of its document, so no folder is expanded once more.
-/
theorem History.reopened_eq_left {k k' : Toolkit} {p : Path} {d₀ d₁ d : Disk} {t₀ t : Tracker}
    (hstands : d₀.Stands) (hnow : k.now.IsValid)
    (hopen : Tracker.openAt k p d₀ = (t₀, d₁, .ok ())) (hhistory : History p t₀ d₁ t d) :
    (∀ key ∈ t.hashes, key ∈ t.watched) ∧
      (Tracker.load { path := some p } d).2 = false ∧
      ∀ e : Disk, e.text? p = d.text? p → Tracker.openAt k' p e =
        ({ path := some p, watched := t.watched, hashes := t.hashes }, e, .ok ()) := by
  have hrecorded := hhistory.isRecorded (isRecorded_of_openAt hstands hnow hopen)
  refine ⟨hrecorded.sound, ?_, fun e he => hrecorded.openAt k' he⟩
  rw [hrecorded.load d rfl]

theorem outcome_of_isOk {α : Type} {o : Outcome α} (h : o.2.2.isOk = true) :
    ∃ a, o = (o.1, o.2.1, .ok a) := by
  obtain ⟨t, d, result⟩ := o
  cases result with
  | ok a => exact ⟨a, rfl⟩
  | error f => cases h

end Tracker

namespace Echo

/-- A document of the earlier shape, which names the folder. -/
def earlier : String := "\x7b\"watchedPaths\":[\x7b\"path\":\"/w\",\"type\":\"dir\"\x7d]\x7d"

/-- The folder beside such a document. -/
def migrated : Disk where
  top := .folder "s" (.file "watch-state.json" earlier.toUTF8 .nil)
    (.folder "w" (.file "a.ts" "f".toUTF8 .nil) .nil)
  current := []

/-- The tracker as it is opened. -/
def adopted : Tracker.Outcome Unit := Tracker.openAt dated archive.tracked migrated

/-- The tracker after a look at its files. -/
def scanned : Tracker.Outcome (List Path) := adopted.1.changedFiles dated adopted.2.1

/-- The disk with one more file in the folder. -/
def joined : Disk := (scanned.2.1.settle (scanned.2.1.write ⟨"/w/b.ts"⟩ "g".toUTF8)).1

end Echo

theorem Tracker.History.reopened_eq_left_echo :
    Tracker.History Echo.archive.tracked Echo.adopted.1 Echo.adopted.2.1 Echo.scanned.1 Echo.joined ∧
      Echo.joined.isFile ⟨"/w/b.ts"⟩ = true ∧
      Echo.scanned.1.hashes.toList = [("/w/a.ts", "f")] ∧
      Tracker.openAt Echo.dated Echo.archive.tracked Echo.joined =
        ({ path := some Echo.archive.tracked
           watched := Echo.scanned.1.watched, hashes := Echo.scanned.1.hashes },
          Echo.joined, .ok ()) := by
  have hstands : Echo.migrated.Stands := rfl
  obtain ⟨u, hopen⟩ := Tracker.outcome_of_isOk (o := Echo.adopted) (by decide +kernel)
  obtain ⟨changed, hchanged⟩ := Tracker.outcome_of_isOk (o := Echo.scanned) (by decide +kernel)
  have hstart : Tracker.History Echo.archive.tracked Echo.adopted.1 Echo.adopted.2.1 _ _ := .start
  have hscan := hstart.step Echo.isValid_dated (.changedFiles changed hchanged)
  have hrecorded := hscan.isRecorded
    (Tracker.isRecorded_of_openAt hstands Echo.isValid_dated hopen)
  have hwrite := hscan.write hrecorded.stands (q := ⟨"/w/b.ts"⟩) "g".toUTF8 (by decide +kernel)
    (by decide +kernel)
  refine ⟨hwrite, by decide +kernel, by decide +kernel, ?_⟩
  exact (Tracker.History.reopened_eq_left hstands Echo.isValid_dated hopen hwrite).2.2 Echo.joined rfl

end SourceGraph
