import SourceGraph.Tracker.Document

/-!
# What operations do to a tracker

Each operation that succeeds is described by what it does to the tracked keys and to the digests
under them. The proofs about workspaces use these descriptions only.

* `Tracker.Extends`: some files are tracked that were not, with their digests.
* `Tracker.Drops`: some keys are tracked no more, and all else is as before.
* `Tracker.Rescans`: the changed files are those whose digest is another one than before.
* `Tracker.Saves`: a tracker that changed was saved.
-/

set_option autoImplicit false

namespace SourceGraph.Tracker

variable {digest : ByteArray → String} {d d' : Disk} {t t' : Tracker} {p : Path}

theorem isTracked_iff : t.isTracked p = true ↔ p.normalized ∈ t.watched := by
  rw [isTracked, Std.ExtTreeSet.contains_iff_mem]

theorem isTracked_eq_false : t.isTracked p = false ↔ p.normalized ∉ t.watched := by
  rw [Bool.eq_false_iff, ne_eq, isTracked_iff]

theorem mem_files : p ∈ t.files ↔ p.text ∈ t.watched := by
  rw [files, List.mem_map]
  constructor
  · rintro ⟨key, hkey, rfl⟩
    exact Std.ExtTreeSet.mem_toList.mp hkey
  · intro h
    exact ⟨p.text, Std.ExtTreeSet.mem_toList.mpr h, rfl⟩

theorem mk_mem_files {key : String} : Path.mk key ∈ t.files ↔ key ∈ t.watched := mem_files

theorem files_congr (h : t'.watched = t.watched) : t'.files = t.files := by
  rw [files, files, h]

/-- A tracker that was saved is as before, and so is the disk if there is no document. -/
theorem saved_of_no_path {α : Type} (h : t.path = none) (now : Timestamp) (d : Disk) (a : α) :
    t.saved now d a = (t, d, .ok a) := by
  rw [saved, save, h]

theorem saved_ok {α : Type} {now : Timestamp} {a b : α}
    (h : t.saved now d a = (t', d', .ok b)) :
    t' = t ∧ b = a ∧ (t.path = none → d' = d) := by
  unfold saved at h
  split at h
  · rename_i disk _ hsave
    cases h
    refine ⟨rfl, rfl, fun hpath => ?_⟩
    simp only [save, hpath, Prod.mk.injEq] at hsave
    exact hsave.1.symm
  · cases h

/-! ## Files that are tracked from now on -/

/-- The tracker with some files that it did not track, and with their digests. -/
structure Extends (digest : ByteArray → String) (d : Disk) (t t' : Tracker) (added : List Path) :
    Prop where
  path : t'.path = t.path
  watched : ∀ key, key ∈ t'.watched ↔ key ∈ t.watched ∨ key ∈ added.map Path.normalized
  new : ∀ p ∈ added, p.normalized ∉ t.watched
  hash : ∀ p ∈ added, t'.hashes[p.normalized]? = hashOf? digest d p
  others : ∀ key, key ∉ added.map Path.normalized → t'.hashes[key]? = t.hashes[key]?

theorem Extends.refl (digest : ByteArray → String) (d : Disk) (t : Tracker) :
    t.Extends digest d t [] where
  path := rfl
  watched := by simp
  new := by simp
  hash := by simp
  others := by simp

theorem extends_of_track? (h : track? digest d t p = some t') : t.Extends digest d t' [p] := by
  unfold track? at h
  split at h
  · cases h
  · rename_i hnew
    obtain ⟨hash, hhash, rfl⟩ := Option.map_eq_some_iff.mp h
    refine ⟨rfl, ?_, ?_, ?_, ?_⟩
    · intro key
      simp only [insert, Std.ExtTreeSet.mem_insert, Std.compare_eq_iff_eq, List.map_cons,
        List.map_nil, List.mem_singleton]
      rw [or_comm, eq_comm]
    · intro q hq
      rw [List.mem_singleton.mp hq]
      exact fun hmem => hnew (isTracked_iff.mpr hmem)
    · intro q hq
      rw [List.mem_singleton.mp hq, hhash]
      simp [insert]
    · intro key hkey
      have hne : p.normalized ≠ key := fun e => hkey (by simp [e])
      simp [insert, Std.ExtTreeMap.getElem?_insert, hne]

theorem Extends.cons {mid : Tracker} {added : List Path} (h : t.Extends digest d mid [p])
    (hrest : mid.Extends digest d t' added) : t.Extends digest d t' (p :: added) where
  path := hrest.path.trans h.path
  watched key := by
    rw [hrest.watched, h.watched]
    simp [or_assoc]
  new q hq := by
    rcases List.mem_cons.mp hq with rfl | hq
    · exact h.new q List.mem_cons_self
    · exact fun hmem => hrest.new q hq ((h.watched _).mpr (Or.inl hmem))
  hash q hq := by
    rcases List.mem_cons.mp hq with rfl | hq
    · -- what is added later has another key
      have hkey : q.normalized ∉ added.map Path.normalized := by
        intro hmem
        obtain ⟨r, hr, hrq⟩ := List.mem_map.mp hmem
        exact hrest.new r hr ((h.watched _).mpr (Or.inr (by simp [hrq])))
      rw [hrest.others _ hkey]
      exact h.hash q List.mem_cons_self
    · exact hrest.hash q hq
  others key hkey := by
    rw [List.map_cons, List.mem_cons, not_or] at hkey
    rw [hrest.others key hkey.2, h.others key (by simpa using hkey.1)]

theorem extends_of_trackAll {ps added : List Path} (h : trackAll digest d t ps = (t', added)) :
    t.Extends digest d t' added ∧ ∀ p ∈ added, p ∈ ps := by
  induction ps generalizing t added with
  | nil =>
    cases h
    exact ⟨.refl digest d _, by simp⟩
  | cons q ps ih =>
    simp only [trackAll] at h
    split at h
    · obtain ⟨hext, hsub⟩ := ih h
      exact ⟨hext, fun p hp => List.mem_cons_of_mem _ (hsub p hp)⟩
    · rename_i mid hmid
      cases hrest : trackAll digest d mid ps with
      | mk last rest =>
        rw [hrest] at h
        cases h
        obtain ⟨hext, hsub⟩ := ih hrest
        refine ⟨(extends_of_track? hmid).cons hext, ?_⟩
        intro p hp
        rcases List.mem_cons.mp hp with rfl | hp
        · exact List.mem_cons_self
        · exact List.mem_cons_of_mem _ (hsub p hp)

theorem addFile_ok {k : Toolkit} {b : Bool} (h : t.addFile k p d = (t', d', .ok b)) :
    t.Extends k.digest d t' (if b then [p] else []) ∧ (t.path = none → d' = d) := by
  unfold addFile at h
  split at h
  · cases h
    exact ⟨.refl _ d t, fun _ => rfl⟩
  · rename_i mid hmid
    have hext := extends_of_track? hmid
    obtain ⟨rfl, rfl, hdisk⟩ := saved_ok h
    exact ⟨hext, fun hpath => hdisk (hext.path.trans hpath)⟩

theorem addFolder_ok {k : Toolkit} {folder : Path} {added : List Path}
    (h : t.addFolder k folder d = (t', d', .ok added)) :
    t.Extends k.digest d t' added ∧ (∀ p ∈ added, p ∈ d.enumerate t.extensions folder) ∧
      (t.path = none → d' = d) := by
  unfold addFolder at h
  split at h
  · rename_i mid hmid
    cases h
    obtain ⟨hext, hsub⟩ := extends_of_trackAll hmid
    exact ⟨hext, hsub, fun _ => rfl⟩
  · rename_i mid more _ hmid
    obtain ⟨hext, hsub⟩ := extends_of_trackAll hmid
    obtain ⟨rfl, rfl, hdisk⟩ := saved_ok h
    exact ⟨hext, hsub, fun hpath => hdisk (hext.path.trans hpath)⟩

/-! ## Files that are tracked no more -/

/-- The tracker without some keys; under the others it has what it had. -/
structure Drops (t t' : Tracker) (gone : String → Prop) : Prop where
  path : t'.path = t.path
  watched : ∀ key, key ∈ t'.watched ↔ key ∈ t.watched ∧ ¬ gone key
  hash : ∀ key, ¬ gone key → t'.hashes[key]? = t.hashes[key]?

theorem Drops.trans {mid : Tracker} {gone gone' : String → Prop} (h : t.Drops mid gone)
    (h' : mid.Drops t' gone') :
    t.Drops t' fun key => gone key ∨ gone' key where
  path := h'.path.trans h.path
  watched key := by rw [h'.watched, h.watched, not_or, and_assoc]
  hash key hkey := by
    rw [not_or] at hkey
    rw [h'.hash key hkey.2, h.hash key hkey.1]

theorem drops_eraseAll (t : Tracker) (keys : List String) :
    t.Drops (t.eraseAll keys) (· ∈ keys) := by
  induction keys generalizing t with
  | nil => exact ⟨rfl, by simp [eraseAll], by simp [eraseAll]⟩
  | cons key keys ih =>
    have hrest := ih (t.erase key)
    refine ⟨hrest.path, ?_, ?_⟩
    · intro other
      have hkey : other ∈ (t.erase key).watched ↔ key ≠ other ∧ other ∈ t.watched := by
        simp only [erase, Std.ExtTreeSet.mem_erase, ne_eq, Std.compare_eq_iff_eq]
      change other ∈ ((t.erase key).eraseAll keys).watched ↔ _
      rw [hrest.watched other, hkey, List.mem_cons, not_or, ne_comm, and_comm (a := other ≠ key),
        and_assoc]
    · intro other hother
      rw [List.mem_cons, not_or] at hother
      have hne : key ≠ other := fun e => hother.1 e.symm
      change ((t.erase key).eraseAll keys).hashes[other]? = _
      rw [hrest.hash other hother.2]
      simp [erase, Std.ExtTreeMap.getElem?_erase, hne]

theorem removeFile_ok {k : Toolkit} {b : Bool} (h : t.removeFile k p d = (t', d', .ok b)) :
    t.Drops t' (· = p.normalized) ∧ b = t.isTracked p ∧ (t.path = none → d' = d) := by
  unfold removeFile at h
  split at h
  · rename_i htracked
    obtain ⟨rfl, rfl, hdisk⟩ := saved_ok h
    have hdrops := drops_eraseAll t [p.normalized]
    refine ⟨⟨rfl, ?_, ?_⟩, htracked.symm, hdisk⟩
    · intro key
      rw [← List.mem_singleton]
      exact hdrops.watched key
    · intro key hkey
      exact hdrops.hash key (by simpa using hkey)
  · rename_i htracked
    cases h
    refine ⟨⟨rfl, ?_, fun _ _ => rfl⟩, by simpa using htracked, fun _ => rfl⟩
    intro key
    refine ⟨fun hkey => ⟨hkey, ?_⟩, And.left⟩
    rintro rfl
    exact htracked (isTracked_iff.mpr hkey)

theorem mem_filesWithin {folder : Path} {key : String} :
    key ∈ t.filesWithin folder ↔
      key ∈ t.watched ∧ FileId.isWithin key folder.normalized = true := by
  rw [filesWithin, List.mem_filter, Std.ExtTreeSet.mem_toList]

theorem removeFolder_ok {k : Toolkit} {folder : Path} {removed : List Path}
    (h : t.removeFolder k folder d = (t', d', .ok removed)) :
    t.Drops t' (FileId.isWithin · folder.normalized = true) ∧ (t.path = none → d' = d) := by
  unfold removeFolder at h
  split at h
  · rename_i hnone
    cases h
    refine ⟨⟨rfl, ?_, fun _ _ => rfl⟩, fun _ => rfl⟩
    intro key
    refine ⟨fun hkey => ⟨hkey, fun hin => ?_⟩, And.left⟩
    have hmem := mem_filesWithin.mpr ⟨hkey, hin⟩
    rw [hnone] at hmem
    exact List.not_mem_nil hmem
  · obtain ⟨rfl, rfl, hdisk⟩ := saved_ok h
    have hdrops := drops_eraseAll t (t.filesWithin folder)
    refine ⟨⟨hdrops.path, ?_, ?_⟩, fun hpath => hdisk (hdrops.path.trans hpath)⟩
    · intro key
      rw [hdrops.watched, mem_filesWithin]
      refine ⟨fun h => ⟨h.1, fun hin => h.2 ⟨h.1, hin⟩⟩, fun h => ⟨h.1, fun hin => h.2 hin.2⟩⟩
    · intro key hkey
      exact hdrops.hash key fun hmem => hkey (mem_filesWithin.mp hmem).2

/-! ## Files that changed -/

/-- The tracker with the current digests, and the keys under which there was another one. -/
structure Rescans (digest : ByteArray → String) (d : Disk) (t t' : Tracker)
    (changed : List String) : Prop where
  path : t'.path = t.path
  watched : t'.watched = t.watched
  mem_changed : ∀ key, key ∈ changed ↔
    key ∈ t.watched ∧ ∃ hash, hashOf? digest d ⟨key⟩ = some hash ∧ t.hashes[key]? ≠ some hash
  hash : ∀ key, t'.hashes[key]? =
    if key ∈ changed then hashOf? digest d ⟨key⟩ else t.hashes[key]?

theorem scan_spec {hashes hashes' : Std.ExtTreeMap String String} {keys changed : List String}
    (h : scan digest d hashes keys = (hashes', changed)) :
    (∀ key, key ∈ changed ↔
      key ∈ keys ∧ ∃ hash, hashOf? digest d ⟨key⟩ = some hash ∧ hashes[key]? ≠ some hash) ∧
    ∀ key, hashes'[key]? =
      if key ∈ changed then hashOf? digest d ⟨key⟩ else hashes[key]? := by
  induction keys generalizing hashes changed with
  | nil =>
    cases h
    simp
  | cons key keys ih =>
    simp only [scan] at h
    split at h
    · rename_i hnone
      obtain ⟨hmem, hhash⟩ := ih h
      refine ⟨fun other => ?_, hhash⟩
      rw [hmem other, List.mem_cons]
      by_cases hother : other = key
      · simp [hother, hnone]
      · simp [hother]
    · rename_i hash hsome
      split at h
      · rename_i hsame
        obtain ⟨hmem, hhash⟩ := ih h
        refine ⟨fun other => ?_, hhash⟩
        rw [hmem other, List.mem_cons]
        by_cases hother : other = key
        · simp [hother, hsome, hsame]
        · simp [hother]
      · rename_i hdiff
        cases hrest : scan digest d (hashes.insert key hash) keys with
        | mk last rest =>
          rw [hrest] at h
          cases h
          obtain ⟨hmem, hhash⟩ := ih hrest
          refine ⟨fun other => ?_, fun other => ?_⟩
          · rw [List.mem_cons, List.mem_cons, hmem other, Std.ExtTreeMap.getElem?_insert]
            by_cases hother : other = key
            · simp [hother, hsome, hdiff]
            · simp [hother, Ne.symm hother]
          · rw [hhash other, Std.ExtTreeMap.getElem?_insert]
            by_cases hother : other = key
            · simp [hother, hsome]
            · simp [hother, Ne.symm hother]

theorem rescan_spec {changed : List Path} (h : t.rescan digest d = (t', changed)) :
    ∃ keys : List String, changed = keys.map Path.mk ∧ t.Rescans digest d t' keys := by
  cases hscan : scan digest d t.hashes t.watched.toList with
  | mk hashes keys =>
    rw [rescan, hscan] at h
    cases h
    obtain ⟨hmem, hhash⟩ := scan_spec hscan
    refine ⟨keys, rfl, ⟨rfl, rfl, fun key => ?_, hhash⟩⟩
    rw [hmem key, Std.ExtTreeSet.mem_toList]

theorem changedFiles_ok {k : Toolkit} {changed : List Path}
    (h : t.changedFiles k d = (t', d', .ok changed)) :
    (∃ keys : List String, changed = keys.map Path.mk ∧ t.Rescans k.digest d t' keys) ∧
      (t.path = none → d' = d) := by
  unfold changedFiles at h
  split at h
  · rename_i hscan
    cases h
    exact ⟨rescan_spec hscan, fun _ => rfl⟩
  · rename_i hscan
    obtain ⟨keys, hkeys, hspec⟩ := rescan_spec hscan
    obtain ⟨rfl, rfl, hdisk⟩ := saved_ok h
    exact ⟨⟨keys, hkeys, hspec⟩, fun hpath => hdisk (hspec.path.trans hpath)⟩

theorem refreshFile_ok {k : Toolkit} {b : Bool} (h : t.refreshFile k p d = (t', d', .ok b)) :
    t'.path = t.path ∧ t'.watched = t.watched ∧
      (∀ key, t'.hashes[key]? =
        if b = true ∧ key = p.normalized then hashOf? k.digest d p else t.hashes[key]?) ∧
      (t.path = none → d' = d) := by
  unfold refreshFile at h
  split at h
  · cases h
    exact ⟨rfl, rfl, by simp, fun _ => rfl⟩
  · rename_i mid hmid
    obtain ⟨rfl, rfl, hdisk⟩ := saved_ok h
    unfold refresh? at hmid
    split at hmid
    · split at hmid
      · rename_i hash hhash
        split at hmid
        · cases hmid
        · cases hmid
          refine ⟨rfl, rfl, fun key => ?_, hdisk⟩
          rw [Std.ExtTreeMap.getElem?_insert, hhash]
          by_cases hkey : key = p.normalized
          · simp [hkey]
          · simp [hkey, Ne.symm hkey]
      · cases hmid
    · cases hmid

/-! ## Entries -/

/-- What a tracker has under a key. -/
def entry (t : Tracker) (key : String) : Bool × Option String :=
  (t.watched.contains key, t.hashes[key]?)

theorem Extends.noticed {added : List Path} (h : t.Extends digest d t' added) (hne : added ≠ []) :
    ∃ key, t'.entry key ≠ t.entry key := by
  obtain ⟨p, rest, rfl⟩ := List.exists_cons_of_ne_nil hne
  refine ⟨p.normalized, fun hsame => h.new p List.mem_cons_self ?_⟩
  have hnow : (t'.entry p.normalized).1 = true :=
    Std.ExtTreeSet.contains_iff_mem.mpr ((h.watched _).mpr (Or.inr (by simp)))
  rw [hsame] at hnow
  exact Std.ExtTreeSet.contains_iff_mem.mp hnow

theorem Rescans.noticed {changed : List String} (h : t.Rescans digest d t' changed) (hne : changed ≠ []) :
    ∃ key, t'.entry key ≠ t.entry key := by
  obtain ⟨key, rest, rfl⟩ := List.exists_cons_of_ne_nil hne
  obtain ⟨_, hash, hhash, hother⟩ := (h.mem_changed key).mp List.mem_cons_self
  refine ⟨key, fun hsame => hother ?_⟩
  have hnow : (t'.entry key).2 = some hash := by
    rw [entry, h.hash, if_pos List.mem_cons_self, hhash]
  rw [hsame] at hnow
  exact hnow

theorem covers_iff : t.covers p = true ↔
    ∃ file ∈ t.watched, FileId.parent file ≠ "" ∧
      FileId.isWithin p.normalized (FileId.parent file) = true := by
  simp [covers]

/-! ## Changes and their saving -/

/-- There are digests of tracked files only. -/
def IsSound (t : Tracker) : Prop := ∀ key ∈ t.hashes, key ∈ t.watched

theorem Extends.isSound {added : List Path}
    (h : t.Extends digest d t' added) (hsound : t.IsSound) : t'.IsSound := by
  intro key hkey
  rw [h.watched]
  by_cases hadded : key ∈ added.map Path.normalized
  · exact Or.inr hadded
  · refine Or.inl (hsound key ?_)
    rwa [← Std.ExtTreeMap.isSome_getElem?_iff_mem, h.others key hadded,
      Std.ExtTreeMap.isSome_getElem?_iff_mem] at hkey

theorem Rescans.isSound {changed : List String}
    (h : t.Rescans digest d t' changed) (hsound : t.IsSound) : t'.IsSound := by
  intro key hkey
  rw [h.watched]
  rw [← Std.ExtTreeMap.isSome_getElem?_iff_mem, h.hash] at hkey
  split at hkey
  · rename_i hchanged
    exact ((h.mem_changed key).mp hchanged).1
  · exact hsound key (Std.ExtTreeMap.isSome_getElem?_iff_mem.mp hkey)

/-- A tracker with other files or digests, that is kept at the same place. -/
structure Revises (t t' : Tracker) : Prop where
  path : t'.path = t.path
  extensions : t'.extensions = t.extensions
  sound : t.IsSound → t'.IsSound

theorem Revises.refl (t : Tracker) : t.Revises t := ⟨rfl, rfl, fun h => h⟩

theorem Revises.trans {t'' : Tracker} (h : t.Revises t') (h' : t'.Revises t'') : t.Revises t'' :=
  ⟨h'.path.trans h.path, h'.extensions.trans h.extensions, fun ht => h'.sound (h.sound ht)⟩

theorem revises_insert (t : Tracker) (key hash : String) : t.Revises (t.insert key hash) := by
  refine ⟨rfl, rfl, fun ht other hother => ?_⟩
  simp only [insert, Std.ExtTreeMap.mem_insert, Std.ExtTreeSet.mem_insert] at hother ⊢
  exact hother.imp_right (ht other)

theorem revises_erase (t : Tracker) (key : String) : t.Revises (t.erase key) := by
  refine ⟨rfl, rfl, fun ht other hother => ?_⟩
  simp only [erase, Std.ExtTreeMap.mem_erase, Std.ExtTreeSet.mem_erase] at hother ⊢
  exact ⟨hother.1, ht other hother.2⟩

theorem revises_eraseAll (t : Tracker) (keys : List String) : t.Revises (t.eraseAll keys) := by
  induction keys generalizing t with
  | nil => exact .refl t
  | cons key keys ih => exact (revises_erase t key).trans (ih (t.erase key))

theorem revises_track? (h : track? digest d t p = some t') : t.Revises t' := by
  unfold track? at h
  split at h
  · cases h
  · obtain ⟨hash, _, rfl⟩ := Option.map_eq_some_iff.mp h
    exact revises_insert t _ hash

/-- A tracker to which no file was added is as before. -/
theorem revises_trackAll (digest : ByteArray → String) (d : Disk) (t : Tracker) (ps : List Path) :
    t.Revises (trackAll digest d t ps).1 ∧
      ((trackAll digest d t ps).2 = [] → (trackAll digest d t ps).1 = t) := by
  induction ps generalizing t with
  | nil => exact ⟨.refl t, fun _ => rfl⟩
  | cons p ps ih =>
    rw [trackAll]
    split
    · exact ih t
    · rename_i mid hmid
      exact ⟨(revises_track? hmid).trans (ih mid).1, fun h => by cases h⟩

theorem revises_refresh? (h : refresh? digest d t p = some t') : t.Revises t' := by
  unfold refresh? at h
  split at h
  · rename_i htracked
    split at h
    · split at h
      · cases h
      · cases h
        refine ⟨rfl, rfl, fun ht key hkey => ?_⟩
        rw [Std.ExtTreeMap.mem_insert] at hkey
        rcases hkey with hkey | hkey
        · rw [← Std.compare_eq_iff_eq.mp hkey]
          exact isTracked_iff.mp htracked
        · exact ht key hkey
    · cases h
  · cases h

/-- A tracker of which no file changed is as before. -/
theorem revises_rescan (digest : ByteArray → String) (d : Disk) (t : Tracker) :
    t.Revises (t.rescan digest d).1 ∧
      ((t.rescan digest d).2 = [] → (t.rescan digest d).1 = t) := by
  have hrescan : t.rescan digest d = ((t.rescan digest d).1, (t.rescan digest d).2) := rfl
  obtain ⟨keys, hkeys, hspec⟩ := rescan_spec hrescan
  refine ⟨⟨hspec.path, rfl, fun ht key hkey => ?_⟩, fun hnone => ?_⟩
  · rw [hspec.watched]
    by_cases hchanged : key ∈ keys
    · exact ((hspec.mem_changed key).mp hchanged).1
    · refine ht key ?_
      rw [← Std.ExtTreeMap.isSome_getElem?_iff_mem] at hkey ⊢
      rwa [hspec.hash, if_neg hchanged] at hkey
  · rw [hkeys, List.map_eq_nil_iff] at hnone
    have hhashes : (t.rescan digest d).1.hashes = t.hashes := by
      apply Std.ExtTreeMap.ext_getElem?
      intro key
      rw [hspec.hash, hnone, if_neg List.not_mem_nil]
    change { t with hashes := (t.rescan digest d).1.hashes } = t
    rw [hhashes]

/-- Nothing was to be done, or a changed tracker was saved. -/
def Saves (k : Toolkit) (t : Tracker) (d : Disk) (t' : Tracker) (d' : Disk) : Prop :=
  t' = t ∧ d' = d ∨ t.Revises t' ∧ t'.save k.now d = (d', .ok ())

theorem Saves.revises {k : Toolkit} (h : t.Saves k d t' d') : t.Revises t' := by
  rcases h with ⟨rfl, _⟩ | ⟨hrevises, _⟩
  · exact .refl _
  · exact hrevises

section

variable {k : Toolkit} {b : Bool}

theorem saves_of_saved {α : Type} {a c : α} {t'' : Tracker} (hrevises : t.Revises t')
    (h : t'.saved k.now d a = (t'', d', .ok c)) : t.Saves k d t'' d' := by
  unfold saved at h
  split at h
  · rename_i disk _ hsave
    cases h
    exact Or.inr ⟨hrevises, hsave⟩
  · cases h

theorem addFile_saves (h : t.addFile k p d = (t', d', .ok b)) : t.Saves k d t' d' := by
  unfold addFile at h
  split at h
  · cases h
    exact Or.inl ⟨rfl, rfl⟩
  · rename_i mid hmid
    exact saves_of_saved (revises_track? hmid) h

theorem addFolder_saves {folder : Path} {added : List Path}
    (h : t.addFolder k folder d = (t', d', .ok added)) : t.Saves k d t' d' := by
  have hrevises := revises_trackAll k.digest d t (d.enumerate t.extensions folder)
  unfold addFolder at h
  split at h
  · rename_i mid hmid
    rw [hmid] at hrevises
    cases h
    exact Or.inl ⟨hrevises.2 rfl, rfl⟩
  · rename_i mid _ _ hmid
    rw [hmid] at hrevises
    exact saves_of_saved hrevises.1 h

theorem removeFile_saves (h : t.removeFile k p d = (t', d', .ok b)) : t.Saves k d t' d' := by
  unfold removeFile at h
  split at h
  · exact saves_of_saved (revises_erase t _) h
  · cases h
    exact Or.inl ⟨rfl, rfl⟩

theorem removeFolder_saves {folder : Path} {removed : List Path}
    (h : t.removeFolder k folder d = (t', d', .ok removed)) : t.Saves k d t' d' := by
  unfold removeFolder at h
  split at h
  · cases h
    exact Or.inl ⟨rfl, rfl⟩
  · exact saves_of_saved (revises_eraseAll t _) h

theorem addFile_of_no_path (h : t.path = none) (k : Toolkit) (p : Path) (d : Disk) :
    t.addFile k p d =
      ((track? k.digest d t p).getD t, d, .ok (track? k.digest d t p).isSome) := by
  unfold addFile
  cases htrack : track? k.digest d t p with
  | none => rfl
  | some t' => exact saved_of_no_path ((revises_track? htrack).path.trans h) _ _ _

theorem removeFile_of_no_path (h : t.path = none) (k : Toolkit) (p : Path) (d : Disk) :
    ∃ t' b, t.removeFile k p d = (t', d, .ok b) ∧ t'.path = t.path := by
  unfold removeFile
  split
  · have hpath := (revises_erase t p.normalized).path
    exact ⟨_, _, saved_of_no_path (hpath.trans h) _ _ _, hpath⟩
  · exact ⟨_, _, rfl, rfl⟩

theorem removeFolder_of_no_path (h : t.path = none) (k : Toolkit) (folder : Path) (d : Disk) :
    ∃ t' removed, t.removeFolder k folder d = (t', d, .ok removed) ∧ t'.path = t.path := by
  unfold removeFolder
  split
  · exact ⟨_, _, rfl, rfl⟩
  · have hpath := (revises_eraseAll t (t.filesWithin folder)).path
    exact ⟨_, _, saved_of_no_path (hpath.trans h) _ _ _, hpath⟩

theorem refreshFile_saves (h : t.refreshFile k p d = (t', d', .ok b)) : t.Saves k d t' d' := by
  unfold refreshFile at h
  split at h
  · cases h
    exact Or.inl ⟨rfl, rfl⟩
  · rename_i mid hmid
    exact saves_of_saved (revises_refresh? hmid) h

theorem changedFiles_saves {changed : List Path}
    (h : t.changedFiles k d = (t', d', .ok changed)) : t.Saves k d t' d' := by
  have hrevises := revises_rescan k.digest d t
  unfold changedFiles at h
  split at h
  · rename_i mid hmid
    rw [hmid] at hrevises
    cases h
    exact Or.inl ⟨hrevises.2 rfl, rfl⟩
  · rename_i mid _ _ hmid
    rw [hmid] at hrevises
    exact saves_of_saved hrevises.1 h

end

end SourceGraph.Tracker
