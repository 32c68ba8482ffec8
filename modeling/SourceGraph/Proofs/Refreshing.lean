import Mathlib.Data.List.Nodup
import SourceGraph.Proofs.Tracker

/-!
# Refreshing file by file

A tracker can look at all its files at once, or be told to refresh one file after the other. In
memory the two come to the same, in whatever order the files are named and however often: each is a
scan over keys, and what a scan does depends on the set of its keys only.

* `Tracker.refreshFiles`: the refreshing of some files, one after the other.
* `Tracker.scan_of_same_keys`: what a scan does depends on the set of its keys.
* `Tracker.refreshFiles_eq_scan`: refreshing is a scan.
* `Tracker.refreshFiles_agrees`: it comes to the same as a look at all files.
-/

set_option autoImplicit false

namespace SourceGraph.Tracker

/-- Refreshes files one after the other, up to one that is not saved, and tells which changed. -/
def refreshFiles (k : Toolkit) : List Path → Tracker → Disk → Outcome (List Path)
  | [], t, d => (t, d, .ok [])
  | p :: ps, t, d =>
    match t.refreshFile k p d with
    | (t, d, .error f) => (t, d, .error f)
    | (t, d, .ok changed) =>
      match refreshFiles k ps t d with
      | (t, d, .error f) => (t, d, .error f)
      | (t, d, .ok others) => (t, d, .ok (if changed then p :: others else others))

/-! ## Scans -/

section

variable (digest : ByteArray → String) (d : Disk) (hashes : Std.ExtTreeMap String String)

theorem mem_scan (keys : List String) (key : String) :
    key ∈ (scan digest d hashes keys).2 ↔
      key ∈ keys ∧ ∃ hash, hashOf? digest d ⟨key⟩ = some hash ∧ hashes[key]? ≠ some hash :=
  (scan_spec rfl).1 key

theorem getElem?_scan (keys : List String) (key : String) :
    (scan digest d hashes keys).1[key]? =
      if key ∈ (scan digest d hashes keys).2 then hashOf? digest d ⟨key⟩ else hashes[key]? :=
  (scan_spec rfl).2 key

theorem scan_of_same_keys {keys keys' : List String} (h : ∀ key, key ∈ keys ↔ key ∈ keys') :
    (scan digest d hashes keys).1 = (scan digest d hashes keys').1 ∧
      ∀ key, key ∈ (scan digest d hashes keys).2 ↔ key ∈ (scan digest d hashes keys').2 := by
  have hchanged : ∀ key, key ∈ (scan digest d hashes keys).2 ↔
      key ∈ (scan digest d hashes keys').2 := by
    intro key
    rw [mem_scan, mem_scan, h key]
  refine ⟨Std.ExtTreeMap.ext_getElem? fun key => ?_, hchanged⟩
  simp only [getElem?_scan, hchanged]

/-- A key that comes twice has changed at most once. -/
theorem nodup_scan (keys : List String) : (scan digest d hashes keys).2.Nodup := by
  induction keys generalizing hashes with
  | nil => exact List.nodup_nil
  | cons key keys ih =>
    simp only [scan]
    split
    · exact ih hashes
    · rename_i hash hhash
      split
      · exact ih hashes
      · refine List.nodup_cons.mpr ⟨fun hmem => ?_, ih _⟩
        obtain ⟨-, now, hnow, hother⟩ := (mem_scan digest d _ keys key).mp hmem
        rw [hhash] at hnow
        simp [hnow] at hother

theorem scan_eq_self {keys : List String}
    (h : ∀ key ∈ keys, ∀ hash, hashOf? digest d ⟨key⟩ = some hash → hashes[key]? = some hash) :
    scan digest d hashes keys = (hashes, []) := by
  have hnone : (scan digest d hashes keys).2 = [] := by
    refine List.eq_nil_iff_forall_not_mem.mpr fun key hmem => ?_
    obtain ⟨hkey, hash, hhash, hother⟩ := (mem_scan digest d hashes keys key).mp hmem
    exact hother (h key hkey hash hhash)
  refine Prod.ext (Std.ExtTreeMap.ext_getElem? fun key => ?_) hnone
  rw [getElem?_scan, hnone, if_neg List.not_mem_nil]

/-- Nothing has changed where a scan has just looked. -/
theorem scan_again (keys : List String) :
    scan digest d (scan digest d hashes keys).1 keys = ((scan digest d hashes keys).1, []) := by
  refine scan_eq_self digest d _ fun key hkey hash hhash => ?_
  rw [getElem?_scan]
  split
  · exact hhash
  · rename_i hsame
    by_contra hother
    exact hsame ((mem_scan digest d hashes keys key).mpr ⟨hkey, hash, hhash, hother⟩)

end

/-! ## Trackers in memory -/

variable {k : Toolkit} {t : Tracker} {d : Disk}

theorem changedFiles_of_no_path (h : t.path = none) (k : Toolkit) (d : Disk) :
    t.changedFiles k d = ((t.rescan k.digest d).1, d, .ok (t.rescan k.digest d).2) := by
  unfold changedFiles
  split
  · rename_i hscan
    rw [hscan]
  · rename_i hscan
    rw [hscan]
    exact saved_of_no_path ((congrArg (·.1.path) hscan).symm.trans h) _ _ _

theorem changedFiles_again (h : t.path = none) (k : Toolkit) (d : Disk) :
    (t.rescan k.digest d).1.changedFiles k d = ((t.rescan k.digest d).1, d, .ok []) := by
  have hpath : (t.rescan k.digest d).1.path = none := h
  have hagain := scan_again k.digest d t.hashes t.watched.toList
  rw [changedFiles_of_no_path hpath]
  simp only [rescan, hagain, List.map_nil]

/-- One file that is known by its own text. -/
theorem refreshFile_of_key {key : String} (h : t.path = none) (hkey : key ∈ t.watched)
    (hfixed : (Path.mk key).normalized = key) (k : Toolkit) (d : Disk) :
    t.refreshFile k ⟨key⟩ d =
      match hashOf? k.digest d ⟨key⟩ with
      | none => (t, d, .ok false)
      | some hash =>
        if t.hashes[key]? = some hash then (t, d, .ok false)
        else ({ t with hashes := t.hashes.insert key hash }, d, .ok true) := by
  have htracked : t.isTracked ⟨key⟩ = true := by
    rw [isTracked_iff, hfixed]
    exact hkey
  rw [refreshFile, refresh?, if_pos htracked, hfixed]
  cases hashOf? k.digest d ⟨key⟩ with
  | none => dsimp only
  | some hash =>
    by_cases hsame : t.hashes[key]? = some hash
    · simp only [hsame, if_true]
    · have hpath : { t with hashes := t.hashes.insert key hash }.path = none := h
      simp only [hsame, if_false]
      exact saved_of_no_path hpath _ _ _

theorem refreshFiles_eq_scan {keys : List String} (h : t.path = none)
    (hkeys : ∀ key ∈ keys, key ∈ t.watched ∧ (Path.mk key).normalized = key) (k : Toolkit)
    (d : Disk) :
    t.refreshFiles k (keys.map Path.mk) d =
      ({ t with hashes := (scan k.digest d t.hashes keys).1 }, d,
        .ok ((scan k.digest d t.hashes keys).2.map Path.mk)) := by
  induction keys generalizing t with
  | nil => rfl
  | cons key keys ih =>
    obtain ⟨⟨hkey, hfixed⟩, hrest⟩ := List.forall_mem_cons.mp hkeys
    rw [List.map_cons, refreshFiles, refreshFile_of_key h hkey hfixed, scan]
    cases hashOf? k.digest d ⟨key⟩ with
    | none => simp [ih h hrest]
    | some hash =>
      by_cases hsame : t.hashes[key]? = some hash
      · simp [hsame, ih h hrest]
      · -- the others are refreshed in a tracker with the new digest
        have hothers := @ih { t with hashes := t.hashes.insert key hash } h hrest
        simp [hsame, hothers]

/--
In memory, let every tracked file be known by its own text, and let a list name all of them and
nothing else, in any order and any number of times. To refresh the files along the list ends with
the same tracker as one look at all files, and tells of the same ones that they changed, of each
once. A further look finds no change.
-/
theorem refreshFiles_agrees (hpath : t.path = none)
    (hfixed : ∀ key ∈ t.watched, (Path.mk key).normalized = key) {ps : List Path}
    (hps : ∀ p, p ∈ ps ↔ p ∈ t.files) :
    ∃ (t' : Tracker) (changed refreshed : List Path),
      t.changedFiles k d = (t', d, .ok changed) ∧
      t.refreshFiles k ps d = (t', d, .ok refreshed) ∧
      t'.watched = t.watched ∧
      (∀ p, p ∈ refreshed ↔ p ∈ changed) ∧ refreshed.Nodup ∧
      t'.changedFiles k d = (t', d, .ok []) := by
  have hkeys : ∀ key, key ∈ ps.map Path.text ↔ key ∈ t.watched.toList := by
    intro key
    rw [Std.ExtTreeSet.mem_toList, ← mk_mem_files, ← hps, List.mem_map]
    constructor
    · rintro ⟨p, hp, rfl⟩
      exact hp
    · intro hp
      exact ⟨⟨key⟩, hp, rfl⟩
  have hwatched : ∀ key ∈ ps.map Path.text, key ∈ t.watched ∧ (Path.mk key).normalized = key := by
    intro key hkey
    have hmem := Std.ExtTreeSet.mem_toList.mp ((hkeys key).mp hkey)
    exact ⟨hmem, hfixed key hmem⟩
  have hrefresh := refreshFiles_eq_scan hpath hwatched k d
  obtain ⟨hhashes, hchanged⟩ := scan_of_same_keys k.digest d t.hashes hkeys
  have hsame : (ps.map Path.text).map Path.mk = ps := by simp [Function.comp_def]
  rw [hsame, hhashes] at hrefresh
  refine ⟨_, _, _, changedFiles_of_no_path hpath k d, hrefresh, rfl, fun p => ?_, ?_,
    changedFiles_again hpath k d⟩
  · rw [rescan, List.mem_map, List.mem_map]
    simp only [hchanged]
  · exact (nodup_scan k.digest d t.hashes _).map fun _ _ hsame => congrArg Path.text hsame

namespace Aged

/-- Contents are their own digests. -/
def toolkit : Toolkit where
  grammars _ _ := none
  digest content := (String.fromUTF8? content).getD ""
  now := default

def disk : Disk where
  top := .folder "w" (.file "a.ts" "f".toUTF8 (.file "b.ts" "g".toUTF8 .nil)) .nil
  current := []

/-- A file that changed, one that did not, one without a digest and one that is gone. -/
def tracker : Tracker where
  watched := .ofList ["/w/a.ts", "/w/b.ts", "/w//b.ts", "/w/c.ts"]
  hashes := .ofList [("/w/a.ts", "e"), ("/w/b.ts", "g"), ("/w/c.ts", "h")]

end Aged

theorem refreshFiles_agrees_aged :
    ∃ (t' : Tracker) (refreshed : List Path),
      Aged.tracker.refreshFiles Aged.toolkit
        [⟨"/w/c.ts"⟩, ⟨"/w/a.ts"⟩, ⟨"/w//b.ts"⟩, ⟨"/w/a.ts"⟩, ⟨"/w/b.ts"⟩] Aged.disk =
          (t', Aged.disk, .ok refreshed) ∧
      (∀ p, p ∈ refreshed ↔ p ∈ [⟨"/w//b.ts"⟩, ⟨"/w/a.ts"⟩]) ∧
      t'.changedFiles Aged.toolkit Aged.disk = (t', Aged.disk, .ok []) := by
  have hfixed : ∀ key ∈ Aged.tracker.watched.toList, (Path.mk key).normalized = key := by
    decide +kernel
  have hfiles : Aged.tracker.files = [⟨"/w//b.ts"⟩, ⟨"/w/a.ts"⟩, ⟨"/w/b.ts"⟩, ⟨"/w/c.ts"⟩] := by
    decide +kernel
  have hchanged : (Aged.tracker.rescan Aged.toolkit.digest Aged.disk).2 =
      [⟨"/w//b.ts"⟩, ⟨"/w/a.ts"⟩] := by
    decide +kernel
  have hps : ∀ p : Path, p ∈ [⟨"/w/c.ts"⟩, ⟨"/w/a.ts"⟩, ⟨"/w//b.ts"⟩, ⟨"/w/a.ts"⟩, ⟨"/w/b.ts"⟩] ↔
      p ∈ Aged.tracker.files := by
    intro p
    rw [hfiles]
    simp only [List.mem_cons, List.not_mem_nil, or_false]
    tauto
  obtain ⟨t', changed, refreshed, hscan, hrefresh, -, hmem, -, hagain⟩ :=
    refreshFiles_agrees (k := Aged.toolkit) (d := Aged.disk) rfl
      (fun key hkey => hfixed key (Std.ExtTreeSet.mem_toList.mpr hkey)) hps
  rw [changedFiles_of_no_path rfl, hchanged] at hscan
  cases hscan
  exact ⟨_, refreshed, hrefresh, hmem, hagain⟩

end SourceGraph.Tracker
