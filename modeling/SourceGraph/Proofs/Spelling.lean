import SourceGraph.Proofs.Description
import SourceGraph.Proofs.Disk
import SourceGraph.Proofs.Sources

/-!
# Spellings of a path

Two spellings of a path are alike if they have the same components and the same key: relative or
absolute, with any number of separators at the end. A `.` or a repeated separator inside leaves the
components as they are and changes the key.

* `Path.Alike`: the same components and the same key.
* `Disk.walk_concat_empty`: what a separator at the end does to the way through a disk.
* `Workspace.removeFile_congr`, `Workspace.addFile_congr`, …: an operation under another spelling.
-/

set_option autoImplicit false

namespace SourceGraph

namespace Path

variable {p q base : Path}

/-- Two spellings with the same components and the same key. -/
structure Alike (p q : Path) : Prop where
  components : p.components = q.components
  key : p.normalized = q.normalized

theorem Alike.refl (p : Path) : p.Alike p := ⟨rfl, rfl⟩

/-- The path with some separators at its end. -/
def slashed (p : Path) (n : Nat) : Path := ⟨p.text ++ String.ofList (List.replicate n '/')⟩

/-- Whether there is a separator at the end. -/
def isSlashed (p : Path) : Bool := p.text.toList.getLast? == some '/'

theorem toList_slashed (p : Path) (n : Nat) :
    (p.slashed n).text.toList = p.text.toList ++ List.replicate n '/' := by
  simp [slashed]

theorem slashed_zero (p : Path) : p.slashed 0 = p := by
  simp [slashed]

theorem slashed_succ (p : Path) (n : Nat) : p.slashed (n + 1) = (p.slashed n).slashed 1 := by
  simp [slashed, List.replicate_succ', String.append_assoc]

theorem segments_slashed (p : Path) : (p.slashed 1).segments = p.segments ++ [""] := by
  have htext : (p.slashed 1).text = p.text ++ "/" ++ "" := by simp [slashed]
  rw [segments, htext, Text.segments_append, segments]
  rfl

theorem isAbsolute_slashed (h : p.isAbsolute = true) (n : Nat) :
    (p.slashed n).isAbsolute = true := by
  simp only [isAbsolute, beq_iff_eq] at h ⊢
  rw [toList_slashed, List.head?_append, h, Option.some_or]

theorem components_slashed (h : p.isAbsolute = true) :
    (p.slashed 1).components = p.components := by
  rw [components_eq _ (isAbsolute_slashed h 1), components_eq p h, segments_slashed,
    List.filter_append]
  simp [counts]

theorem normalized_slashed (h : p.isAbsolute = true) : (p.slashed 1).normalized = p.normalized := by
  have htext : (Text.replaceChar '\\' '/' (p.slashed 1).text).toList =
      (Text.replaceChar '\\' '/' p.text).toList ++ ['/'] := by
    simp [Text.replaceChar, toList_slashed]
  have hbegins : Text.begins "/" (Text.replaceChar '\\' '/' p.text) = true := by
    cases hcs : p.text.toList with
    | nil => simp [isAbsolute, hcs] at h
    | cons c cs =>
      obtain rfl : c = '/' := by simpa [isAbsolute, hcs] using h
      simp [Text.begins, Text.replaceChar, hcs]
  have hbegins' : Text.begins "/" (Text.replaceChar '\\' '/' (p.slashed 1).text) = true := by
    rw [Text.begins, htext]
    exact List.isPrefixOf_iff_prefix.mpr
      ((List.isPrefixOf_iff_prefix.mp hbegins).trans (List.prefix_append _ _))
  have hkept : Text.dropTrailing '/' (Text.replaceChar '\\' '/' (p.slashed 1).text).toList =
      Text.dropTrailing '/' (Text.replaceChar '\\' '/' p.text).toList := by
    rw [htext, Text.dropTrailing, List.reverse_append, List.reverse_singleton,
      List.singleton_append, List.dropWhile_cons_of_pos (by simp), Text.dropTrailing]
  rw [normalized, normalized, trimSeparators, trimSeparators, hkept, hbegins, hbegins']

/-- Separators at the end leave the components and the key of an absolute path as they are. -/
theorem alike_slashed (h : p.isAbsolute = true) (n : Nat) : p.Alike (p.slashed n) := by
  induction n with
  | zero => rw [slashed_zero]; exact .refl p
  | succ n ih =>
    have habs := isAbsolute_slashed h n
    rw [slashed_succ]
    exact ⟨ih.components.trans (components_slashed habs).symm,
      ih.key.trans (normalized_slashed habs).symm⟩

/-- The key of an absolute path spells its components. -/
theorem components_normalized (h : p.isAbsolute = true) (hplain : '\\' ∉ p.text.toList) :
    (Path.mk p.normalized).components = p.components := by
  have hreplaced : Text.replaceChar '\\' '/' p.text = p.text := Text.replaceChar_eq_self hplain
  have hspelled : ∃ n, (Path.mk p.normalized).slashed n = p ∧
      (Path.mk p.normalized).isAbsolute = true := by
    rw [normalized, hreplaced]
    rcases trimSeparators_cases p.text with ⟨htop, n, htext⟩ | ⟨hempty, -, n, htext⟩
    · cases n with
      | zero => simp [isAbsolute, htext] at h
      | succ n =>
        rw [htop]
        refine ⟨n, congrArg Path.mk (String.toList_inj.mp ?_), rfl⟩
        rw [htext, List.replicate_succ]
        simp
    · refine ⟨n, congrArg Path.mk (String.toList_inj.mp ?_), ?_⟩
      · rw [htext]
        simp
      · have hne : (trimSeparators p.text).toList ≠ [] := by
          intro hnil
          have htop := hempty (String.toList_eq_nil_iff.mp hnil)
          simp [isAbsolute, htop] at h
        rwa [isAbsolute, ← List.head?_append_of_ne_nil _ hne, ← htext]
  obtain ⟨n, hp, habs⟩ := hspelled
  have halike := alike_slashed habs n
  rw [hp] at halike
  exact halike.components

theorem join_slashed (h : p.isSlashed = false) (hne : p.text ≠ "") (q : Path) :
    (p.slashed 1).join q = p.join q := by
  have htext : (p.slashed 1).text = p.text ++ "/" := by simp [slashed]
  have hlast : p.text.toList.getLast? ≠ some '/' := by simpa [isSlashed] using h
  have hlast' : (p.slashed 1).text.toList.getLast? = some '/' := by
    rw [toList_slashed, List.replicate_one, List.getLast?_concat]
  have hne' : (p.slashed 1).text ≠ "" := by simp [htext]
  rw [join, join, if_neg hne, if_neg hne', if_neg hlast, if_pos hlast', htext]

theorem exists_slashed (h : p.isSlashed = true) : ∃ q : Path, p = q.slashed 1 := by
  obtain ⟨cs, hcs⟩ := List.getLast?_eq_some_iff.mp (beq_iff_eq.mp h)
  refine ⟨⟨String.ofList cs⟩, ?_⟩
  rw [slashed, Path.mk.injEq, ← String.toList_inj, hcs]
  simp

/-- Alike spellings that are the same text, or that both end in a separator. -/
structure ReadAlike (p q : Path) : Prop extends p.Alike q where
  text : p = q ∨ p.isSlashed = true ∧ q.isSlashed = true

/-- The same spelling, or one with a separator at the end and one without, of no file. -/
def OpenAlike (d : Disk) (p q : Path) : Prop :=
  p = q ∨ ∃ base : Path, base.isAbsolute = true ∧ base.isSlashed = false ∧ d.isFile base = false ∧
    (p = base ∨ p = base.slashed 1) ∧ (q = base ∨ q = base.slashed 1)

end Path

namespace Disk

/-- With a separator at the end a folder is found as before, and a file is not. -/
theorem walk_concat_empty (top : Listing) (here segs : List String) :
    walk top here (segs ++ [""]) =
      match walk top here segs with
      | .ok (.file _ _) => .error .notFolder
      | .ok (.absent names name _) => .ok (.absent names name true)
      | found => found := by
  induction segs generalizing here with
  | nil =>
    simp only [List.nil_append, walk, true_or, if_true]
    split <;> rfl
  | cons s rest ih =>
    rw [List.cons_append, walk, walk]
    split
    · exact ih here
    · split
      · exact ih here.dropLast
      · split
        · exact ih _
        · by_cases hrest : rest = []
          · simp [hrest]
          · simp [hrest]
        · by_cases hrest : rest.all (· == "")
          · simp [hrest]
          · simp [hrest]

theorem find_slashed {p : Path} (d : Disk) (h : p.isAbsolute = true) :
    d.find (p.slashed 1) =
      match d.find p with
      | .ok (.file _ _) => .error .notFolder
      | .ok (.absent names name _) => .ok (.absent names name true)
      | found => found := by
  rw [find_of_isAbsolute d (Path.isAbsolute_slashed h 1), find_of_isAbsolute d h,
    Path.segments_slashed, walk_concat_empty]

/-- No file is read under a spelling that ends in a separator. -/
theorem read_of_isSlashed {p : Path} (d : Disk) (h : p.isSlashed = true) :
    ∃ f, d.read p = .error f := by
  have hfile : ∀ names content, d.find p ≠ .ok (.file names content) := by
    have hne : p.text ≠ "" := fun e => by simp [Path.isSlashed, e] at h
    obtain ⟨q, rfl⟩ := Path.exists_slashed h
    intro names content
    rw [find, if_neg hne, Path.segments_slashed, walk_concat_empty]
    split
    · simp
    · simp
    · rename_i hnot _
      exact fun heq => hnot names content heq
  cases hfind : d.find p with
  | error f => exact ⟨f, by simp [read, hfind, bind, Except.bind]⟩
  | ok spot =>
    cases spot with
    | file names content => exact absurd hfind (hfile names content)
    | folder names inside => exact ⟨.isFolder, by simp [read, hfind, bind, Except.bind]⟩
    | absent names name slashed => exact ⟨.missing, by simp [read, hfind, bind, Except.bind]⟩

end Disk

/-- The files below a folder depend on what is joined to its path. -/
theorem Listing.filesBelow_congr {base base' : Path} (h : ∀ q, base.join q = base'.join q)
    (extensions : List String) (l : Listing) :
    l.filesBelow extensions base = l.filesBelow extensions base' := by
  induction l with
  | nil => rfl
  | file name content rest ih => rw [filesBelow, filesBelow, h, ih]
  | folder name inside rest _ ih => rw [filesBelow, filesBelow, h, ih]

theorem Disk.enumerate_slashed {d : Disk} {base : Path} (habs : base.isAbsolute = true)
    (hend : base.isSlashed = false) (hfile : d.isFile base = false) (extensions : List String) :
    d.enumerate extensions (base.slashed 1) = d.enumerate extensions base := by
  have hne : base.text ≠ "" := by
    intro e
    simp [Path.isAbsolute, e] at habs
  rw [enumerate, enumerate, find_slashed d habs]
  rw [isFile] at hfile
  cases hfind : d.find base with
  | error f => rfl
  | ok spot =>
    cases spot with
    | file names content => simp [hfind] at hfile
    | absent names name slashed => rfl
    | folder names inside =>
      dsimp only
      rw [Listing.filesBelow_congr (Path.join_slashed hend hne)]

theorem Path.OpenAlike.enumerate {d : Disk} {p q : Path} (h : p.OpenAlike d q)
    (extensions : List String) : d.enumerate extensions p = d.enumerate extensions q := by
  rcases h with rfl | ⟨base, habs, hend, hfile, hp, hq⟩
  · rfl
  · have hsame := Disk.enumerate_slashed habs hend hfile extensions
    rcases hp with rfl | rfl <;> rcases hq with rfl | rfl <;> simp only [hsame]

/-! ## Operations -/

theorem Tracker.removeFile_congr {p q : Path} (t : Tracker) (h : p.normalized = q.normalized)
    (k : Toolkit) (d : Disk) : t.removeFile k p d = t.removeFile k q d := by
  rw [removeFile, removeFile, isTracked, isTracked, h]

namespace Workspace

variable {k : Toolkit} {d : Disk} {w : Workspace} {p q : Path}

theorem supports_congr (h : p.components = q.components) : w.supports p = w.supports q := by
  rw [supports, supports, Language.among?, Language.among?, Path.extension?_congr h]

theorem removeFile_congr (h : (w.absolute p).Alike (w.absolute q)) :
    w.removeFile k p d = w.removeFile k q d := by
  have htracker := w.tracker.removeFile_congr h.key k d
  have hid : ∀ root, FileId.ofPath? root (w.absolute p) = FileId.ofPath? root (w.absolute q) :=
    fun _ => FileId.ofPath?_congr h.components
  simp only [removeFile, htracker, hid]

theorem dropBelow_congr (h : p.components = q.components) : w.dropBelow p = w.dropBelow q := by
  rw [dropBelow, dropBelow, Path.same, Path.same, h, FileId.ofPath?_congr h]

theorem removeFolder_congr (h : (w.absolute p).Alike (w.absolute q)) :
    w.removeFolder k p d = w.removeFolder k q d := by
  have htracker : w.tracker.removeFolder k (w.absolute p) d =
      w.tracker.removeFolder k (w.absolute q) d := by
    rw [Tracker.removeFolder, Tracker.removeFolder, Tracker.filesWithin, Tracker.filesWithin, h.key]
  simp only [removeFolder, htracker, dropBelow_congr h.components]

theorem applyDeleted_congr (h : (w.absolute p).Alike (w.absolute q)) :
    w.applyDeleted k p d = w.applyDeleted k q d := by
  have htracker := w.tracker.removeFile_congr h.key k d
  have hid : ∀ root, FileId.ofPath? root (w.absolute p) = FileId.ofPath? root (w.absolute q) :=
    fun _ => FileId.ofPath?_congr h.components
  simp only [applyDeleted, htracker, hid]

theorem addFile_congr (h : (w.absolute p).ReadAlike (w.absolute q)) :
    w.addFile k p d = w.addFile k q d := by
  rcases h.text with heq | ⟨hp, hq⟩
  · simp only [addFile, heq]
  · obtain ⟨f, hf⟩ := Disk.read_of_isSlashed d hp
    obtain ⟨g, hg⟩ := Disk.read_of_isSlashed d hq
    have hadd : ∀ {r : Path} {e : Fault}, d.read r = .error e →
        w.tracker.addFile k r d = (w.tracker, d, .ok false) := by
      intro r e hr
      simp [Tracker.addFile, Tracker.track?, Tracker.hashOf?, hr]
    have htracked : ∀ t : Tracker, t.isTracked (w.absolute p) = t.isTracked (w.absolute q) := by
      intro t
      rw [Tracker.isTracked, Tracker.isTracked, h.key]
    have hread : (d.read (w.absolute p)).toOption = (d.read (w.absolute q)).toOption := by
      rw [hf, hg]
      rfl
    simp only [addFile, supports_congr h.components, hadd hf, hadd hg, withTracker, htracked,
      index_congr h.components hread]

theorem applyModified_congr (h : (w.absolute p).ReadAlike (w.absolute q)) :
    w.applyModified k p d = w.applyModified k q d := by
  rcases h.text with heq | ⟨hp, hq⟩
  · simp only [applyModified, heq]
  · -- nothing is noticed under either spelling
    have hnone : ∀ {r : Path}, r.isSlashed = true →
        (if w.tracker.isTracked r then w.tracker.refreshFile k r d
          else if w.isWelcome r then w.tracker.addFile k r d else (w.tracker, d, .ok false)) =
          (w.tracker, d, .ok false) := by
      intro r hr
      obtain ⟨e, he⟩ := Disk.read_of_isSlashed d hr
      simp [Tracker.refreshFile, Tracker.refresh?, Tracker.addFile, Tracker.track?,
        Tracker.hashOf?, he]
    simp only [applyModified, hnone hp, hnone hq, withTracker]

theorem addFolder_congr (h : (w.absolute p).OpenAlike d (w.absolute q)) :
    w.addFolder k p d = w.addFolder k q d := by
  have htracker : w.tracker.addFolder k (w.absolute p) d =
      w.tracker.addFolder k (w.absolute q) d := by
    rw [Tracker.addFolder, Tracker.addFolder, h.enumerate]
  unfold addFolder
  rw [htracker]

end Workspace

end SourceGraph
