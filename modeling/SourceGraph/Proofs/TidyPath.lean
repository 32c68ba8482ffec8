import SourceGraph.Proofs.Spelling

/-!
# Tidy spellings

A tidy spelling of an absolute path has one separator before each of its segments, none of which is
`.`, and any number of them at the end. The segments determine its key and its components, so a
tracker that holds only such keys compares paths as their components do.

* `Path.IsTidy`, `Tracker.IsTidy`: tidy spellings, and trackers that hold only such.
* `Path.IsTidy.alike`: tidy spellings with the same components have the same key.
* `Tracker.IsTidy.eq_of_same`, `Tracker.IsTidy.eq_key_iff`, `Tracker.IsTidy.isWithin_key_iff`: keys
  and components of tracked files.
* `Disk.tidy_of_mem_enumerate`: the expansion of a folder gives tidy paths.
-/

set_option autoImplicit false

namespace SourceGraph

/-! ## Paths -/

namespace Path

/-- A segment that counts, and in which nothing is read as a separator. -/
def IsSegment (n : String) : Prop := counts n = true ∧ '/' ∉ n.toList ∧ '\\' ∉ n.toList

instance : DecidablePred IsSegment := fun _ => inferInstanceAs (Decidable (_ ∧ _ ∧ _))

/-- An absolute path with one separator before each segment, and some at the end. -/
def IsTidy (p : Path) : Prop :=
  ∃ names n, (∀ m ∈ names, IsSegment m) ∧ p = (Disk.absolute names).slashed n

variable {names more : List String} {p q : Path}

theorem IsSegment.ne {n : String} (h : IsSegment n) : n ≠ "" ∧ '/' ∉ n.toList := by
  refine ⟨fun e => ?_, h.2.1⟩
  rw [e] at h
  exact absurd h.1 (by decide)

theorem components_of_segments (h : ∀ n ∈ names, IsSegment n) :
    (Disk.absolute names).components = .root :: names.map .ofSegment := by
  rw [components_eq _ (isAbsolute_absolute names), segments_absolute fun n hn => (h n hn).2.1,
    List.filter_eq_self.mpr fun n hn => (h n hn).1]

theorem normalized_of_segments (h : ∀ n ∈ names, IsSegment n) :
    (Disk.absolute names).normalized = (Disk.absolute names).text := by
  refine normalized_absolute_of_ne (fun n hn => (h n hn).ne) fun hmem => ?_
  obtain ⟨n, hn, hc⟩ := List.mem_flatMap.mp hmem
  rcases List.mem_cons.mp hc with hc | hc
  · exact absurd hc (by decide)
  · exact (h n hn).2.2 hc

theorem root_cons_inj :
    Component.root :: names.map .ofSegment = .root :: more.map .ofSegment ↔ names = more := by
  rw [List.cons.injEq, List.map_inj_right ofSegment_injective]
  exact and_iff_right rfl

/-- The components and the key of a tidy path are those of its segments. -/
theorem IsTidy.segments (h : p.IsTidy) : ∃ names, (∀ n ∈ names, IsSegment n) ∧
    p.components = .root :: names.map .ofSegment ∧ p.normalized = (Disk.absolute names).text := by
  obtain ⟨names, n, hnames, rfl⟩ := h
  have halike := alike_slashed (isAbsolute_absolute names) n
  exact ⟨names, hnames, halike.components ▸ components_of_segments hnames,
    halike.key ▸ normalized_of_segments hnames⟩

/-- Tidy spellings with the same components have the same key. -/
theorem IsTidy.alike (hp : p.IsTidy) (hq : q.IsTidy) (h : p.components = q.components) :
    p.Alike q := by
  obtain ⟨names, -, hcomponents, hkey⟩ := hp.segments
  obtain ⟨more, -, hcomponents', hkey'⟩ := hq.segments
  rw [hcomponents, hcomponents', root_cons_inj] at h
  exact ⟨by rw [hcomponents, hcomponents', h], by rw [hkey, hkey', h]⟩

/-- Tidy paths are scoped by segments. -/
theorem isWithin_absolute_iff (hnames : ∀ n ∈ names, IsSegment n)
    (hmore : ∀ n ∈ more, IsSegment n) :
    FileId.isWithin (Disk.absolute more).text (Disk.absolute names).text = true ↔
      names <+: more := by
  by_cases hne : names = []
  · subst hne
    have hstart := isAbsolute_absolute more
    rw [isAbsolute, beq_iff_eq] at hstart
    exact iff_of_true (FileId.isWithin_root.mpr hstart) List.nil_prefix
  have htext := text_absolute hne
  have hlast : (Disk.absolute names).text.toList.getLast? ≠ some '/' := by
    rw [htext]
    exact getLast?_trail_of_ne [] hne fun n hn => (hnames n hn).ne
  have hslash : '/' ∈ (Disk.absolute names).text.toList := by
    rw [htext, trail_eq_cons hne]
    simp
  rw [FileId.isWithin_iff hlast (by rintro h; simp [h] at hslash) (by rintro h; simp [h] at hslash)]
  by_cases hne' : more = []
  · subst hne'
    -- the top is in no other folder
    obtain ⟨n, rest, rfl⟩ := List.exists_cons_of_ne_nil hne
    obtain ⟨c, cs, hc⟩ := List.exists_cons_of_ne_nil fun e =>
      (hnames n List.mem_cons_self).ne.1 (String.toList_eq_nil_iff.mp e)
    have htop : (Disk.absolute []).text.toList = ['/'] := by decide
    rw [htext, htop]
    simp [trail, hc]
  · rw [htext, text_absolute hne', ← Text.splitOn_prefix_iff,
      splitOn_trail fun n hn => (hnames n hn).2.1, splitOn_trail fun n hn => (hmore n hn).2.1,
      List.cons_prefix_cons]
    simp only [true_and]
    exact List.prefix_map_iff_of_injective fun _ _ => String.toList_inj.mp

end Path

/-! ## Trackers -/

/-- All tracked files have a tidy spelling. -/
def Tracker.IsTidy (t : Tracker) : Prop :=
  ∀ key ∈ t.watched, ∃ names, (∀ n ∈ names, Path.IsSegment n) ∧ key = (Disk.absolute names).text

namespace Tracker.IsTidy

variable {t : Tracker} {f g p : Path}

theorem segments (h : t.IsTidy) (hf : f ∈ t.files) :
    ∃ names, (∀ n ∈ names, Path.IsSegment n) ∧ f = Disk.absolute names := by
  obtain ⟨names, hnames, htext⟩ := h f.text (mem_files.mp hf)
  exact ⟨names, hnames, by rw [← Path.mk.injEq] at htext; exact htext⟩

/-- No file is tracked twice. -/
theorem eq_of_same (h : t.IsTidy) (hf : f ∈ t.files) (hg : g ∈ t.files)
    (hsame : f.same g = true) : f = g := by
  obtain ⟨names, hnames, rfl⟩ := h.segments hf
  obtain ⟨more, hmore, rfl⟩ := h.segments hg
  rw [Path.same, beq_iff_eq, Path.components_of_segments hnames,
    Path.components_of_segments hmore, Path.root_cons_inj] at hsame
  rw [hsame]

/-- A tracked file has the key of a tidy path exactly if it has its components. -/
theorem eq_key_iff (h : t.IsTidy) (hf : f ∈ t.files) (hp : p.IsTidy) :
    f.text = p.normalized ↔ f.same p = true := by
  obtain ⟨names, hnames, rfl⟩ := h.segments hf
  obtain ⟨more, hmore, hcomponents, hkey⟩ := hp.segments
  rw [Path.same, beq_iff_eq, hcomponents, hkey, Path.components_of_segments hnames,
    Path.root_cons_inj]
  constructor
  · intro htext
    have hcs := congrArg (fun s => (Path.mk s).components) htext
    change (Disk.absolute names).components = (Disk.absolute more).components at hcs
    rw [Path.components_of_segments hnames, Path.components_of_segments hmore,
      Path.root_cons_inj] at hcs
    exact hcs
  · rintro rfl
    rfl

/-- A tracked file is in the scope of a tidy path exactly if its components go on from it. -/
theorem isWithin_key_iff (h : t.IsTidy) (hf : f ∈ t.files) (hp : p.IsTidy) :
    FileId.isWithin f.text p.normalized = true ↔ f.isBelow p = true := by
  obtain ⟨names, hnames, rfl⟩ := h.segments hf
  obtain ⟨more, hmore, hcomponents, hkey⟩ := hp.segments
  rw [hkey, Path.isWithin_absolute_iff hmore hnames, Path.isBelow_iff, hcomponents,
    Path.components_of_segments hnames, List.cons_prefix_cons]
  simp only [true_and]
  exact (List.prefix_map_iff_of_injective Path.ofSegment_injective).symm

end Tracker.IsTidy

/-! ## Expansions -/

theorem Listing.tidy_of_mem_filesBelow {l : Listing} (extensions : List String)
    {names : List String} {f : Path} (hl : l.AllNames Path.IsSegment)
    (hnames : ∀ n ∈ names, Path.IsSegment n)
    (hf : f ∈ l.filesBelow extensions (Disk.absolute names)) : f.IsTidy := by
  have hjoin : ∀ {names : List String} {n : String}, (∀ m ∈ names, Path.IsSegment m) →
      Path.IsSegment n → (∀ m ∈ names ++ [n], Path.IsSegment m) ∧
        (Disk.absolute names).join ⟨n⟩ = Disk.absolute (names ++ [n]) := by
    intro names n hnames hn
    refine ⟨fun m hm => ?_, Path.join_absolute (fun m hm => (hnames m hm).ne) hn.2.1⟩
    rcases List.mem_append.mp hm with hm | hm
    · exact hnames m hm
    · exact List.mem_singleton.mp hm ▸ hn
  induction l generalizing names with
  | nil => simp [filesBelow] at hf
  | file n content rest ih =>
    simp only [filesBelow] at hf
    split at hf
    · rcases List.mem_cons.mp hf with rfl | hf
      · obtain ⟨hall, hpath⟩ := hjoin hnames hl.1
        exact ⟨names ++ [n], 0, hall, by rw [hpath, Path.slashed_zero]⟩
      · exact ih hl.2 hnames hf
    · exact ih hl.2 hnames hf
  | folder n inside rest ihIn ih =>
    simp only [filesBelow] at hf
    split at hf
    · exact ih hl.2.2 hnames hf
    · obtain ⟨hall, hpath⟩ := hjoin hnames hl.1
      rcases List.mem_append.mp hf with hf | hf
      · exact ihIn hl.2.1 hall (hpath ▸ hf)
      · exact ih hl.2.2 hnames hf

/-- The expansion of a tidy path with at most one separator at its end gives tidy paths. -/
theorem Disk.tidy_of_mem_enumerate {d : Disk} {names : List String} {folder f : Path}
    (extensions : List String) (hd : d.top.AllNames Path.IsSegment)
    (hnames : ∀ n ∈ names, Path.IsSegment n)
    (hfolder : folder = absolute names ∨ names ≠ [] ∧ folder = (absolute names).slashed 1)
    (hf : f ∈ d.enumerate extensions folder) : f.IsTidy := by
  have hjoin : ∀ q, folder.join q = (absolute names).join q := by
    rcases hfolder with rfl | ⟨hne, rfl⟩
    · exact fun _ => rfl
    · have hend : (absolute names).isSlashed = false := by
        rw [Path.isSlashed, beq_eq_false_iff_ne, Path.text_absolute hne]
        exact Path.getLast?_trail_of_ne [] hne fun n hn => (hnames n hn).ne
      exact Path.join_slashed hend (by simp [absolute])
  have habs : folder.isAbsolute = true := by
    rcases hfolder with rfl | ⟨_, rfl⟩
    · exact Path.isAbsolute_absolute names
    · exact Path.isAbsolute_slashed (Path.isAbsolute_absolute names) 1
  unfold enumerate at hf
  split at hf
  · rw [List.mem_singleton.mp hf]
    rcases hfolder with rfl | ⟨_, rfl⟩
    · exact ⟨names, 0, hnames, by rw [Path.slashed_zero]⟩
    · exact ⟨names, 1, hnames, rfl⟩
  · rename_i inside hfind
    rw [find_of_isAbsolute d habs] at hfind
    rw [(List.mergeSort_perm _ _).mem_iff, Listing.filesBelow_congr hjoin] at hf
    exact Listing.tidy_of_mem_filesBelow extensions (hd.at? (at?_of_walk hfind)) hnames hf
  · simp at hf

end SourceGraph
