import SourceGraph.Disk.Enumerate
import SourceGraph.Proofs.Path

/-!
# Folders below a root

What the expansion of a folder yields, when all names below the root of a workspace are plain.

* `Listing.AllNames`: all names in a folder, and in the folders of it, have a property.
* `Disk.walk_eq_folder_iff`: a path without `..` leads to the folder that its names lead to.
* `Disk.PlainBelow`: the condition on the names below a root.
* `Disk.leadsFrom_of_mem_enumerate`: every file that an expansion yields lies below the root.
-/

set_option autoImplicit false

namespace SourceGraph

namespace Listing

/-- All names in a folder, and in the folders of it, have a property. -/
def AllNames (P : String → Prop) : Listing → Prop
  | nil => True
  | file name _ rest => P name ∧ rest.AllNames P
  | folder name inside rest => P name ∧ inside.AllNames P ∧ rest.AllNames P

theorem AllNames.get? {P : String → Prop} {name : String} {l inside : Listing}
    (h : l.AllNames P) (hget : l.get? name = some (.folder inside)) : inside.AllNames P := by
  induction l with
  | nil => simp [Listing.get?] at hget
  | file n content rest ih =>
    simp only [Listing.get?] at hget
    split at hget
    · simp at hget
    · exact ih h.2 hget
  | folder n within rest _ ih =>
    simp only [Listing.get?] at hget
    split at hget
    · simp only [Option.some.injEq, Entry.folder.injEq] at hget
      exact hget ▸ h.2.1
    · exact ih h.2.2 hget

theorem AllNames.at? {P : String → Prop} {names : List String} {l inside : Listing}
    (h : l.AllNames P) (hat : l.at? names = some (.folder inside)) : inside.AllNames P := by
  induction names generalizing l with
  | nil =>
    simp only [Listing.at?, Option.some.injEq, Entry.folder.injEq] at hat
    exact hat ▸ h
  | cons name names ih =>
    simp only [Listing.at?] at hat
    split at hat
    · exact ih (h.get? ‹_›) hat
    · split at hat <;> simp at hat
    · simp at hat

/-- Names lead on from where the first of them led. -/
theorem at?_append (l : Listing) (xs ys : List String) :
    l.at? (xs ++ ys) =
      match l.at? xs with
      | some (.folder inside) => inside.at? ys
      | some (.file content) => if ys = [] then some (.file content) else none
      | none => none := by
  induction xs generalizing l with
  | nil => simp [Listing.at?]
  | cons x xs ih =>
    simp only [List.cons_append, Listing.at?]
    cases hget : l.get? x with
    | none => rfl
    | some e =>
      cases e with
      | folder inside => exact ih inside
      | file content => cases xs <;> simp

end Listing

namespace Disk

/-- A path without `..` leads to the folder to which its names lead. -/
theorem walk_eq_folder_iff (top inside : Listing) (here segs : List String)
    (hup : ".." ∉ segs) :
    (∃ names, walk top here segs = .ok (.folder names inside)) ↔
      top.at? (here ++ segs.filter Path.counts) = some (.folder inside) := by
  induction segs generalizing here with
  | nil =>
    simp only [walk, List.filter_nil, List.append_nil]
    split
    · simp_all
    · rename_i hnot
      simp only [reduceCtorEq, exists_false, false_iff]
      exact hnot inside
  | cons s segs ih =>
    have hs : s ≠ ".." := fun e => hup (e ▸ List.mem_cons_self)
    have hrest : ".." ∉ segs := fun h => hup (List.mem_cons_of_mem _ h)
    by_cases hskip : s = "" ∨ s = "."
    · have hcount : Path.counts s = false := by rcases hskip with rfl | rfl <;> decide
      rw [walk, if_pos hskip, ih here hrest, List.filter_cons_of_neg (by simp [hcount])]
    · have hcount : Path.counts s = true := by simpa [Path.counts] using hskip
      have hsplit : here ++ s :: segs.filter Path.counts =
          (here ++ [s]) ++ segs.filter Path.counts := by simp
      rw [walk, if_neg hskip, if_neg hs, List.filter_cons_of_pos hcount, hsplit]
      cases hat : top.at? (here ++ [s]) with
      | none =>
        rw [Listing.at?_append, hat]
        dsimp only
        split <;> simp
      | some e =>
        cases e with
        | folder inside' => exact ih (here ++ [s]) hrest
        | file content =>
          rw [Listing.at?_append, hat]
          dsimp only
          split <;> split <;> simp

theorem at?_of_walk {top inside : Listing} {here segs names : List String}
    (h : walk top here segs = .ok (.folder names inside)) :
    top.at? names = some (.folder inside) := by
  induction segs generalizing here with
  | nil =>
    rw [walk] at h
    split at h
    · rename_i hat
      cases h
      exact hat
    · cases h
  | cons s rest ih =>
    rw [walk] at h
    split at h
    · exact ih h
    · split at h
      · exact ih h
      · split at h
        · exact ih h
        · split at h <;> cases h
        · split at h <;> cases h

theorem find_of_isAbsolute (d : Disk) {p : Path} (h : p.isAbsolute = true) :
    d.find p = walk d.top [] p.segments := by
  have hne : p.text ≠ "" := by
    intro e
    simp [Path.isAbsolute, e] at h
  simp [find, hne, h]

/-- The names in the folder at a root, and below it, are plain. -/
def PlainBelow (d : Disk) (root : Path) : Prop :=
  ∀ names inside, d.find root = .ok (.folder names inside) → inside.AllNames FileId.IsPlain

/-- The names in a folder below the root are plain, too. -/
theorem PlainBelow.inside {d : Disk} {root p : Path} {names at' : List String} {inside : Listing}
    (h : d.PlainBelow root) (hp : Path.LeadsFrom root p names)
    (hfind : d.find p = .ok (.folder at' inside)) : inside.AllNames FileId.IsPlain := by
  obtain ⟨base, hbase, _⟩ := hp.2
  have hroot := Path.isAbsolute_of_root_mem (hbase.components ▸ List.mem_cons_self)
  obtain ⟨hsegs, hup⟩ := hbase.segments
  obtain ⟨hsegs', hup'⟩ := (hp.follows hbase).segments
  rw [find_of_isAbsolute d hp.isAbsolute] at hfind
  have hat := (walk_eq_folder_iff d.top inside [] _ hup').mp ⟨_, hfind⟩
  rw [hsegs', List.nil_append, Listing.at?_append] at hat
  split at hat
  · rename_i within hbaseAt
    -- the root is the folder on the way to `p`
    have hwalk := (walk_eq_folder_iff d.top within [] _ hup).mpr (by rwa [hsegs, List.nil_append])
    obtain ⟨names', hwalk⟩ := hwalk
    exact (h names' within (by rwa [find_of_isAbsolute d hroot])).at? hat
  · split at hat <;> simp at hat
  · simp at hat

end Disk

/-- The walk through a folder below the root yields paths below the root. -/
theorem Listing.leadsFrom_of_mem_filesBelow {root base p : Path} {names : List String}
    {l : Listing} (extensions : List String) (hl : l.AllNames FileId.IsPlain)
    (hbase : Path.LeadsFrom root base names) (hp : p ∈ l.filesBelow extensions base) :
    ∃ more, Path.LeadsFrom root p more := by
  induction l generalizing base names with
  | nil => simp [filesBelow] at hp
  | file n content rest ih =>
    simp only [filesBelow] at hp
    split at hp
    · rcases List.mem_cons.mp hp with rfl | hp
      · exact ⟨_, hbase.join hl.1⟩
      · exact ih hl.2 hbase hp
    · exact ih hl.2 hbase hp
  | folder n inside rest ihIn ih =>
    simp only [filesBelow] at hp
    split at hp
    · exact ih hl.2.2 hbase hp
    · rcases List.mem_append.mp hp with hp | hp
      · exact ihIn hl.2.1 (hbase.join hl.1) hp
      · exact ih hl.2.2 hbase hp

/-- The files that the expansion of a path below the root yields lie below the root. -/
theorem Disk.leadsFrom_of_mem_enumerate {d : Disk} {root folder p : Path} {names : List String}
    (extensions : List String) (hd : d.PlainBelow root)
    (hfolder : Path.LeadsFrom root folder names) (hp : p ∈ d.enumerate extensions folder) :
    ∃ more, Path.LeadsFrom root p more := by
  unfold Disk.enumerate at hp
  split at hp
  · exact ⟨names, List.mem_singleton.mp hp ▸ hfolder⟩
  · rename_i inside hfind
    have hmem : p ∈ inside.filesBelow extensions folder := (List.mergeSort_perm _ _).mem_iff.mp hp
    exact Listing.leadsFrom_of_mem_filesBelow extensions (hd.inside hfolder hfind) hfolder hmem
  · simp at hp

end SourceGraph
