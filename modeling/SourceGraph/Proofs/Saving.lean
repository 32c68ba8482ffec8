import SourceGraph.Proofs.Listing

/-!
# Saving to a disk

A path ends at a place: the names that are left when `.` and `..` are followed without looking.
Saving a document changes the files at its place and at that of its temporary file, and no others;
afterwards the document is what the path reads.

* `Disk.place`: the place of a path.
* `Disk.Grows`: no folder is gone, and files are as before but for those at some places.
* `Disk.read_eq_ok`: what is read is what stands at the place.
* `Disk.Grows.read_iff`: a path without `..` reads the same while its place is not touched.
* `Disk.grows_save`, `Disk.save_ok`, `Disk.replace_spec`: saving.
-/

set_option autoImplicit false

namespace SourceGraph

/-! ## Where paths lead -/

/-- The names at which segments end, when nothing is looked up. -/
def Path.follow (here : List String) : List String → List String
  | [] => here
  | s :: rest =>
    if s = "" ∨ s = "." then follow here rest
    else if s = ".." then follow here.dropLast rest
    else follow (here ++ [s]) rest

theorem Path.follow_empty {segs : List String} (h : segs.all (· == "") = true)
    (here : List String) : Path.follow here segs = here := by
  induction segs with
  | nil => rfl
  | cons s rest ih =>
    rw [List.all_cons, Bool.and_eq_true, beq_iff_eq] at h
    rw [follow, if_pos (Or.inl h.1), ih h.2]

theorem Path.follow_eq {segs : List String} (hup : ".." ∉ segs) (here : List String) :
    Path.follow here segs = here ++ segs.filter counts := by
  induction segs generalizing here with
  | nil => simp [follow]
  | cons s rest ih =>
    have hs : s ≠ ".." := fun e => hup (e ▸ List.mem_cons_self)
    have hrest : ".." ∉ rest := fun h => hup (List.mem_cons_of_mem _ h)
    by_cases hskip : s = "" ∨ s = "."
    · have hcount : counts s = false := by rcases hskip with rfl | rfl <;> decide
      rw [follow, if_pos hskip, ih hrest, List.filter_cons_of_neg (by simp [hcount])]
    · have hcount : counts s = true := by simpa [counts] using hskip
      rw [follow, if_neg hskip, if_neg hs, ih hrest, List.filter_cons_of_pos hcount,
        List.append_assoc, List.singleton_append]

namespace Spot

/-- The names of what a path leads to. -/
def place : Spot → List String
  | folder names _ | file names _ => names
  | absent names name _ => names ++ [name]

/-- What a path leads to. -/
def kind? : Spot → Option Kind
  | folder _ _ => some .folder
  | file _ content => some (.file content)
  | absent _ _ _ => none

/-- A file is there, or could be. -/
def isPlain : Spot → Bool
  | folder _ _ => false
  | file _ _ => true
  | absent _ _ slashed => !slashed

end Spot

namespace Disk

/-- What is found is what stands at the names that the segments lead to, in a folder. -/
theorem walk_ok {top : Listing} {here segs : List String} {spot : Spot}
    (hhere : top.kindAt? here = some .folder) (h : walk top here segs = .ok spot) :
    spot.place = Path.follow here segs ∧ top.kindAt? spot.place = spot.kind? ∧
      top.kindAt? spot.place.dropLast = some .folder := by
  induction segs generalizing here with
  | nil =>
    rw [walk] at h
    split at h
    · rename_i inside hat
      cases h
      exact ⟨rfl, hhere, Listing.kindAt?_dropLast hhere⟩
    · cases h
  | cons s rest ih =>
    rw [walk] at h
    rw [Path.follow]
    by_cases hskip : s = "" ∨ s = "."
    · rw [if_pos hskip] at h ⊢
      exact ih hhere h
    · rw [if_neg hskip] at h ⊢
      by_cases hup : s = ".."
      · rw [if_pos hup] at h ⊢
        exact ih (Listing.kindAt?_dropLast hhere) h
      · rw [if_neg hup] at h ⊢
        split at h
        · rename_i inside hat
          refine ih ?_ h
          rw [Listing.kindAt?, hat]
          rfl
        · rename_i content hat
          have hkind : top.kindAt? (here ++ [s]) = some (.file content) := by
            rw [Listing.kindAt?, hat]
            rfl
          split at h
          · rename_i hend
            cases h
            subst hend
            exact ⟨rfl, hkind, Listing.kindAt?_dropLast hkind⟩
          · cases h
        · rename_i hat
          split at h
          · rename_i hend
            cases h
            refine ⟨(Path.follow_empty hend _).symm, ?_, ?_⟩
            · rw [Spot.place, Listing.kindAt?, hat]
              rfl
            · rw [Spot.place, List.dropLast_concat]
              exact hhere
          · cases h

/-- Where a file was found, or could be, a file is found when there is one and no folder is gone. -/
theorem walk_file {top top' : Listing} {here segs : List String} {spot : Spot}
    {content : ByteArray} (h : walk top here segs = .ok spot) (hplain : spot.isPlain = true)
    (hfolders : ∀ names, top.kindAt? names = some .folder → top'.kindAt? names = some .folder)
    (hkind : top'.kindAt? (Path.follow here segs) = some (.file content)) :
    walk top' here segs = .ok (.file (Path.follow here segs) content) := by
  have hat' : ∀ names, top'.kindAt? names = some (.file content) →
      top'.at? names = some (.file content) := by
    intro names hnames
    unfold Listing.kindAt? at hnames
    cases hat : top'.at? names with
    | none => rw [hat] at hnames; cases hnames
    | some e =>
      rw [hat] at hnames
      cases e with
      | folder inside => cases hnames
      | file c =>
        cases hnames
        rfl
  induction segs generalizing here with
  | nil =>
    rw [walk] at h
    split at h
    · cases h
      cases hplain
    · cases h
  | cons s rest ih =>
    rw [walk] at h ⊢
    rw [Path.follow] at hkind ⊢
    by_cases hskip : s = "" ∨ s = "."
    · rw [if_pos hskip] at h hkind ⊢
      rw [if_pos hskip]
      exact ih h hkind
    · rw [if_neg hskip] at h hkind ⊢
      rw [if_neg hskip]
      by_cases hup : s = ".."
      · rw [if_pos hup] at h hkind ⊢
        rw [if_pos hup]
        exact ih h hkind
      · rw [if_neg hup] at h hkind ⊢
        rw [if_neg hup]
        -- at the last segment there is the file, before it a folder that stayed
        split at h
        · rename_i inside hat
          have hfolder := hfolders (here ++ [s]) (by rw [Listing.kindAt?, hat]; rfl)
          obtain ⟨inside', hinside⟩ := Listing.exists_folder_of_kindAt? hfolder
          rw [hinside]
          exact ih h hkind
        · split at h
          · rename_i hend
            subst hend
            rw [hat' (here ++ [s]) hkind]
            rfl
          · cases h
        · split at h
          · cases h
            obtain rfl : rest = [] := by simpa [Spot.isPlain] using hplain
            rw [hat' (here ++ [s]) hkind]
            rfl
          · cases h

/-- A path without `..` leads to the file at its place, unless it goes on behind the name. -/
theorem walk_eq_file_iff (top : Listing) (content : ByteArray) (here segs : List String)
    (hup : ".." ∉ segs) :
    (∃ names, walk top here segs = .ok (.file names content)) ↔
      top.kindAt? (here ++ segs.filter Path.counts) = some (.file content) ∧
        segs.getLast?.any Path.counts = true := by
  induction segs generalizing here with
  | nil =>
    simp only [walk, List.getLast?_nil, Option.any_none, Bool.false_eq_true, and_false, iff_false,
      not_exists]
    intro names h
    split at h <;> cases h
  | cons s rest ih =>
    have hs : s ≠ ".." := fun e => hup (e ▸ List.mem_cons_self)
    have hrest : ".." ∉ rest := fun h => hup (List.mem_cons_of_mem _ h)
    have hlast : rest ≠ [] → (s :: rest).getLast? = rest.getLast? := by
      intro hne
      obtain ⟨t, more, rfl⟩ := List.exists_cons_of_ne_nil hne
      rfl
    by_cases hskip : s = "" ∨ s = "."
    · have hcount : Path.counts s = false := by rcases hskip with rfl | rfl <;> decide
      rw [walk, if_pos hskip, ih here hrest, List.filter_cons_of_neg (by simp [hcount])]
      by_cases hnil : rest = []
      · simp [hnil, hcount]
      · rw [hlast hnil]
    · have hcount : Path.counts s = true := by simpa [Path.counts] using hskip
      have hsplit : here ++ s :: rest.filter Path.counts =
          (here ++ [s]) ++ rest.filter Path.counts := by simp
      rw [walk, if_neg hskip, if_neg hs, List.filter_cons_of_pos hcount, hsplit]
      cases hat : top.at? (here ++ [s]) with
      | none =>
        rw [Listing.kindAt?_append, hat]
        dsimp only
        split <;> simp
      | some e =>
        cases e with
        | folder inside =>
          dsimp only
          rw [ih (here ++ [s]) hrest]
          by_cases hnil : rest = []
          · subst hnil
            rw [List.filter_nil, List.append_nil, Listing.kindAt?, hat]
            simp [Entry.kind]
          · rw [hlast hnil]
        | file found =>
          rw [Listing.kindAt?_append, hat]
          dsimp only
          by_cases hnil : rest = []
          · simp [hnil, hcount]
          · rw [if_neg hnil, hlast hnil]
            simp only [reduceCtorEq, exists_false, false_iff, not_and, Bool.not_eq_true]
            intro hfound
            -- nothing is below a file, so nothing that counts is left
            have hnone : rest.filter Path.counts = [] := by
              by_contra hne
              rw [if_neg hne] at hfound
              cases hfound
            rw [List.filter_eq_nil_iff] at hnone
            cases hmore : rest.getLast? with
            | none => rfl
            | some t => simpa using hnone t (List.mem_of_getLast? hmore)

/-! ## Disks by what names lead to -/

/-- Where the walk along a path starts. -/
def base (d : Disk) (p : Path) : List String := if p.isAbsolute then [] else d.current

/-- The names at which a path ends, when nothing is looked up. -/
def place (d : Disk) (p : Path) : List String := Path.follow (d.base p) p.segments

def kindAt? (d : Disk) (names : List String) : Option Kind := d.top.kindAt? names

/-- The bytes of the file at some names. -/
def content? (d : Disk) (names : List String) : Option ByteArray :=
  (d.kindAt? names).bind Kind.content?

/-- The current folder is there. -/
def Stands (d : Disk) : Prop := d.kindAt? d.current = some .folder

/-- There is a file at the end of a path, or a folder in which it could be. -/
def Reaches (d : Disk) (p : Path) : Prop := ∃ spot, d.find p = .ok spot ∧ spot.isPlain = true

/-- The disk where other things stand at some names, and all else is as before. -/
structure Sets (d d' : Disk) (names : List String) (k : Option Kind) : Prop where
  current : d'.current = d.current
  kinds : ∀ other, d'.kindAt? other = if other = names then k else d.kindAt? other

/-- No folder is gone, and files are as before but for those at some names. -/
structure Grows (touched : List (List String)) (d d' : Disk) : Prop where
  current : d'.current = d.current
  folders : ∀ names, d.kindAt? names = some .folder → d'.kindAt? names = some .folder
  contents : ∀ names, names ∉ touched → d'.content? names = d.content? names

variable {d d' d'' : Disk} {p : Path} {touched : List (List String)} {names : List String}
  {content : ByteArray}

theorem Grows.refl (touched : List (List String)) (d : Disk) : d.Grows touched d :=
  ⟨rfl, fun _ h => h, fun _ _ => rfl⟩

theorem Grows.trans (h : Grows touched d d') (h' : Grows touched d' d'') : Grows touched d d'' :=
  ⟨h'.current.trans h.current, fun names hn => h'.folders names (h.folders names hn),
    fun names hn => (h'.contents names hn).trans (h.contents names hn)⟩

theorem Grows.mono {more : List (List String)} (h : Grows touched d d')
    (hsub : ∀ names ∈ touched, names ∈ more) : Grows more d d' :=
  ⟨h.current, h.folders, fun names hn => h.contents names fun hmem => hn (hsub names hmem)⟩

theorem Grows.stands (h : Grows touched d d') (hd : d.Stands) : d'.Stands := by
  rw [Stands, h.current]
  exact h.folders _ hd

theorem Grows.place (h : Grows touched d d') (p : Path) : d'.place p = d.place p := by
  rw [Disk.place, Disk.place, base, base, h.current]

theorem content?_eq_some :
    d.content? names = some content ↔ d.kindAt? names = some (.file content) := by
  rw [content?, Option.bind_eq_some_iff]
  constructor
  · rintro ⟨k, hk, hcontent⟩
    cases k with
    | folder => cases hcontent
    | file c =>
      cases hcontent
      exact hk
  · intro h
    exact ⟨_, h, rfl⟩

theorem Sets.content?_eq (h : Sets d d' names (some (.file content))) :
    d'.content? names = some content := by
  rw [content?_eq_some, h.kinds, if_pos rfl]

/-- A file that takes the place of a file, or of nothing. -/
theorem Sets.grows {k : Option Kind} (h : Sets d d' names k)
    (hfree : d.kindAt? names ≠ some .folder) : Grows [names] d d' where
  current := h.current
  folders other hother := by
    have hne : other ≠ names := by
      rintro rfl
      exact hfree hother
    rw [h.kinds, if_neg hne]
    exact hother
  contents other hother := by
    rw [content?, content?, h.kinds, if_neg fun e => hother (List.mem_singleton.mpr e)]

/-- A folder that takes the place of nothing. -/
theorem Sets.grows_folder (h : Sets d d' names (some .folder)) (hfree : d.kindAt? names = none) :
    Grows [] d d' where
  current := h.current
  folders other hother := by
    rw [h.kinds]
    split_ifs
    · rfl
    · exact hother
  contents other _ := by
    rw [content?, content?, h.kinds]
    split_ifs with hsame
    · rw [hsame, hfree]
      rfl
    · rfl

/-! ## Reading -/

theorem kindAt?_base (hd : d.Stands) (p : Path) : d.top.kindAt? (d.base p) = some .folder := by
  unfold base
  split_ifs
  · rfl
  · exact hd

theorem find_ok {spot : Spot} (hd : d.Stands) (h : d.find p = .ok spot) :
    spot.place = d.place p ∧ d.kindAt? spot.place = spot.kind? ∧
      d.kindAt? spot.place.dropLast = some .folder := by
  unfold find at h
  split at h
  · cases h
  · exact walk_ok (kindAt?_base hd p) h

theorem find_file (h : d.Reaches p) (hgrows : Grows touched d d')
    (hcontent : d'.content? (d.place p) = some content) :
    d'.find p = .ok (.file (d.place p) content) := by
  obtain ⟨spot, hfind, hplain⟩ := h
  have hbase : d'.base p = d.base p := by rw [base, base, hgrows.current]
  have hkind : d'.top.kindAt? (Path.follow (d.base p) p.segments) = some (.file content) :=
    content?_eq_some.mp hcontent
  unfold find at hfind ⊢
  split at hfind
  · cases hfind
  · rename_i htext
    rw [if_neg htext]
    change walk d'.top (d'.base p) p.segments = _
    rw [hbase]
    exact walk_file hfind hplain hgrows.folders hkind

theorem read_of_find {names : List String} (h : d.find p = .ok (.file names content)) :
    d.read p = .ok content := by
  rw [read, h]
  rfl

theorem exists_find_of_read (h : d.read p = .ok content) :
    ∃ names, d.find p = .ok (.file names content) := by
  unfold read at h
  cases hfind : d.find p with
  | error f => rw [hfind] at h; cases h
  | ok spot =>
    rw [hfind] at h
    cases spot with
    | folder names inside => cases h
    | absent names name slashed => cases h
    | file names c =>
      cases h
      exact ⟨names, rfl⟩

/-- A file is read exactly when the path leads to its place and it is there. -/
theorem read_eq_ok (hd : d.Stands) :
    d.read p = .ok content ↔ d.Reaches p ∧ d.content? (d.place p) = some content := by
  constructor
  · intro h
    obtain ⟨names, hfind⟩ := exists_find_of_read h
    obtain ⟨hplace, hkind, _⟩ := find_ok hd hfind
    refine ⟨⟨_, hfind, rfl⟩, ?_⟩
    rw [content?, ← hplace, hkind]
    rfl
  · rintro ⟨hreaches, hcontent⟩
    exact read_of_find (find_file hreaches (.refl [] d) hcontent)

/-- What is not written to is read as before. -/
theorem Grows.read (hd : d.Stands) (h : Grows touched d d') (hp : d.place p ∉ touched)
    (hread : d.read p = .ok content) : d'.read p = .ok content := by
  obtain ⟨hreaches, hcontent⟩ := (read_eq_ok hd).mp hread
  refine read_of_find (find_file hreaches h ?_)
  rw [h.contents _ hp]
  exact hcontent

/-- A path without `..` reads the file at its place, unless it goes on behind the name. -/
theorem read_direct (hup : ".." ∉ p.segments) :
    d.read p = .ok content ↔ p.text ≠ "" ∧ d.content? (d.place p) = some content ∧
      p.segments.getLast?.any Path.counts = true := by
  rw [content?_eq_some, place, Path.follow_eq hup]
  have hwalk := walk_eq_file_iff d.top content (d.base p) p.segments hup
  constructor
  · intro h
    obtain ⟨names, hfind⟩ := exists_find_of_read h
    unfold find at hfind
    split at hfind
    · cases hfind
    · rename_i htext
      exact ⟨htext, hwalk.mp ⟨names, hfind⟩⟩
  · rintro ⟨htext, h⟩
    obtain ⟨names, hfind⟩ := hwalk.mpr h
    have hfound : d.find p = .ok (.file names content) := by
      rw [find, if_neg htext]
      exact hfind
    exact read_of_find hfound

/-- What a path without `..` reads depends on its place only. -/
theorem Grows.read_iff (h : Grows touched d d') (hp : d.place p ∉ touched)
    (hup : ".." ∉ p.segments) : d'.read p = .ok content ↔ d.read p = .ok content := by
  rw [read_direct hup, read_direct hup, h.place, h.contents _ hp]

theorem isFile_eq_false (hd : d.Stands) (h : d.content? (d.place p) = none) :
    d.isFile p = false := by
  unfold isFile
  split
  · rename_i names c hfind
    have hread := (read_eq_ok hd).mp (read_of_find hfind)
    rw [h] at hread
    cases hread.2
  · rfl

/-! ## Changing -/

theorem sets_put_file {name : String} (content : ByteArray)
    (hfolder : d.kindAt? names = some .folder)
    (hfree : d.kindAt? (names ++ [name]) ≠ some .folder) :
    Sets d (d.put names name (.file content)) (names ++ [name]) (some (.file content)) := by
  obtain ⟨inside, hat⟩ := Listing.exists_folder_of_kindAt? hfolder
  refine ⟨rfl, Listing.kindAt?_put_file content hat fun within hget => hfree ?_⟩
  rw [kindAt?, Listing.kindAt?_append, hat]
  dsimp only
  rw [Listing.kindAt?_cons, hget]
  rfl

theorem sets_put_folder {name : String} (hfolder : d.kindAt? names = some .folder)
    (hfree : d.kindAt? (names ++ [name]) = none) :
    Sets d (d.put names name (.folder .nil)) (names ++ [name]) (some .folder) := by
  obtain ⟨inside, hat⟩ := Listing.exists_folder_of_kindAt? hfolder
  refine ⟨rfl, Listing.kindAt?_put_folder hat ?_⟩
  rw [kindAt?, Listing.kindAt?_append, hat] at hfree
  dsimp only at hfree
  rw [Listing.kindAt?_cons] at hfree
  cases hget : inside.get? name with
  | none => rfl
  | some e =>
    rw [hget] at hfree
    cases e with
    | folder within => cases hfree
    | file c => cases hfree

theorem exists_concat_of_kindAt? (h : d.kindAt? names = some (.file content)) :
    ∃ front last, names = front ++ [last] := by
  rcases List.eq_nil_or_concat names with rfl | ⟨front, last, rfl⟩
  · cases h
  · exact ⟨front, last, List.concat_eq_append⟩

theorem sets_erase_file (h : d.kindAt? names = some (.file content)) :
    Sets d (d.erase names) names none := by
  obtain ⟨front, last, rfl⟩ := exists_concat_of_kindAt? h
  have hfolder : d.top.kindAt? front = some .folder := by
    have hparent := Listing.kindAt?_dropLast h
    rwa [List.dropLast_concat] at hparent
  obtain ⟨inside, hat⟩ := Listing.exists_folder_of_kindAt? hfolder
  have hget : inside.get? last = some (.file content) := by
    rw [kindAt?, Listing.kindAt?_append, hat] at h
    dsimp only at h
    rw [Listing.kindAt?_cons] at h
    cases hget : inside.get? last with
    | none => rw [hget] at h; cases h
    | some e =>
      rw [hget] at h
      cases e with
      | folder within => cases h
      | file c =>
        cases h
        rfl
  have herase : d.erase (front ++ [last]) =
      { d with top := d.top.changeAt (·.erase last) front } := by
    rw [erase, List.getLast?_concat, List.dropLast_concat]
  rw [herase]
  exact ⟨rfl, Listing.kindAt?_erase_file hat hget⟩

/-- The disk with a file at what a path leads to. -/
theorem sets_put_last (content : ByteArray) {front : List String} {last : String}
    (hnames : names = front ++ [last]) (hfolder : d.kindAt? names.dropLast = some .folder)
    (hfree : d.kindAt? names ≠ some .folder) :
    Sets d (d.put names.dropLast (names.getLast?.getD "") (.file content)) names
      (some (.file content)) := by
  subst hnames
  rw [List.dropLast_concat] at hfolder ⊢
  rw [List.getLast?_concat, Option.getD_some]
  exact sets_put_file content hfolder hfree

theorem write_ok (hd : d.Stands) (h : d.write p content = .ok d') :
    Sets d d' (d.place p) (some (.file content)) ∧ d.kindAt? (d.place p) ≠ some .folder ∧
      d.Reaches p := by
  unfold write at h
  cases hfind : d.find p with
  | error f => rw [hfind] at h; cases h
  | ok spot =>
    rw [hfind] at h
    obtain ⟨hplace, hkind, hfolder⟩ := find_ok hd hfind
    rw [hplace] at hkind hfolder
    cases spot with
    | folder names inside => cases h
    | file names old =>
      cases h
      have hfree : d.kindAt? (d.place p) ≠ some .folder := by
        rw [hkind]
        exact fun h => by cases h
      obtain ⟨front, last, hnames⟩ := exists_concat_of_kindAt? hkind
      obtain rfl : names = d.place p := hplace
      exact ⟨sets_put_last content hnames hfolder hfree, hfree, _, hfind, rfl⟩
    | absent names name slashed =>
      have hfree : d.kindAt? (d.place p) ≠ some .folder := by
        rw [hkind]
        exact fun h => by cases h
      dsimp only [bind, Except.bind] at h
      split at h
      · cases h
      · rename_i hslash
        cases h
        have hplain : (Spot.absent names name slashed).isPlain = true := by
          simpa [Spot.isPlain] using hslash
        refine ⟨?_, hfree, _, hfind, hplain⟩
        rw [← hplace] at hfolder hfree ⊢
        rw [Spot.place, List.dropLast_concat] at hfolder
        exact sets_put_file content hfolder hfree

theorem makeFolder_ok (hd : d.Stands) (h : d.makeFolder p = .ok d') : Grows [] d d' := by
  unfold makeFolder at h
  cases hfind : d.find ⟨Path.trimSeparators p.text⟩ with
  | error f => rw [hfind] at h; cases h
  | ok spot =>
    rw [hfind] at h
    cases spot with
    | folder names inside => cases h
    | file names old => cases h
    | absent names name slashed =>
      cases h
      obtain ⟨_, hkind, hfolder⟩ := find_ok hd hfind
      rw [Spot.place, List.dropLast_concat] at hfolder
      exact (sets_put_folder hfolder hkind).grows_folder hkind

theorem grows_settle {r : Except Fault Disk} (h : ∀ d', r = .ok d' → Grows touched d d') :
    Grows touched d (d.settle r).1 := by
  cases r with
  | error f => exact .refl touched d
  | ok d' => exact h d' rfl

theorem grows_makeFoldersIn (hd : d.Stands) (n : Nat) (p : Path) :
    Grows [] d (makeFoldersIn n d p).1 := by
  induction n generalizing p with
  | zero => exact .refl [] d
  | succ n ih =>
    rw [makeFoldersIn]
    split
    · exact .refl [] d
    · split
      · rename_i made hmade
        exact makeFolder_ok hd hmade
      · split
        · exact .refl [] d
        · rename_i parent _
          have hparent := ih parent
          split
          · rename_i above f habove
            rw [habove] at hparent
            exact hparent
          · rename_i above _ habove
            rw [habove] at hparent
            refine hparent.trans (grows_settle fun made hmade => ?_)
            unfold makeOrFind at hmade
            split at hmade
            · rename_i made' hmade'
              cases hmade
              exact makeFolder_ok (hparent.stands hd) hmade'
            · split at hmade
              · cases hmade
                exact .refl [] _
              · cases hmade
      · split
        · exact .refl [] d
        · exact .refl [] d

theorem grows_makeParent (hd : d.Stands) (p : Path) : Grows [] d (d.makeParent p).1 := by
  unfold makeParent
  split
  · exact grows_makeFoldersIn hd _ _
  · exact .refl [] d

theorem rename_ok {old new : Path} (hd : d.Stands) (hold : d.read old = .ok content)
    (h : d.rename old new = .ok d') :
    Grows [d.place old, d.place new] d d' ∧ d'.content? (d.place new) = some content ∧
      d.Reaches new := by
  obtain ⟨hreaches, hcontent⟩ := (read_eq_ok hd).mp hold
  have hfindOld := find_file hreaches (.refl [] d) hcontent
  have hkindOld : d.kindAt? (d.place old) = some (.file content) := (find_ok hd hfindOld).2.1
  -- the old file is taken out first, which leaves folders and the new place as they are
  have herased := sets_erase_file hkindOld
  have hgrows : Grows [d.place old, d.place new] d (d.erase (d.place old)) := by
    refine (herased.grows fun hfolder => ?_).mono (by simp)
    rw [hkindOld] at hfolder
    cases hfolder
  have hput : ∀ d₁, d.place new ≠ d.place old → d.kindAt? (d.place new) ≠ some .folder →
      Sets (d.erase (d.place old)) d₁ (d.place new) (some (.file content)) →
      Grows [d.place old, d.place new] d d₁ ∧ d₁.content? (d.place new) = some content := by
    intro d₁ hne hfree hsets
    have hfree' : (d.erase (d.place old)).kindAt? (d.place new) ≠ some .folder := by
      rw [herased.kinds, if_neg hne]
      exact hfree
    exact ⟨hgrows.trans ((hsets.grows hfree').mono (by simp)), hsets.content?_eq⟩
  unfold rename at h
  rw [hfindOld] at h
  dsimp only [bind, Except.bind] at h
  cases hfind : d.find new with
  | error f => rw [hfind] at h; cases h
  | ok spot =>
    rw [hfind] at h
    obtain ⟨hplace, hkind, hfolder⟩ := find_ok hd hfind
    have hparent := hgrows.folders _ hfolder
    cases spot with
    | folder names inside => cases h
    | file names c =>
      obtain rfl : names = d.place new := hplace
      dsimp only at h
      split at h
      · rename_i hsame
        cases h
        refine ⟨.refl _ d, ?_, _, hfind, rfl⟩
        rw [← hsame]
        exact hcontent
      · rename_i hne
        cases h
        have hfile : d.kindAt? (d.place new) = some (.file c) := hkind
        obtain ⟨front, last, hnames⟩ := exists_concat_of_kindAt? hfile
        have hfree : d.kindAt? (d.place new) ≠ some .folder := by
          rw [hfile]
          exact fun h => by cases h
        have hfree' : (d.erase (d.place old)).kindAt? (d.place new) ≠ some .folder := by
          rw [herased.kinds, if_neg (Ne.symm hne)]
          exact hfree
        obtain ⟨hall, hnew⟩ := hput _ (Ne.symm hne) hfree
          (sets_put_last content hnames hparent hfree')
        exact ⟨hall, hnew, _, hfind, rfl⟩
    | absent names name slashed =>
      dsimp only at h
      split at h
      · cases h
      · rename_i hslash
        cases h
        have hplain : (Spot.absent names name slashed).isPlain = true := by
          simpa [Spot.isPlain] using hslash
        have hnone : d.kindAt? (d.place new) = none := hplace ▸ hkind
        have hne : d.place new ≠ d.place old := by
          intro e
          rw [e, hkindOld] at hnone
          cases hnone
        have hfree : d.kindAt? (d.place new) ≠ some .folder := by
          rw [hnone]
          exact fun h => by cases h
        have hnames : names ++ [name] = d.place new := hplace
        have hfree' : (d.erase (d.place old)).kindAt? (names ++ [name]) ≠ some .folder := by
          rw [hnames, herased.kinds, if_neg hne]
          exact hfree
        rw [Spot.place, List.dropLast_concat] at hparent
        have hsets := sets_put_file content hparent hfree'
        rw [hnames] at hsets
        obtain ⟨hall, hnew⟩ := hput _ hne hfree hsets
        exact ⟨hall, hnew, _, hfind, hplain⟩

/-! ## Saving -/

/-- Whatever becomes of it, saving changes no other file. -/
theorem grows_save (hd : d.Stands) (p : Path) (content : ByteArray) :
    Grows [d.place p] d (d.save p content).1 := by
  have hparent := grows_makeParent hd p
  unfold save
  split
  · rename_i above f habove
    rw [habove] at hparent
    exact hparent.mono (by simp)
  · rename_i above _ habove
    rw [habove] at hparent
    refine (hparent.mono (by simp)).trans (grows_settle fun d' hwrite => ?_)
    obtain ⟨hsets, hfree, _⟩ := write_ok (hparent.stands hd) hwrite
    rw [hparent.place] at hsets hfree
    exact hsets.grows hfree

theorem save_ok (hd : d.Stands) (h : d.save p content = (d', .ok ())) :
    d'.read p = .ok content := by
  have hparent := grows_makeParent hd p
  unfold save at h
  split at h
  · cases h
  · rename_i above _ habove
    rw [habove] at hparent
    cases hwrite : above.write p content with
    | error f => rw [hwrite] at h; cases h
    | ok written =>
      rw [hwrite] at h
      cases h
      obtain ⟨hsets, hfree, hreaches⟩ := write_ok (hparent.stands hd) hwrite
      exact read_of_find (find_file hreaches (hsets.grows hfree) hsets.content?_eq)

/-- Whatever becomes of it, replacing changes no other file. -/
theorem replace_spec (hd : d.Stands) (p : Path) (content : ByteArray) :
    Grows [d.place (temporary p), d.place p] d (d.replace p content).1 ∧
      ∀ d', d.replace p content = (d', .ok ()) → d'.read p = .ok content := by
  have hparent := grows_makeParent hd p
  unfold replace
  split
  · rename_i above f habove
    rw [habove] at hparent
    exact ⟨hparent.mono (by simp), fun d' h => by cases h⟩
  · rename_i above _ habove
    rw [habove] at hparent
    have habove := hparent.stands hd
    have hstart : Grows [d.place (temporary p), d.place p] d above := hparent.mono (by simp)
    cases hwrite : above.write (temporary p) content with
    | error f => exact ⟨hstart, fun d' h => by cases h⟩
    | ok written =>
      obtain ⟨hsets, hfree, hreaches⟩ := write_ok habove hwrite
      have hwritten := hsets.grows hfree
      have hread : written.read (temporary p) = .ok content :=
        read_of_find (find_file hreaches hwritten hsets.content?_eq)
      have hmiddle : Grows [d.place (temporary p), d.place p] d written := by
        refine hstart.trans (hwritten.mono ?_)
        simp [hparent.place]
      have hstands := hmiddle.stands hd
      have hrename : ∀ d', written.rename (temporary p) p = .ok d' →
          Grows [d.place (temporary p), d.place p] written d' ∧ d'.read p = .ok content := by
        intro d' hrename
        obtain ⟨hgrows, hcontent, hreaches⟩ := rename_ok hstands hread hrename
        refine ⟨hgrows.mono ?_, read_of_find (find_file hreaches hgrows hcontent)⟩
        simp [hmiddle.place]
      dsimp only
      refine ⟨hmiddle.trans (grows_settle fun d' h => (hrename d' h).1), fun d' h => ?_⟩
      cases hresult : written.rename (temporary p) p with
      | error f => rw [hresult] at h; cases h
      | ok renamed =>
        rw [hresult] at h
        cases h
        exact (hrename d' hresult).2

end Disk

end SourceGraph
