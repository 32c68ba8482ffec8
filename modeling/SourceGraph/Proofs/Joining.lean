import SourceGraph.Proofs.Path

/-!
# Specifiers taken from a folder

A specifier leads from a folder along its segments: an empty one and `.` stay where they are, `..`
leads one folder up, everything else one folder down. The way ends in the workspace or leads out of
it, and what it ends at is made of names if the folder is.

* `FileId.reach?`: where a specifier leads to.
* `FileId.IsProper`: the ids that are made of names.
* `FileId.isProper_of_join?`: a specifier that is taken from a proper folder gives a proper id.
* `FileId.IsProper.ofPath?`: a proper id is the id of the file that it leads to from a root.
* `FileId.enter_cases`, `FileId.foldlM_keeps`: what one segment does, and what a way keeps.
* `FileId.foldlM_eq_none_iff`: the ways that lead above the root.
* `FileId.join?_composes_and_stays`: specifiers one after the other, and those that lead nowhere.
-/

set_option autoImplicit false

namespace SourceGraph

namespace FileId

variable {dir specifier id : String}

/-! ## One segment -/

theorem enter_empty (folder : List String) : enter folder "" = some folder := by simp [enter]

theorem enter_name (folder : List String) {n : String} (hn : Path.IsName n) :
    enter folder n = some (folder ++ [n]) := by
  simp [enter, hn.ne_empty, hn.ne_here, hn.ne_up]

/-- A segment leads from names to names. -/
theorem isName_of_enter {folder folder' : List String} {segment : String}
    (hsegment : '/' ∉ segment.toList) (hfolder : ∀ n ∈ folder, Path.IsName n)
    (h : enter folder segment = some folder') : ∀ n ∈ folder', Path.IsName n := by
  unfold enter at h
  split at h
  · cases h
    exact hfolder
  · rename_i hcounts
    split at h
    · split at h
      · cases h
      · cases h
        exact fun n hn => hfolder n (List.mem_of_mem_dropLast hn)
    · rename_i hup
      cases h
      intro n hn
      rcases List.mem_append.mp hn with hn | hn
      · exact hfolder n hn
      · obtain rfl := List.mem_singleton.mp hn
        exact ⟨fun he => hcounts (Or.inl he), fun he => hcounts (Or.inr he), hup, hsegment⟩

theorem isName_of_foldlM {folder folder' segs : List String}
    (hsegs : ∀ s ∈ segs, '/' ∉ s.toList) (hfolder : ∀ n ∈ folder, Path.IsName n)
    (h : segs.foldlM enter folder = some folder') : ∀ n ∈ folder', Path.IsName n := by
  induction segs generalizing folder with
  | nil =>
    cases h
    exact hfolder
  | cons s segs ih =>
    rw [List.foldlM_cons] at h
    obtain ⟨next, hnext, hrest⟩ := Option.bind_eq_some_iff.mp h
    obtain ⟨hs, hsegs⟩ := List.forall_mem_cons.mp hsegs
    exact ih hsegs (isName_of_enter hs hfolder hnext) hrest

/-! ## The whole way -/

/-- Where a specifier leads to from a folder, segment by segment; none if that is above the root. -/
def reach? (dir specifier : String) : Option (List String) :=
  (Text.segments '/' specifier).foldlM enter (folderSegments dir)

theorem reach?_append (dir s t : String) :
    reach? dir (s ++ "/" ++ t) =
      (reach? dir s).bind ((Text.segments '/' t).foldlM enter) := by
  rw [reach?, Text.segments_append, List.foldlM_append]
  rfl

/-- A separator at the end changes nothing. -/
theorem reach?_slash (dir s : String) : reach? dir (s ++ "/") = reach? dir s := by
  have hstay : ([""].foldlM enter : List String → _) = some := by
    funext folder
    rw [List.foldlM_cons, enter_empty]
    rfl
  rw [reach?, Text.segments_slash, List.foldlM_append]
  change (reach? dir s).bind ([""].foldlM enter) = reach? dir s
  rw [hstay, Option.bind_fun_some]

theorem reach?_dropTrailing (dir : String) (cs : List Char) :
    reach? dir (String.ofList (Text.dropTrailing '/' cs)) = reach? dir (String.ofList cs) := by
  obtain ⟨n, hn⟩ := Text.dropTrailing_append '/' cs
  have hslashes : ∀ m,
      reach? dir (String.ofList (Text.dropTrailing '/' cs ++ List.replicate m '/')) =
        reach? dir (String.ofList (Text.dropTrailing '/' cs)) := by
    intro m
    induction m with
    | zero => simp
    | succ m ih =>
      rw [List.replicate_succ', ← List.append_assoc, String.ofList_append, ← ih]
      exact reach?_slash dir _
  conv_rhs => rw [hn]
  exact (hslashes n).symm

/-- A name at the end leads one folder down. -/
theorem reach?_name (dir s : String) {n : String} (hn : Path.IsName n) :
    reach? dir (s ++ "/" ++ n) = (reach? dir s).map (· ++ [n]) := by
  rw [reach?_append, Text.segments_of_not_mem hn.no_separator, Option.map_eq_bind]
  congr 1
  funext folder
  rw [List.foldlM_cons, enter_name folder hn]
  rfl

theorem isName_of_reach? {names : List String} (hdir : ∀ n ∈ folderSegments dir, Path.IsName n)
    (h : reach? dir specifier = some names) : ∀ n ∈ names, Path.IsName n :=
  isName_of_foldlM (fun _ hs => Text.not_mem_of_mem_segments hs) hdir h

/-- The id at the end of the way, unless that is the root itself. -/
theorem join?_eq (dir specifier : String) :
    join? dir specifier = (reach? dir specifier).bind fun names =>
      if names = [] then none else some ("/".intercalate names) := by
  unfold join? reach?
  cases (Text.segments '/' specifier).foldlM enter (folderSegments dir) with
  | none => rfl
  | some names => cases names <;> rfl

theorem join?_eq_some_iff : join? dir specifier = some id ↔
    ∃ names, reach? dir specifier = some names ∧ names ≠ [] ∧ id = "/".intercalate names := by
  rw [join?_eq, Option.bind_eq_some_iff]
  refine exists_congr fun names => and_congr_right fun _ => ?_
  by_cases hnames : names = []
  · simp [hnames]
  · simp [hnames, eq_comm]

/-! ## Proper ids -/

/-- The segments of the id are names: none of them is empty, `.` or `..`. -/
def IsProper (id : String) : Prop :=
  ∀ segment ∈ Text.segments '/' id, segment ≠ "" ∧ segment ≠ "." ∧ segment ≠ ".."

instance (id : String) : Decidable (IsProper id) :=
  inferInstanceAs (Decidable (∀ segment ∈ Text.segments '/' id, _))

theorem IsProper.isName (h : IsProper id) : ∀ n ∈ Text.segments '/' id, Path.IsName n := fun n hn =>
  ⟨(h n hn).1, (h n hn).2.1, (h n hn).2.2, Text.not_mem_of_mem_segments hn⟩

theorem isProper_intercalate {names : List String} (hne : names ≠ [])
    (hn : ∀ n ∈ names, Path.IsName n) : IsProper ("/".intercalate names) := by
  intro n hmem
  rw [Text.segments_intercalate hne fun n hn' => (hn n hn').no_separator] at hmem
  exact ⟨(hn n hmem).ne_empty, (hn n hmem).ne_here, (hn n hmem).ne_up⟩

theorem isProper_of_join? (hdir : ∀ n ∈ folderSegments dir, Path.IsName n)
    (h : join? dir specifier = some id) : IsProper id := by
  obtain ⟨names, hreach, hne, rfl⟩ := join?_eq_some_iff.mp h
  exact isProper_intercalate hne (isName_of_reach? hdir hreach)

/--
The last segment of an id is its base name, with what is written behind the id. The others are those
of its folder.
-/
theorem segments_append_eq (id : String) :
    ∃ front, folderSegments (parent id) = front.filter (· ≠ "") ∧
      ∀ t : String, '/' ∉ t.toList → Text.segments '/' (id ++ t) = front ++ [baseName id ++ t] := by
  unfold baseName parent
  cases hcut : Text.cutLast '/' id.toList with
  | none =>
    refine ⟨[], by decide, fun t ht => Text.segments_of_not_mem ?_⟩
    simp [Text.not_mem_of_cutLast_eq_none hcut, ht]
  | some cut =>
    obtain ⟨htext, hbase⟩ := Text.cutLast_eq_some hcut
    refine ⟨Text.segments '/' (String.ofList cut.1), rfl, fun t ht => ?_⟩
    have hid : id ++ t = String.ofList cut.1 ++ "/" ++ (String.ofList cut.2 ++ t) := by
      apply String.toList_injective
      simp [htext]
    have hlast : '/' ∉ (String.ofList cut.2 ++ t).toList := by simp [hbase, ht]
    rw [hid, Text.segments_append, Text.segments_of_not_mem hlast]
    rfl

theorem segments_eq (id : String) : ∃ front, folderSegments (parent id) = front.filter (· ≠ "") ∧
    Text.segments '/' id = front ++ [baseName id] := by
  obtain ⟨front, hfolder, happend⟩ := segments_append_eq id
  exact ⟨front, hfolder, by simpa using happend "" (by simp)⟩

theorem IsProper.isName_parent (h : IsProper id) :
    ∀ n ∈ folderSegments (parent id), Path.IsName n := by
  obtain ⟨front, hfolder, hsegments⟩ := segments_eq id
  intro n hn
  rw [hfolder] at hn
  refine h.isName n ?_
  rw [hsegments]
  exact List.mem_append_left _ (List.mem_filter.mp hn).1

theorem IsProper.isName_baseName (h : IsProper id) : Path.IsName (baseName id) := by
  obtain ⟨front, _, hsegments⟩ := segments_eq id
  exact h.isName _ (by simp [hsegments])

theorem isName_append {n t : String} (hn : Path.IsName n) (ht : '/' ∉ t.toList)
    (hlong : 2 ≤ t.toList.length) : Path.IsName (n ++ t) := by
  have hpos : 0 < n.toList.length := List.length_pos_iff.mpr hn.toList_ne_nil
  have hlength : ∀ s : String, n ++ t = s → 3 ≤ s.toList.length := by
    rintro _ rfl
    rw [String.toList_append, List.length_append]
    omega
  refine ⟨fun h => ?_, fun h => ?_, fun h => ?_, by simp [hn.no_separator, ht]⟩
  · exact absurd (hlength _ h) (by decide)
  · exact absurd (hlength _ h) (by decide)
  · exact absurd (hlength _ h) (by decide)

theorem IsProper.append (h : IsProper id) {t : String} (ht : '/' ∉ t.toList)
    (hlong : 2 ≤ t.toList.length) : IsProper (id ++ t) := by
  obtain ⟨front, _, happend⟩ := segments_append_eq id
  have hid : Text.segments '/' id = front ++ [baseName id] := by simpa using happend "" (by simp)
  have hnames := h.isName
  rw [hid] at hnames
  intro n hn
  rw [happend t ht] at hn
  have hname : Path.IsName n := by
    rcases List.mem_append.mp hn with hn | hn
    · exact hnames n (List.mem_append_left _ hn)
    · rw [List.mem_singleton.mp hn]
      exact isName_append (hnames _ (by simp)) ht hlong
  exact ⟨hname.ne_empty, hname.ne_here, hname.ne_up⟩

/-- From every root a proper id leads to the file that it is the id of. -/
theorem IsProper.ofPath? (h : IsProper id) {root : Path} (hroot : root.isAbsolute = true) :
    ofPath? root (root.join ⟨id⟩) = some id := by
  have hne := Text.segments_ne_nil '/' id
  have hrelative : (Path.mk id).isAbsolute = false := by
    have hjoined := Path.isAbsolute_intercalate hne h.isName
    rwa [Text.intercalate_segments] at hjoined
  have hcomponents : (root.join ⟨id⟩).components =
      root.components ++ (Text.segments '/' id).map .name := by
    rw [Path.components_join hroot hrelative]
    exact congrArg _ (Path.components_of_names h.isName)
  rw [ofPath?_of_components hcomponents, if_neg hne, Text.intercalate_segments]

/-! ## How far the way leads -/

/-- The segments that lead one folder down. -/
def ordinary (segs : List String) : List String :=
  segs.filter fun s => s ≠ "" && s ≠ "." && s ≠ ".."

/-- How many segments lead one folder up. -/
def ups (segs : List String) : Nat := segs.count ".."

/-- Some first segments lead further up than the depth that they start at. -/
def Escapes (depth : Nat) (segs : List String) : Prop :=
  ∃ front, front <+: segs ∧ depth + (ordinary front).length < ups front

/-- What one segment does: it stays, leads up, leads out, or leads down. -/
theorem enter_cases (folder : List String) (segment : String) :
    (enter folder segment = some folder ∧ ordinary [segment] = [] ∧ ups [segment] = 0) ∨
    (segment = ".." ∧ folder ≠ [] ∧ enter folder segment = some folder.dropLast) ∨
    (segment = ".." ∧ folder = [] ∧ enter folder segment = none) ∨
    (enter folder segment = some (folder ++ [segment]) ∧ ordinary [segment] = [segment] ∧
      ups [segment] = 0) := by
  by_cases hup : segment = ".."
  · subst hup
    by_cases hnil : folder = []
    · exact .inr (.inr (.inl ⟨rfl, hnil, by simp [enter, hnil]⟩))
    · exact .inr (.inl ⟨rfl, hnil, by simp [enter, hnil]⟩)
  have hups : ups [segment] = 0 := List.count_eq_zero.mpr (by simpa using Ne.symm hup)
  by_cases hstay : segment = "" ∨ segment = "."
  · refine .inl ⟨by rw [enter, if_pos hstay], ?_, hups⟩
    rcases hstay with rfl | rfl <;> decide
  · obtain ⟨hne, hhere⟩ := not_or.mp hstay
    exact .inr (.inr (.inr ⟨by rw [enter, if_neg hstay, if_neg hup],
      by simp [ordinary, hne, hhere, hup], hups⟩))

theorem ordinary_cons (segment : String) (segs : List String) :
    ordinary (segment :: segs) = ordinary [segment] ++ ordinary segs := by
  rw [ordinary, ordinary, ordinary, ← List.filter_append, List.singleton_append]

theorem ups_cons (segment : String) (segs : List String) :
    ups (segment :: segs) = ups [segment] + ups segs := by
  rw [ups, ups, ups, ← List.count_append, List.singleton_append]

/-- What is reached was written in the folder or the specifier, one folder down for each name. -/
theorem enter_keeps {folder folder' : List String} {segment : String}
    (h : enter folder segment = some folder') :
    folder'.Sublist (folder ++ ordinary [segment]) ∧
      folder'.length + ups [segment] = folder.length + (ordinary [segment]).length := by
  rcases enter_cases folder segment with ⟨he, hord, hups⟩ | ⟨rfl, hne, he⟩ | ⟨_, _, he⟩ |
    ⟨he, hord, hups⟩
  · obtain rfl := Option.some.inj (he.symm.trans h)
    rw [hord, hups, List.append_nil]
    exact ⟨.refl _, rfl⟩
  · obtain rfl := Option.some.inj (he.symm.trans h)
    have hpos := List.length_pos_iff.mpr hne
    have hord : ordinary [".."] = [] := by decide
    have hups : ups [".."] = 1 := by decide
    rw [hord, hups, List.append_nil, List.length_dropLast, List.length_nil]
    exact ⟨List.dropLast_sublist folder, by omega⟩
  · cases he.symm.trans h
  · obtain rfl := Option.some.inj (he.symm.trans h)
    rw [hord, hups, List.length_append]
    exact ⟨.refl _, rfl⟩

theorem foldlM_keeps {folder folder' segs : List String}
    (h : segs.foldlM enter folder = some folder') :
    folder'.Sublist (folder ++ ordinary segs) ∧
      folder'.length + ups segs = folder.length + (ordinary segs).length := by
  induction segs generalizing folder with
  | nil =>
    cases h
    exact ⟨List.sublist_append_left _ _, rfl⟩
  | cons s segs ih =>
    rw [List.foldlM_cons] at h
    obtain ⟨next, hnext, hrest⟩ := Option.bind_eq_some_iff.mp h
    obtain ⟨hsub, hlength⟩ := enter_keeps hnext
    obtain ⟨hsub', hlength'⟩ := ih hrest
    rw [ordinary_cons, ups_cons, List.length_append, ← List.append_assoc]
    exact ⟨hsub'.trans (hsub.append_right _), by omega⟩

/-- A way that starts with a segment leads out at once, or from where the segment leads to. -/
theorem escapes_cons {folder next : List String} {s : String} {segs : List String}
    (hnext : enter folder s = some next) :
    Escapes folder.length (s :: segs) ↔ Escapes next.length segs := by
  obtain ⟨_, hlength⟩ := enter_keeps hnext
  constructor
  · rintro ⟨front, hfront, hlt⟩
    cases front with
    | nil => exact absurd hlt (by simp [ups])
    | cons s' front =>
      obtain ⟨rfl, hrest⟩ := List.cons_prefix_cons.mp hfront
      rw [ordinary_cons, ups_cons, List.length_append] at hlt
      exact ⟨front, hrest, by omega⟩
  · rintro ⟨front, hfront, hlt⟩
    refine ⟨s :: front, List.cons_prefix_cons.mpr ⟨rfl, hfront⟩, ?_⟩
    rw [ordinary_cons, ups_cons, List.length_append]
    omega

theorem foldlM_eq_none_iff (folder segs : List String) :
    segs.foldlM enter folder = none ↔ Escapes folder.length segs := by
  induction segs generalizing folder with
  | nil => exact iff_of_false (by simp) (by rintro ⟨front, hfront, hlt⟩; simp_all [ups])
  | cons s segs ih =>
    rw [List.foldlM_cons]
    cases hnext : enter folder s with
    | some next => exact (ih next).trans (escapes_cons hnext).symm
    | none =>
      rcases enter_cases folder s with ⟨he, _⟩ | ⟨_, _, he⟩ | ⟨rfl, rfl, _⟩ | ⟨he, _⟩
      · cases he.symm.trans hnext
      · cases he.symm.trans hnext
      · exact iff_of_true rfl ⟨[".."], by simp, by decide⟩
      · cases he.symm.trans hnext

theorem isName_of_mem_ordinary {n : String} (h : n ∈ ordinary (Text.segments '/' specifier)) :
    Path.IsName n := by
  obtain ⟨hmem, hname⟩ := List.mem_filter.mp h
  have hname : (n ≠ "" ∧ n ≠ ".") ∧ n ≠ ".." := by simpa using hname
  exact ⟨hname.1.1, hname.1.2, hname.2, Text.not_mem_of_mem_segments hmem⟩

theorem ne_of_mem_folderSegments {n : String} (h : n ∈ folderSegments dir) :
    n ≠ "" ∧ '/' ∉ n.toList := by
  obtain ⟨hmem, hne⟩ := List.mem_filter.mp h
  exact ⟨by simpa using hne, Text.not_mem_of_mem_segments hmem⟩

/-- What was reached is read back from the text that joins it. -/
theorem folderSegments_intercalate {names : List String} (h : reach? dir specifier = some names)
    (hne : names ≠ []) : folderSegments ("/".intercalate names) = names := by
  have hmem : ∀ n ∈ names, n ≠ "" ∧ '/' ∉ n.toList := by
    intro n hn
    rcases List.mem_append.mp ((foldlM_keeps h).1.subset hn) with hn | hn
    · exact ne_of_mem_folderSegments hn
    · exact ⟨(isName_of_mem_ordinary hn).ne_empty, (isName_of_mem_ordinary hn).no_separator⟩
  rw [folderSegments, Text.segments_intercalate hne fun n hn => (hmem n hn).2]
  exact List.filter_eq_self.mpr fun n hn => by simpa using (hmem n hn).1

theorem join?_eq_none_iff (dir specifier : String) : join? dir specifier = none ↔
    Escapes (folderSegments dir).length (Text.segments '/' specifier) ∨
      (folderSegments dir).length + (ordinary (Text.segments '/' specifier)).length =
        ups (Text.segments '/' specifier) := by
  rw [← foldlM_eq_none_iff, join?_eq, reach?]
  cases hreach : (Text.segments '/' specifier).foldlM enter (folderSegments dir) with
  | none => simp
  | some names =>
    have hlength := (foldlM_keeps hreach).2
    rw [← hlength, Option.bind_some]
    cases names <;> simp

/--
A specifier can be taken in two parts, from the folder that the first one leads to. What it leads
to is made of segments of the folder and of ordinary segments of the specifier, and it is made of
names if the folder is. It leads nowhere exactly if some start of it leads above the root, or if
nothing is left in the end.
-/
theorem join?_composes_and_stays (dir specifier : String) :
    (∀ id, join? dir specifier = some id →
      ∀ more, join? id more = join? dir (specifier ++ "/" ++ more)) ∧
    (∀ id, join? dir specifier = some id → ∃ names, names ≠ [] ∧ id = "/".intercalate names ∧
      names.Sublist (folderSegments dir ++ ordinary (Text.segments '/' specifier)) ∧
      ("." ∉ Text.segments '/' dir → ".." ∉ Text.segments '/' dir →
        ∀ n ∈ names, Path.IsName n)) ∧
    (join? dir specifier = none ↔
      Escapes (folderSegments dir).length (Text.segments '/' specifier) ∨
        (folderSegments dir).length + (ordinary (Text.segments '/' specifier)).length =
          ups (Text.segments '/' specifier)) := by
  refine ⟨fun id h more => ?_, fun id h => ?_, join?_eq_none_iff dir specifier⟩
  · obtain ⟨names, hreach, hne, rfl⟩ := join?_eq_some_iff.mp h
    rw [join?_eq, join?_eq, reach?_append, hreach, Option.bind_some, reach?,
      folderSegments_intercalate hreach hne]
  · obtain ⟨names, hreach, hne, rfl⟩ := join?_eq_some_iff.mp h
    refine ⟨names, hne, rfl, (foldlM_keeps hreach).1, fun hhere hup => isName_of_reach? ?_ hreach⟩
    intro n hn
    obtain ⟨hempty, hsep⟩ := ne_of_mem_folderSegments hn
    have hmem := List.mem_of_mem_filter hn
    exact ⟨hempty, fun e => hhere (e ▸ hmem), fun e => hup (e ▸ hmem), hsep⟩

/-- `../util` and then `./b` from `src/lib` is `../util/./b`, and `../../a` leads out of `src`. -/
theorem join?_composes_and_stays_sibling :
    (join? "src/lib" "../util" = some "src/util" ∧
      join? "src/util" "./b" = join? "src/lib" "../util/./b") ∧
    join? "src" "../../a" = none := by
  have hfirst : join? "src/lib" "../util" = some "src/util" := by decide
  refine ⟨⟨hfirst, (join?_composes_and_stays "src/lib" "../util").1 _ hfirst "./b"⟩, ?_⟩
  exact (join?_composes_and_stays "src" "../../a").2.2.mpr (.inl ⟨["..", ".."], by decide, by decide⟩)

end FileId

end SourceGraph
