import Mathlib.Data.List.TakeWhile
import SourceGraph.Import.Target
import SourceGraph.Language.Basic
import SourceGraph.Proofs.Joining

/-!
# Where imports lead

What an import leads to is the id of a file below the root, and a relative specifier names a file of
a known language. A specifier that names a folder stands for the `index` file in it. Folders are
told by their spelling: `.`, `..` and a separator at the end. A longer specifier that ends in `.` or
`..` is taken for a file instead.

* `Import.relativeTarget?_of_folder`: the `index` file of a folder.
* `Language.isSome_ofPath?`: an id with an extension of a language.
* `Import.targets_proper`: what imports lead to are ids of files.
* `Import.folder_specifier_agrees_iff`: which specifiers of folders need no separator at the end.
-/

set_option autoImplicit false

namespace SourceGraph

/-! ## Extensions of ids -/

/-- The extensions that specifiers may have are those of languages. -/
theorem Language.isSome_ofExtension? {ext : String} (h : ext ∈ Import.knownExtensions) :
    (ofExtension? ext).isSome = true := by
  revert ext
  decide +kernel

/-- An id whose last name has an extension of a language. -/
theorem Language.isSome_ofPath? {id name stem ext : String} {front : List String}
    (hid : Text.segments '/' id = front ++ [name]) (hn : Path.IsName name)
    (hname : name.toList = stem.toList ++ '.' :: ext.toList) (hstem : stem ≠ "")
    (hdot : '.' ∉ ext.toList) (hext : ext ∈ Import.knownExtensions) :
    (ofPath? ⟨id⟩).isSome = true := by
  have hfile : (Path.mk id).fileName? = some name := Path.fileName?_of_segments hid hn
  have hcut : Path.cutName name = some (stem, ext) :=
    Path.cutName_eq_some_iff.mpr ⟨hname, hstem, hdot⟩
  have hextension : (Path.mk id).extension? = some ext := by
    rw [Path.extension?, hfile, Option.bind_some, hcut, Option.map_some]
  rw [ofPath?, hextension, Option.bind_some]
  exact isSome_ofExtension? hext

namespace Import

variable {importer specifier id : String}

theorem isSome_ofPath?_of_known (hid : FileId.IsProper id) (h : hasKnownExtension id = true) :
    (Language.ofPath? ⟨id⟩).isSome = true := by
  obtain ⟨front, _, hsegments⟩ := FileId.segments_eq id
  unfold hasKnownExtension at h
  split at h
  · rename_i stem ext hcut
    obtain ⟨htext, hdot⟩ := Text.cutLast_eq_some hcut
    obtain ⟨hstem, hext⟩ := Bool.and_eq_true_iff.mp h
    have hparts : (FileId.baseName id).toList =
        (String.ofList stem).toList ++ '.' :: (String.ofList ext).toList := by simpa using htext
    refine Language.isSome_ofPath? hsegments hid.isName_baseName hparts ?_ (by simpa using hdot)
      (List.contains_iff_mem.mp hext)
    rintro hempty
    obtain rfl : stem = [] := by simpa using congrArg String.toList hempty
    simp at hstem
  · cases h

/-! ## Added extensions -/

/-- The id that the specifier of a file stands for: it has a known extension or gets one. -/
def completed (id : String) : String :=
  if hasKnownExtension id then id else id ++ "." ++ addedExtension

theorem completed_supported (hid : FileId.IsProper id) :
    FileId.IsProper (completed id) ∧ (Language.ofPath? ⟨completed id⟩).isSome = true := by
  unfold completed
  split
  · rename_i hknown
    exact ⟨hid, isSome_ofPath?_of_known hid hknown⟩
  · obtain ⟨front, _, happend⟩ := FileId.segments_append_eq id
    have hsegments := happend ("." ++ addedExtension) (by decide)
    have hproper : FileId.IsProper (id ++ ("." ++ addedExtension)) :=
      hid.append (by decide) (by decide)
    have hparts : (FileId.baseName id ++ ("." ++ addedExtension)).toList =
        (FileId.baseName id).toList ++ '.' :: addedExtension.toList := by simp
    rw [String.append_assoc]
    exact ⟨hproper, Language.isSome_ofPath? hsegments (hproper.isName _ (by simp [hsegments]))
      hparts hid.isName_baseName.ne_empty (by decide) (by decide)⟩

/-! ## Specifiers -/

theorem relativeTarget?_of_file (h : namesFolder (cleanSpecifier specifier) = false) :
    relativeTarget? importer specifier =
      (FileId.join? (FileId.parent importer) (String.ofList (cleanSpecifier specifier))).map
        completed := by
  simp only [relativeTarget?, h]
  rfl

/-- The file that a folder stands for. -/
def indexFile (folder : List String) : String := "/".intercalate (folder ++ ["index.ts"])

theorem relativeTarget?_of_folder (h : namesFolder (cleanSpecifier specifier) = true) :
    relativeTarget? importer specifier =
      (FileId.reach? (FileId.parent importer) (String.ofList (cleanSpecifier specifier))).map
        indexFile := by
  have hindex : String.ofList (Text.dropTrailing '/' (cleanSpecifier specifier)) ++ "/index." ++
      addedExtension =
      String.ofList (Text.dropTrailing '/' (cleanSpecifier specifier)) ++ "/" ++ "index.ts" := by
    rw [String.append_assoc, String.append_assoc]
    rfl
  rw [relativeTarget?, if_pos h, hindex, FileId.join?_eq, FileId.reach?_name _ _ (by decide),
    FileId.reach?_dropTrailing]
  cases FileId.reach? (FileId.parent importer) (String.ofList (cleanSpecifier specifier)) with
  | none => rfl
  | some folder => simp [indexFile]

/-! ## Proper targets -/

theorem relativeTarget?_supported (himporter : FileId.IsProper importer)
    (h : relativeTarget? importer specifier = some id) :
    FileId.IsProper id ∧ (Language.ofPath? ⟨id⟩).isSome = true := by
  cases hfolder : namesFolder (cleanSpecifier specifier) with
  | true =>
    rw [relativeTarget?_of_folder hfolder] at h
    obtain ⟨folder, hreach, rfl⟩ := Option.map_eq_some_iff.mp h
    have hnames : ∀ n ∈ folder ++ ["index.ts"], Path.IsName n := by
      intro n hn
      rcases List.mem_append.mp hn with hn | hn
      · exact FileId.isName_of_reach? himporter.isName_parent hreach n hn
      · rw [List.mem_singleton.mp hn]
        decide
    have hsegments := Text.segments_intercalate (by simp) fun n hn => (hnames n hn).no_separator
    have hparts : "index.ts".toList = "index".toList ++ '.' :: "ts".toList := by decide
    exact ⟨FileId.isProper_intercalate (by simp) hnames,
      Language.isSome_ofPath? hsegments (hnames _ (by simp)) hparts (by decide) (by decide)
        (by decide)⟩
  | false =>
    rw [relativeTarget?_of_file hfolder] at h
    obtain ⟨joined, hjoin, rfl⟩ := Option.map_eq_some_iff.mp h
    exact completed_supported (FileId.isProper_of_join? himporter.isName_parent hjoin)

theorem isProper_of_statedTarget? {stated : String} {root : Option String}
    (himporter : FileId.IsProper importer) (h : statedTarget? importer stated root = some id) :
    FileId.IsProper id := by
  have htop : ∀ n ∈ FileId.folderSegments "", Path.IsName n := by decide
  unfold statedTarget? at h
  dsimp only at h
  split at h
  · exact FileId.isProper_of_join? himporter.isName_parent h
  · split at h
    · obtain ⟨base, _, h⟩ := Option.bind_eq_some_iff.mp h
      obtain ⟨rest, _, h⟩ := Option.bind_eq_some_iff.mp h
      split at h
      · exact FileId.isProper_of_join? htop h
      · cases h
    · exact FileId.isProper_of_join? htop h

/--
Let the id of the importing file be made of names. Then what a relative specifier names is such an
id as well, with the extension of a language. So is whatever else an import leads to, but for the
extension: it is the id of the file that it leads to from the root, so it never leaves the
workspace.
-/
theorem targets_proper {importer : String} (himporter : FileId.IsProper importer) :
    (∀ specifier id, relativeTarget? importer specifier = some id →
      FileId.IsProper id ∧ (Language.ofPath? ⟨id⟩).isSome = true) ∧
    ∀ (i : Import) (root : Option String) (id : String), i.target? importer root = some id →
      FileId.IsProper id ∧
      ∀ base : Path, base.isAbsolute = true → FileId.ofPath? base (base.join ⟨id⟩) = some id := by
  refine ⟨fun specifier id h => relativeTarget?_supported himporter h, fun i root id h => ?_⟩
  have hid : FileId.IsProper id := by
    unfold target? at h
    split at h
    · exact isProper_of_statedTarget? himporter h
    · split at h
      · exact (relativeTarget?_supported himporter h).1
      · cases h
  exact ⟨hid, fun base hbase => hid.ofPath? hbase⟩

theorem targets_proper_relative :
    (FileId.IsProper "src/lib/util.ts" ∧ (Language.ofPath? ⟨"src/lib/util.ts"⟩).isSome = true) ∧
    FileId.ofPath? ⟨"/w"⟩ ⟨"/w/a.css"⟩ = some "a.css" := by
  have himporter : FileId.IsProper "src/app/main.ts" := by decide
  obtain ⟨hrelative, hstated⟩ := targets_proper himporter
  have hstyle : target? "src/app/main.ts" { source := "x", resolvedPath := some "/w/lib//../a.css" }
      (some "/w/") = some "a.css" := by decide +kernel
  exact ⟨hrelative " ../lib/./x/../util?raw " _ (by decide +kernel),
    (hstated _ _ _ hstyle).2 ⟨"/w"⟩ (by decide)⟩

/-! ## Folders without a separator at the end -/

theorem cleanSpecifier_eq_self {s : String} (hquery : '?' ∉ s.toList) (hfragment : '#' ∉ s.toList)
    (htrim : Text.trim s.toList = s.toList) : cleanSpecifier s = s.toList := by
  have hwhole : s.toList.takeWhile (fun c => c ≠ '?' && c ≠ '#') = s.toList := by
    rw [List.takeWhile_eq_self_iff]
    intro c hc
    simp [ne_of_mem_of_not_mem hc hquery, ne_of_mem_of_not_mem hc hfragment]
  rw [cleanSpecifier, hwhole, htrim]

/-- A specifier that ends in `.` or `..` is known for a folder if it is nothing else. -/
theorem namesFolder_iff {s : String} (hlast : (Text.segments '/' s).getLast? ≠ some "") :
    namesFolder s.toList = true ↔ s = "." ∨ s = ".." := by
  have hend : s.toList.getLast? ≠ some '/' := by
    intro hslash
    obtain ⟨front, hfront⟩ := List.getLast?_eq_some_iff.mp hslash
    have hs : s = String.ofList front ++ "/" := by
      apply String.toList_injective
      simpa using hfront
    rw [hs, Text.segments_slash, List.getLast?_concat] at hlast
    exact hlast rfl
  have hdot : s.toList = ['.'] ↔ s = "." := by
    rw [← String.toList_inj]
    rfl
  have hdots : s.toList = ['.', '.'] ↔ s = ".." := by
    rw [← String.toList_inj]
    rfl
  simp [namesFolder, hend, hdot, hdots]

theorem completed_ne_index {names : List String} (hne : names ≠ []) :
    completed ("/".intercalate names) ≠ indexFile names := by
  have hlength : (indexFile names).toList.length = ("/".intercalate names).toList.length + 9 := by
    rw [indexFile, String.toList_intercalate, String.toList_intercalate, List.map_append,
      Text.intercalate_append _ (by simpa using hne) (by simp)]
    simp
  intro h
  rw [← h] at hlength
  unfold completed at hlength
  split at hlength
  · omega
  · simp [addedExtension] at hlength

section Spellings

variable {s : String} (hquery : '?' ∉ s.toList) (hfragment : '#' ∉ s.toList)
  (htrim : Text.trim s.toList = s.toList)

include hquery hfragment htrim

theorem relativeTarget?_slash (importer : String) :
    relativeTarget? importer (s ++ "/") =
      (FileId.reach? (FileId.parent importer) s).map indexFile := by
  have hclean : cleanSpecifier (s ++ "/") = (s ++ "/").toList := by
    refine cleanSpecifier_eq_self (by simp [hquery]) (by simp [hfragment]) ?_
    rw [String.toList_append]
    exact Text.trim_slash htrim
  have hfolder : namesFolder (cleanSpecifier (s ++ "/")) = true := by
    simp [hclean, namesFolder]
  rw [relativeTarget?_of_folder hfolder, hclean, String.ofList_toList, FileId.reach?_slash]

theorem relativeTarget?_eq (importer : String) (hlast : (Text.segments '/' s).getLast? ≠ some "") :
    relativeTarget? importer s =
      if s = "." ∨ s = ".." then (FileId.reach? (FileId.parent importer) s).map indexFile
      else (FileId.join? (FileId.parent importer) s).map completed := by
  have hclean : cleanSpecifier s = s.toList := cleanSpecifier_eq_self hquery hfragment htrim
  have hnames : namesFolder (cleanSpecifier s) = true ↔ s = "." ∨ s = ".." := by
    rw [hclean]
    exact namesFolder_iff hlast
  split
  · rename_i hspelled
    rw [relativeTarget?_of_folder (hnames.mpr hspelled), hclean, String.ofList_toList]
  · rename_i hspelled
    rw [relativeTarget?_of_file (Bool.eq_false_iff.mpr (mt hnames.mp hspelled)), hclean,
      String.ofList_toList]

end Spellings

/--
Let the last segment of a specifier be `.` or `..`, without a query, a fragment and blanks around
it. With a separator at its end it names the `index` file of the folder that it leads to. Without
one it does the same if it is just `.` or `..`, or if it leads out of the workspace. In all other
cases it does not: it is taken for a file that is called like the folder, and the root for none.
-/
theorem folder_specifier_agrees_iff (importer : String) {s : String}
    (hquery : '?' ∉ s.toList) (hfragment : '#' ∉ s.toList)
    (htrim : Text.trim s.toList = s.toList)
    (hlast : (Text.segments '/' s).getLast? = some "." ∨
      (Text.segments '/' s).getLast? = some "..") :
    relativeTarget? importer (s ++ "/") =
      (FileId.reach? (FileId.parent importer) s).map indexFile ∧
    (relativeTarget? importer s = relativeTarget? importer (s ++ "/") ↔
      s = "." ∨ s = ".." ∨ FileId.reach? (FileId.parent importer) s = none) ∧
    (s ≠ "." → s ≠ ".." →
      relativeTarget? importer s = (FileId.join? (FileId.parent importer) s).map completed) := by
  have hplain := relativeTarget?_eq hquery hfragment htrim importer
    (by rcases hlast with h | h <;> simp [h])
  have hslash := relativeTarget?_slash hquery hfragment htrim importer
  refine ⟨hslash, ?_, fun hdot hdots => ?_⟩
  · rw [hplain, hslash]
    split
    · rename_i hspelled
      exact ⟨fun _ => hspelled.imp_right Or.inl, fun _ => rfl⟩
    · rename_i hspelled
      obtain ⟨hdot, hdots⟩ := not_or.mp hspelled
      -- what is left to compare is a file against the `index` file of the folder
      rw [FileId.join?_eq]
      cases FileId.reach? (FileId.parent importer) s with
      | none => simp
      | some folder =>
        by_cases hroot : folder = []
        · simp [hroot, hdot, hdots]
        · simp [hroot, hdot, hdots, completed_ne_index hroot]
  · rw [hplain, if_neg (not_or.mpr ⟨hdot, hdots⟩)]

theorem folder_specifier_agrees_iff_nested :
    (relativeTarget? "src/app/ui/main.ts" "../.." = some "src.ts" ∧
      relativeTarget? "src/app/ui/main.ts" ("../.." ++ "/") = some "src/index.ts") ∧
    relativeTarget? "src/app/main.ts" "../.." ≠ relativeTarget? "src/app/main.ts" ("../.." ++ "/") ∧
    relativeTarget? "src/app/main.ts" ".." = relativeTarget? "src/app/main.ts" (".." ++ "/") ∧
    relativeTarget? "main.ts" "./.." = relativeTarget? "main.ts" ("./.." ++ "/") := by
  have hup (importer : String) := folder_specifier_agrees_iff importer (s := "../..")
    (by decide) (by decide) (by decide +kernel) (by decide)
  have hnested := hup "src/app/ui/main.ts"
  refine ⟨⟨(hnested.2.2 (by decide) (by decide)).trans (by decide +kernel),
    hnested.1.trans (by decide +kernel)⟩, ?_, ?_, ?_⟩
  · rw [Ne, (hup _).2.1]
    decide +kernel
  · exact (folder_specifier_agrees_iff _ (by decide) (by decide) (by decide +kernel)
      (by decide)).2.1.mpr (by decide)
  · exact (folder_specifier_agrees_iff _ (by decide) (by decide) (by decide +kernel)
      (by decide)).2.1.mpr (by decide +kernel)

end Import

end SourceGraph
