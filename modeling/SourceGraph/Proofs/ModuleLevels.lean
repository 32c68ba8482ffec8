import Mathlib.Data.List.DropRight
import Mathlib.Data.List.Forall2
import SourceGraph.Extract.Python
import SourceGraph.Proofs.Targets

/-!
# Modules with leading dots

A module is written as some dots and a dotted name. One dot stands for the folder of the importing
file, and each further dot for one folder above. The extraction turns this into the text of a
relative path; the search for the target of an import reads this text again, against the importing
file. Together they lead to the file that the dots and the name stand for.

* `FileId.join?_levels`: the folders that a text made of dots leads to.
* `Python.dottedFile?`: the file that a module with leading dots stands for.
* `Python.fromImport_target`: imports lead to these files.
-/

set_option autoImplicit false

namespace SourceGraph

/-! ## Climbing folders -/

namespace FileId

/-- The folders around a file, from the root down. -/
def folders (id : String) : List String := (Text.segments '/' id).dropLast.filter (· ≠ "")

theorem folderSegments_parent (id : String) : folderSegments (parent id) = folders id := by
  obtain ⟨front, hfolder, hsegments⟩ := segments_eq id
  rw [hfolder, folders, hsegments, List.dropLast_concat]

theorem foldlM_names (folder : List String) {names : List String}
    (hnames : ∀ n ∈ names, Path.IsName n) :
    names.foldlM enter folder = some (folder ++ names) := by
  induction names generalizing folder with
  | nil => simp
  | cons n names ih =>
    obtain ⟨hn, hrest⟩ := List.forall_mem_cons.mp hnames
    rw [List.foldlM_cons, enter_name folder hn]
    exact (ih _ hrest).trans (by simp)

theorem enter_up (folder : List String) :
    enter folder ".." = if folder = [] then none else some folder.dropLast := by
  simp [enter]

theorem foldlM_up (folder : List String) (m : Nat) :
    (List.replicate m "..").foldlM enter folder =
      if m ≤ folder.length then some (folder.rdrop m) else none := by
  induction m generalizing folder with
  | zero => simp
  | succ m ih =>
    rw [List.replicate_succ, List.foldlM_cons, enter_up]
    by_cases hnil : folder = []
    · simp [hnil]
    · have hpos := List.length_pos_iff.mpr hnil
      have hdrop : folder.dropLast.rdrop m = folder.rdrop (m + 1) := by
        rw [List.rdrop, List.rdrop, List.dropLast_eq_take, List.take_take, List.length_take]
        congr 1
        omega
      have hle : m ≤ folder.dropLast.length ↔ m + 1 ≤ folder.length := by
        rw [List.length_dropLast]
        omega
      rw [if_neg hnil]
      refine (ih folder.dropLast).trans ?_
      simp only [hdrop, hle]

theorem segments_ups (m : Nat) (s : String) :
    Text.segments '/' (String.join (List.replicate m "../") ++ s) =
      List.replicate m ".." ++ Text.segments '/' s := by
  induction m with
  | zero => simp
  | succ m ih =>
    have hsplit : String.join (List.replicate (m + 1) "../") ++ s =
        ".." ++ "/" ++ (String.join (List.replicate m "../") ++ s) := by
      rw [List.replicate_succ, String.join_cons, String.append_assoc]
      rfl
    rw [hsplit, Text.segments_append, ih, Text.segments_of_not_mem (by decide), List.replicate_succ]
    rfl

/-- One dot stays in the folder, each further one leaves it for the folder above. -/
theorem reach?_levels (dir s : String) {k : Nat} (hk : 1 ≤ k) :
    reach? dir (Python.levels k ++ s) =
      if k - 1 ≤ (folderSegments dir).length then
        (Text.segments '/' s).foldlM enter ((folderSegments dir).rdrop (k - 1)) else none := by
  rw [reach?, Python.levels]
  split_ifs with hone hle hle
  · have hstay : "./" ++ s = "." ++ "/" ++ s := rfl
    have hzero : k - 1 = 0 := by omega
    rw [hstay, Text.segments_append, Text.segments_of_not_mem (by decide), hzero, List.rdrop_zero]
    rfl
  · omega
  · rw [segments_ups, List.foldlM_append, foldlM_up, if_pos hle]
    rfl
  · rw [segments_ups, List.foldlM_append, foldlM_up, if_neg hle]
    rfl

theorem intercalate_segments_append (folder : List String) {names : List String} (hne : names ≠ [])
    (t : String) :
    "/".intercalate (folder ++ Text.segments '/' ("/".intercalate names ++ t)) =
      "/".intercalate (folder ++ names) ++ t := by
  by_cases hnil : folder = []
  · rw [hnil, List.nil_append, List.nil_append, Text.intercalate_segments]
  · rw [String.intercalate_append_of_ne_nil hnil (Text.segments_ne_nil '/' _),
      Text.intercalate_segments, String.intercalate_append_of_ne_nil hnil hne]
    simp only [String.append_assoc]

theorem join?_levels (dir : String) {k : Nat} (hk : 1 ≤ k) {names : List String} (hne : names ≠ [])
    (hnames : ∀ n ∈ names, Path.IsName n) :
    join? dir (Python.levels k ++ ("/".intercalate names ++ ".py")) =
      if k - 1 ≤ (folderSegments dir).length then
        some ("/".intercalate ((folderSegments dir).rdrop (k - 1) ++ names) ++ ".py")
      else none := by
  have hproper : IsProper ("/".intercalate names ++ ".py") :=
    (isProper_intercalate hne hnames).append (by decide) (by decide)
  rw [join?_eq, reach?_levels dir _ hk]
  split_ifs with hle
  · rw [foldlM_names _ hproper.isName, Option.bind_some,
      if_neg (List.append_ne_nil_of_right_ne_nil _ (Text.segments_ne_nil '/' _)),
      intercalate_segments_append _ hne]
  · rfl

end FileId

/-! ## Dotted names -/

namespace Python

/-- A part of a dotted name, such as any identifier. -/
structure IsPart (n : String) : Prop where
  ne_empty : n ≠ ""
  no_dot : '.' ∉ n.toList
  no_separator : '/' ∉ n.toList
  no_backslash : '\\' ∉ n.toList
  no_star : '*' ∉ n.toList

/-- A module as it is written: some dots and the parts of a dotted name. -/
def dotted (k : Nat) (names : List String) : String :=
  String.ofList (List.replicate k '.') ++ ".".intercalate names

variable {k : Nat} {names : List String}

theorem IsPart.isName {n : String} (h : IsPart n) : Path.IsName n where
  ne_empty := h.ne_empty
  ne_here := by
    rintro rfl
    exact h.no_dot (by decide)
  ne_up := by
    rintro rfl
    exact h.no_dot (by decide)
  no_separator := h.no_separator

theorem replaceChar_intercalate (hnames : ∀ n ∈ names, IsPart n) :
    Text.replaceChar '.' '/' (".".intercalate names) = "/".intercalate names := by
  induction names with
  | nil => decide
  | cons n names ih =>
    obtain ⟨hn, hrest⟩ := List.forall_mem_cons.mp hnames
    have hplain : Text.replaceChar '.' '/' n = n := Text.replaceChar_eq_self hn.no_dot
    by_cases hnil : names = []
    · simp [hnil, hplain]
    · rw [String.intercalate_cons_of_ne_nil hnil, String.intercalate_cons_of_ne_nil hnil,
        Text.replaceChar_append, Text.replaceChar_append, hplain, ih hrest]
      rfl

theorem moduleFile_intercalate (hnames : ∀ n ∈ names, IsPart n) :
    moduleFile (".".intercalate names) = "/".intercalate names ++ ".py" := by
  rw [moduleFile, replaceChar_intercalate hnames]

/-- A dotted name starts with its first part, so not with a dot. -/
theorem intercalate_head (hnames : ∀ n ∈ names, IsPart n) (hne : names ≠ []) :
    ∃ c cs, (".".intercalate names).toList = c :: cs ∧ c ≠ '.' := by
  obtain ⟨n, rest, rfl⟩ := List.exists_cons_of_ne_nil hne
  have hn := hnames n List.mem_cons_self
  obtain ⟨c, cs, hc⟩ := List.exists_cons_of_ne_nil hn.isName.toList_ne_nil
  have hdot : c ≠ '.' := by
    rintro rfl
    exact hn.no_dot (by simp [hc])
  by_cases hnil : rest = []
  · exact ⟨c, cs, by simp [hnil, hc], hdot⟩
  · rw [String.intercalate_cons_of_ne_nil hnil, String.append_assoc, String.toList_append, hc]
    exact ⟨c, _, rfl, hdot⟩

theorem takeWhile_dotted (k : Nat) (hnames : ∀ n ∈ names, IsPart n) :
    (dotted k names).toList.takeWhile (· == '.') = List.replicate k '.' := by
  have hnone : (".".intercalate names).toList.takeWhile (· == '.') = [] := by
    by_cases hnil : names = []
    · simp [hnil]
    · obtain ⟨c, cs, hc, hdot⟩ := intercalate_head hnames hnil
      rw [hc, List.takeWhile_cons_of_neg (by simpa using hdot)]
  rw [dotted, String.toList_append, String.toList_ofList, List.takeWhile_append_of_pos (by simp),
    hnone, List.append_nil]

theorem drop_dotted (k : Nat) (names : List String) :
    String.ofList ((dotted k names).toList.drop k) = ".".intercalate names := by
  rw [dotted, String.toList_append, String.toList_ofList, List.drop_left' (by simp),
    String.ofList_toList]

theorem relativeImport_dotted (hnames : ∀ n ∈ names, IsPart n) (taken : List ImportedName)
    (line : Nat) :
    relativeImport (dotted k names) taken line =
      if names = [] then
        (taken.filter (·.name ≠ "*")).map fun n =>
          { wholeModule (dotted k names) (n.localName?.getD n.name) line with
            resolvedPath := some (levels k ++ moduleFile n.name) }
      else [{ source := dotted k names, names := taken
              resolvedPath := some (levels k ++ moduleFile (".".intercalate names))
              line := some line }] := by
  have hempty : ".".intercalate names ≠ "" ↔ names ≠ [] := by
    refine not_congr ⟨fun h => ?_, fun h => by simp [h]⟩
    by_contra hne
    obtain ⟨c, cs, hc, -⟩ := intercalate_head hnames hne
    simp [h] at hc
  unfold relativeImport
  simp only [takeWhile_dotted k hnames, List.length_replicate, drop_dotted, hempty, ite_not]

/-! ## Targets -/

theorem toList_levels (k : Nat) : ∃ cs, (levels k).toList = '.' :: cs ∧ '\\' ∉ cs := by
  unfold levels
  split_ifs with hone
  · exact ⟨['/'], by decide, by decide⟩
  · obtain ⟨m, hm⟩ : ∃ m, k - 1 = m + 1 := ⟨k - 2, by omega⟩
    refine ⟨'.' :: '/' :: (List.replicate m "../").flatMap String.toList, ?_, ?_⟩
    · rw [hm, List.replicate_succ, String.toList_join, List.flatMap_cons]
      rfl
    · simp

theorem levels_append (k : Nat) {s : String} (hs : '\\' ∉ s.toList) :
    Text.replaceChar '\\' '/' (levels k ++ s) = levels k ++ s ∧
      Text.begins "." (levels k ++ s) = true := by
  obtain ⟨cs, hlevels, hcs⟩ := toList_levels k
  constructor
  · apply Text.replaceChar_eq_self
    simp [hlevels, hcs, hs]
  · simp [Text.begins, hlevels]

/-- The file that a module with leading dots stands for, in a file that imports it. -/
def dottedFile? (importer : String) (k : Nat) (names : List String) : Option String :=
  let folders := FileId.folders importer
  if k - 1 ≤ folders.length then some ("/".intercalate (folders.rdrop (k - 1) ++ names) ++ ".py")
  else none

theorem target?_levels (hk : 1 ≤ k) (hne : names ≠ []) (hnames : ∀ n ∈ names, IsPart n)
    {i : Import} (hi : i.resolvedPath = some (levels k ++ moduleFile (".".intercalate names)))
    (importer : String) (root : Option String) :
    Import.target? importer i root = dottedFile? importer k names := by
  have hback : '\\' ∉ ("/".intercalate names ++ ".py").toList := by
    rw [String.toList_append, List.mem_append, not_or]
    exact ⟨Text.not_mem_intercalate (by decide) fun n hn => (hnames n hn).no_backslash, by decide⟩
  obtain ⟨hsame, hbegins⟩ := levels_append k hback
  rw [Import.target?, hi, moduleFile_intercalate hnames]
  simp only [Import.statedTarget?, hsame, hbegins, if_true]
  rw [FileId.join?_levels _ hk hne fun n hn => (hnames n hn).isName, FileId.folderSegments_parent,
    dottedFile?]

/-! ## Imports of a statement -/

/-- A name that a statement takes from a module, by its parts, and the name it gets. -/
structure Taken where
  parts : List String
  localName : String

/-- How a statement says that it takes a name. -/
structure Takes (source : List Char) (n : SyntaxTree) (x : Taken) : Prop where
  parts_ne : x.parts ≠ []
  isPart : ∀ p ∈ x.parts, IsPart p
  written : n.kind = "dotted_name" ∧ n.text source = ".".intercalate x.parts ∧
      x.localName = ".".intercalate x.parts ∨
    n.kind = "aliased_import" ∧ n.fieldText? "name" source = some (".".intercalate x.parts) ∧
      n.fieldText? "alias" source = some x.localName

/-- The listed name of something that is taken. -/
def Taken.Lists (x : Taken) (n : ImportedName) : Prop :=
  n.name = ".".intercalate x.parts ∧ n.localName?.getD n.name = x.localName

theorem Takes.ne_star {source : List Char} {n : SyntaxTree} {x : Taken} (h : Takes source n x) :
    ".".intercalate x.parts ≠ "*" := by
  intro hstar
  have hmem : '*' ∉ (".".intercalate x.parts).toList :=
    Text.not_mem_intercalate (by decide) fun p hp => (h.isPart p hp).no_star
  rw [hstar] at hmem
  exact hmem (by decide)

theorem takenNames_eq (source : List Char) (t : SyntaxTree) :
    ∃ listed? : SyntaxTree → Option ImportedName,
      takenNames source t = (t.childrenOf "name").filterMap listed? ++
        (if (t.childOfKind? "wildcard_import").isSome then [{ name := "*" }] else []) ∧
      ∀ n x, Takes source n x → ∃ l, listed? n = some l ∧ x.Lists l := by
  refine ⟨_, rfl, fun n x h => ?_⟩
  rcases h.written with ⟨hkind, htext, hlocal⟩ | ⟨hkind, hname, halias⟩
  · refine ⟨{ name := n.text source }, by simp [hkind], htext, ?_⟩
    simp [ImportedName.localName?, htext, hlocal, h.ne_star]
  · refine ⟨{ name := ".".intercalate x.parts, renamed := some x.localName }, ?_, rfl, rfl⟩
    simp [hkind, renamed?, hname, halias]

/-- Without wildcards, a statement lists what it takes. -/
theorem takenNames_filter {source : List Char} {t : SyntaxTree} {taken : List Taken}
    (h : List.Forall₂ (Takes source) (t.childrenOf "name") taken) :
    List.Forall₂ (fun x l => (x.parts ≠ [] ∧ ∀ p ∈ x.parts, IsPart p) ∧ x.Lists l) taken
      ((takenNames source t).filter (·.name ≠ "*")) := by
  obtain ⟨listed?, hnames, hlisted⟩ := takenNames_eq source t
  have hwild : (if (t.childOfKind? "wildcard_import").isSome then [{ name := "*" }] else []
      : List ImportedName).filter (·.name ≠ "*") = [] := by
    split_ifs <;> simp
  rw [hnames, List.filter_append, hwild, List.append_nil]
  generalize t.childrenOf "name" = nodes at h ⊢
  induction h with
  | nil => exact .nil
  | @cons n x _ _ hx _ ih =>
    obtain ⟨l, hl, hlists⟩ := hlisted n x hx
    have hkeep : l.name ≠ "*" := hlists.1 ▸ hx.ne_star
    rw [List.filterMap_cons_some hl, List.filter_cons_of_pos (by simpa using hkeep)]
    exact .cons ⟨⟨hx.parts_ne, hx.isPart⟩, hlists⟩ ih

/--
Let a statement take names from a module that is written with leading dots and without blanks, which
the language would allow between dots and names. If a name follows the dots, it is one import, which
leads to the file that the dots and the name stand for. If there are only dots, it is one import for
each name that is taken, which leads to the file that the dots and that name stand for and binds its
local name to the whole of it.
-/
theorem fromImport_target {source : List Char} {t m : SyntaxTree}
    (hm : t.child? "module_name" = some m) (hkind : m.kind = "relative_import") {k : Nat}
    (hk : 1 ≤ k) :
    (∀ names, names ≠ [] → (∀ n ∈ names, IsPart n) → m.text source = dotted k names →
      ∃ i, fromImport source t = [i] ∧
        ∀ importer root, Import.target? importer i root = dottedFile? importer k names) ∧
    (∀ taken, m.text source = dotted k [] →
      List.Forall₂ (Takes source) (t.childrenOf "name") taken →
      List.Forall₂ (fun (x : Taken) (i : Import) =>
        i.names = [{ name := "*", renamed := some x.localName }] ∧
        ∀ importer root, Import.target? importer i root = dottedFile? importer k x.parts)
        taken (fromImport source t)) := by
  have hfrom : fromImport source t =
      relativeImport (m.text source) (takenNames source t) (t.line source) := by
    simp only [fromImport, hm, hkind, if_true]
  rw [hfrom]
  refine ⟨fun names hne hnames htext => ?_, fun taken htext htaken => ?_⟩
  · rw [htext, relativeImport_dotted hnames, if_neg hne]
    exact ⟨_, rfl, target?_levels hk hne hnames rfl⟩
  · rw [htext, relativeImport_dotted (by simp), if_pos rfl, List.forall₂_map_right_iff]
    refine (takenNames_filter htaken).imp fun x l hx => ?_
    obtain ⟨⟨hne, hparts⟩, hname, hlocal⟩ := hx
    refine ⟨by rw [hlocal]; rfl, target?_levels hk hne hparts ?_⟩
    rw [hname]

/-- The syntax tree of `from ..a.b import c`. -/
def namedAbove : SyntaxTree :=
  ⟨"import_from_statement", true, none, 0, 19,
    [⟨"relative_import", true, some "module_name", 5, 10, []⟩,
      ⟨"dotted_name", true, some "name", 18, 19, []⟩]⟩

/-- The syntax tree of `from .. import u, v as w`. -/
def takenAbove : SyntaxTree :=
  ⟨"import_from_statement", true, none, 0, 24,
    [⟨"relative_import", true, some "module_name", 5, 7, []⟩,
      ⟨"dotted_name", true, some "name", 15, 16, []⟩,
      ⟨"aliased_import", true, some "name", 18, 24,
        [⟨"dotted_name", true, some "name", 18, 19, []⟩,
          ⟨"identifier", true, some "alias", 23, 24, []⟩]⟩]⟩

/-- Two dots stand for the folder above; a file without folders has none. -/
theorem fromImport_target_above :
    (∃ i, fromImport "from ..a.b import c".toList namedAbove = [i] ∧
      Import.target? "p/q/r.py" i none = some "p/a/b.py" ∧ Import.target? "r.py" i none = none) ∧
    ∃ i j, fromImport "from .. import u, v as w".toList takenAbove = [i, j] ∧
      i.names = [{ name := "*", renamed := some "u" }] ∧
      j.names = [{ name := "*", renamed := some "w" }] ∧
      Import.target? "p/q/r.py" i none = some "p/u.py" ∧
      Import.target? "p/q/r.py" j none = some "p/v.py" := by
  have ha : IsPart "a" := ⟨by decide, by decide, by decide, by decide, by decide⟩
  have hb : IsPart "b" := ⟨by decide, by decide, by decide, by decide, by decide⟩
  have hu : IsPart "u" := ⟨by decide, by decide, by decide, by decide, by decide⟩
  have hv : IsPart "v" := ⟨by decide, by decide, by decide, by decide, by decide⟩
  constructor
  · have hm : namedAbove.child? "module_name" =
        some ⟨"relative_import", true, some "module_name", 5, 10, []⟩ := rfl
    have htext : (⟨"relative_import", true, some "module_name", 5, 10, []⟩ : SyntaxTree).text
        "from ..a.b import c".toList = dotted 2 ["a", "b"] := by decide
    obtain ⟨i, hi, htarget⟩ := (fromImport_target hm rfl (by decide)).1 ["a", "b"] (by decide)
      (by simpa using ⟨ha, hb⟩) htext
    exact ⟨i, hi, by rw [htarget]; decide, by rw [htarget]; decide⟩
  · have hm : takenAbove.child? "module_name" =
        some ⟨"relative_import", true, some "module_name", 5, 7, []⟩ := rfl
    have htext : (⟨"relative_import", true, some "module_name", 5, 7, []⟩ : SyntaxTree).text
        "from .. import u, v as w".toList = dotted 2 [] := by decide
    have htaken : List.Forall₂ (Takes "from .. import u, v as w".toList)
        (takenAbove.childrenOf "name") [⟨["u"], "u"⟩, ⟨["v"], "w"⟩] :=
      .cons ⟨by decide, by simpa using hu, .inl ⟨rfl, by decide, by decide⟩⟩
        (.cons ⟨by decide, by simpa using hv, .inr ⟨rfl, by decide, by decide⟩⟩
          .nil)
    have himports := (fromImport_target hm rfl (by decide)).2 _ htext htaken
    obtain ⟨i, _, ⟨hi, hiTarget⟩, hrest, heq⟩ := List.forall₂_cons_left_iff.mp himports
    obtain ⟨j, _, ⟨hj, hjTarget⟩, hnil, rfl⟩ := List.forall₂_cons_left_iff.mp hrest
    obtain rfl := List.forall₂_nil_left_iff.mp hnil
    exact ⟨i, j, heq, hi, hj, by rw [hiTarget]; decide, by rw [hjTarget]; decide⟩

end Python

end SourceGraph
