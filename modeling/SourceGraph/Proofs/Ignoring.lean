import SourceGraph.Proofs.Expansion
import SourceGraph.Proofs.Glob
import SourceGraph.Watch.Ignore
import SourceGraph.Watch.Watcher

/-!
# Names that are ignored

A watcher hands its patterns to a library, as lines of an ignore file. Of the library it is only
asked that a line that is a name ignores the paths through this name. Whether the watcher then
ignores them depends on two things: that it uses the library at all, and that the library takes all
patterns. Without rules the extension decides alone.

* `IgnoreRule.IsPlainName`: the lines that are names.
* `IgnoreLibrary.IgnoresNames`: what is asked of a library.
* `IgnoreRule.library_ignoresNames`: the library that watchers are run with does it.
* `Watcher.ignores_listed_name`: what a watcher makes of a name among its patterns.
-/

set_option autoImplicit false

namespace SourceGraph

/-! ## Lines that are names -/

namespace IgnoreRule

/-- A name without special characters, marks in front and blanks at the end. -/
structure IsPlainName (n : String) : Prop where
  isName : Path.IsName n
  no_special : ∀ c ∈ n.toList, Glob.isSpecial c = false
  no_comment : n.toList.head? ≠ some '#'
  no_exception : n.toList.head? ≠ some '!'
  no_blank : n.toList.getLast?.any Text.isBlank = false

/-- A line that makes an exception, or is to make one. -/
def IsNegated (line : String) : Prop := line.toList.head? = some '!'

instance (line : String) : Decidable (IsNegated line) := inferInstanceAs (Decidable (_ = _))

/-- The files make no exceptions. -/
def NoneNegated (contents : List ByteArray) : Prop :=
  ∀ content ∈ contents, ∀ line ∈ linesOf content, ¬ IsNegated line

end IgnoreRule

open IgnoreRule (IsPlainName IsNegated NoneNegated)

/--
What is asked of a library. Its rules are for the folder that they were started for, at least if this
is not written with `./` in front. A line that is a name ignores the paths below the folder that lead
through this name, unless one of the other lines excepts the path.
-/
structure IgnoreLibrary.IgnoresNames (L : IgnoreLibrary)
    (Excepts : (root : Path) → (line : String) → (p : Path) → Prop) : Prop where
  folder : ∀ {root contents lines rules}, Text.begins "./" root.text = false →
    L.assemble? root contents lines = some rules → L.folder rules = root
  ignores : ∀ {root contents lines rules p steps n}, Text.begins "./" root.text = false →
    L.assemble? root contents lines = some rules → NoneNegated contents →
    p.components = root.components ++ steps → .name n ∈ steps → n ∈ lines → IsPlainName n →
    (∀ line ∈ lines, ¬ Excepts root line p) → ∀ isFolder, L.ignores rules p isFolder = true

/-! ## Rules in lines -/

namespace IgnoreRule

/-- The rule for the paths that end in a name. -/
def named (n : String) : IgnoreRule where
  pattern := .step .leading (Glob.literals n.toList)

theorem trimEnd_eq_self {cs : List Char} (h : cs.getLast?.any Text.isBlank = false) :
    Text.trimEnd cs = cs := by
  rcases List.eq_nil_or_concat' cs with rfl | ⟨front, c, rfl⟩
  · rfl
  · rw [List.getLast?_concat, Option.any_some] at h
    simp [Text.trimEnd, h]

theorem stripMarks_eq_self {cs : List Char} (hescape : cs.head? ≠ some '\\')
    (hexception : cs.head? ≠ some '!') (htied : cs.head? ≠ some '/') :
    stripMarks cs = (cs, false, false) := by
  cases cs with
  | nil => rfl
  | cons c cs =>
    simp only [List.head?_cons, ne_eq, Option.some.injEq] at hescape hexception htied
    simp [stripMarks, hescape, hexception, htied]

theorem stripFolderMark_eq_self {cs : List Char} (h : '/' ∉ cs) :
    stripFolderMark cs = (cs, false) := by
  have hnot : ['/'].isSuffixOf cs = false := by
    rw [Bool.eq_false_iff, Ne, List.isSuffixOf_iff_suffix]
    exact fun hsuffix => h (hsuffix.subset (by simp))
  rw [stripFolderMark, Text.stripEnd, hnot]
  rfl

theorem widened_eq {cs : List Char} (hne : cs ≠ []) (hsep : '/' ∉ cs) (hstar : '*' ∉ cs) :
    widened false cs = '*' :: '*' :: '/' :: cs := by
  have hdeep : ("**/".toList).isPrefixOf cs = false := by
    rw [Bool.eq_false_iff, Ne, List.isPrefixOf_iff_prefix]
    exact fun hp => hstar (hp.subset (by decide))
  have hstars : (cs == "**".toList) = false := by
    rw [beq_eq_false_iff_ne]
    rintro rfl
    exact hstar (by decide)
  have hbelow : ("/**".toList).isSuffixOf ('*' :: '*' :: '/' :: cs) = false := by
    rw [Bool.eq_false_iff, Ne, List.isSuffixOf_iff_suffix]
    rintro ⟨front, hfront⟩
    -- the last character is one of the name
    have hlast := congrArg List.getLast? hfront
    obtain ⟨init, c, rfl⟩ := (List.eq_nil_or_concat' cs).resolve_left hne
    rw [List.getLast?_append_of_ne_nil _ (by decide), ← List.cons_append, ← List.cons_append,
      ← List.cons_append, List.getLast?_concat] at hlast
    obtain rfl : '*' = c := Option.some.inj hlast
    exact hstar (by simp)
  have hcontains : cs.contains '/' = false := by simpa using hsep
  simp only [widened, hdeep, hstars, hcontains, Bool.not_false, Bool.or_self, Bool.and_self, if_true]
  exact if_neg (Bool.eq_false_iff.mp hbelow)

theorem parse_of_isPlainName {n : String} (h : IsPlainName n) : parse n = .rule (named n) := by
  have hne := h.isName.toList_ne_nil
  have hnot : ∀ c, Glob.isSpecial c = true → c ∉ n.toList := by
    intro c hc hmem
    rw [h.no_special c hmem] at hc
    cases hc
  have hescape : ['\\', ' '].isSuffixOf n.toList = false := by
    rw [Bool.eq_false_iff, Ne, List.isSuffixOf_iff_suffix]
    exact fun hsuffix => hnot '\\' (by decide) (hsuffix.subset (by simp))
  have hmarks : stripMarks n.toList = (n.toList, false, false) :=
    stripMarks_eq_self (fun hhead => hnot '\\' (by decide) (List.mem_of_mem_head? hhead))
      h.no_exception fun hhead => h.isName.no_separator (List.mem_of_mem_head? hhead)
  simp only [parse, if_neg h.no_comment, hescape, Bool.false_eq_true, if_false,
    trimEnd_eq_self h.no_blank, hne, hmarks, stripFolderMark_eq_self h.isName.no_separator,
    widened_eq hne h.isName.no_separator (hnot '*' (by decide)), Glob.parse?_named h.no_special]
  rfl

/-- Only an exclamation mark in front makes an exception. -/
theorem head?_of_stripMarks {cs : List Char} (h : (stripMarks cs).2.1 = true) :
    cs.head? = some '!' := by
  unfold stripMarks at h
  split at h
  · cases h
  · cases h
  · split at h
    rename_i rest isException hrest
    obtain rfl : isException = true := by split at h <;> exact h
    split at hrest
    · rfl
    · cases hrest

theorem isNegated_of_parse {line : String} {r : IgnoreRule} (h : parse line = .rule r)
    (hr : r.isException = true) : IsNegated line := by
  have hprefix : (if ['\\', ' '].isSuffixOf line.toList then line.toList
      else Text.trimEnd line.toList) <+: line.toList := by
    split
    · exact List.prefix_rfl
    · have hsuffix := List.dropWhile_suffix (l := line.toList.reverse) Text.isBlank
      rw [← List.reverse_prefix, List.reverse_reverse] at hsuffix
      exact hsuffix
  unfold parse at h
  dsimp only at h
  split at h
  · cases h
  · generalize (if ['\\', ' '].isSuffixOf line.toList then line.toList
      else Text.trimEnd line.toList) = cs at h hprefix
    split at h
    · cases h
    · split at h
      · cases h
        obtain ⟨rest, hrest⟩ := hprefix
        have hhead := head?_of_stripMarks hr
        rw [IsNegated, ← hrest, List.head?_append, hhead, Option.some_or]
      · cases h

/-! ## Decisions -/

variable {rules : List IgnoreRule} {names : List String} {isFolder : Bool}

/-- Whether a rule holds for a path or a folder around it. The names are the last one first. -/
def holdsUp (r : IgnoreRule) (isFolder : Bool) : List String → Bool
  | [] => r.holds "" isFolder
  | name :: above =>
    r.holds ("/".intercalate (name :: above).reverse) isFolder || r.holdsUp true above

theorem named_holdsUp (n : String) (below above : List String) (isFolder : Bool) :
    (named n).holdsUp isFolder (below ++ n :: above) = true := by
  induction below generalizing isFolder with
  | nil =>
    have hcovers := Glob.covers_named above.reverse n
    simp [holdsUp, holds, named, hcovers]
  | cons name below ih => rw [List.cons_append, holdsUp, ih, Bool.or_true]

/-- Rules that hold for a path decide on it; without an exception they ignore it. -/
theorem decide?_eq {path : String}
    (hno : ∀ r ∈ rules, r.isException = true → r.holds path isFolder = false) :
    decide? rules path isFolder = none ∧ (∀ r ∈ rules, r.holds path isFolder = false) ∨
      decide? rules path isFolder = some true := by
  unfold decide?
  cases hfind : rules.reverse.find? (·.holds path isFolder) with
  | none =>
    refine .inl ⟨rfl, fun r hr => ?_⟩
    simpa using List.find?_eq_none.mp hfind r (List.mem_reverse.mpr hr)
  | some r =>
    right
    have hholds : r.holds path isFolder = true := by simpa using List.find?_some hfind
    have hmem := List.mem_reverse.mp (List.mem_of_find?_eq_some hfind)
    cases hexception : r.isException with
    | false => simp [hexception]
    | true =>
      rw [hno r hmem hexception] at hholds
      cases hholds

/-- A rule that holds for a path or a folder around it, and no exception that does. -/
theorem decideUp?_eq_true (h : ∃ r ∈ rules, r.holdsUp isFolder names = true)
    (hno : ∀ r ∈ rules, r.isException = true → r.holdsUp isFolder names = false) :
    decideUp? rules isFolder names = some true := by
  induction names generalizing isFolder with
  | nil =>
    obtain ⟨r, hr, hholds⟩ := h
    rcases decide?_eq hno with ⟨_, hnone⟩ | hsome
    · rw [holdsUp, hnone r hr] at hholds
      cases hholds
    · exact hsome
  | cons name above ih =>
    simp only [holdsUp, Bool.or_eq_false_iff] at hno
    rw [decideUp?]
    rcases decide?_eq fun r hr hexception => (hno r hr hexception).1 with ⟨hnone, hall⟩ | hsome
    · rw [hnone, Option.none_or]
      refine ih ?_ fun r hr hexception => (hno r hr hexception).2
      obtain ⟨r, hr, hholds⟩ := h
      rw [holdsUp, hall r hr, Bool.false_or] at hholds
      exact ⟨r, hr, hholds⟩
    · rw [hsome, Option.some_or]

theorem mem_ofLines {lines : List String} {r : IgnoreRule} :
    r ∈ ofLines lines ↔ ∃ line ∈ lines, parse line = .rule r := by
  have hrule : ∀ l : Line, l.rule? = some r ↔ l = .rule r := by
    intro l
    cases l <;> simp [Line.rule?]
  simp only [ofLines, List.mem_filterMap, hrule]

end IgnoreRule

/-! ## The library -/

namespace IgnoreRules

variable {s s' : IgnoreRules} {root : Path} {lines : List String} {contents : List ByteArray}

theorem foldl_addFile (contents : List ByteArray) : contents.foldl addFile s =
    { s with rules := s.rules ++ contents.flatMap IgnoreRule.ofFile } := by
  induction contents generalizing s with
  | nil => simp
  | cons content contents ih =>
    rw [List.foldl_cons, ih, List.flatMap_cons, ← List.append_assoc]
    rfl

/-- Lines that are taken add their rules. -/
theorem of_foldlM_addLine? (h : lines.foldlM addLine? s = some s') :
    s' = { s with rules := s.rules ++ IgnoreRule.ofLines lines } := by
  induction lines generalizing s with
  | nil =>
    cases h
    simp [IgnoreRule.ofLines]
  | cons line lines ih =>
    rw [List.foldlM_cons] at h
    obtain ⟨next, hnext, hrest⟩ := Option.bind_eq_some_iff.mp h
    obtain rfl := ih hrest
    unfold addLine? at hnext
    split at hnext
    · rename_i r hline
      cases hnext
      simp [IgnoreRule.ofLines, hline, IgnoreRule.Line.rule?]
    · rename_i hline
      cases hnext
      simp [IgnoreRule.ofLines, hline, IgnoreRule.Line.rule?]
    · cases hnext

theorem start_of_not_dotted (h : Text.begins "./" root.text = false) :
    start root = { folder := root } := by
  have hstrip : Text.stripStart ['.', '/'] root.text.toList = none :=
    if_neg (Bool.eq_false_iff.mp h)
  rw [start, hstrip]
  rfl

/-- The rules that were taken: those in the files, then those in the lines. -/
theorem of_assemble? (hroot : Text.begins "./" root.text = false)
    (h : IgnoreRule.library.assemble? root contents lines = some s) :
    s = ⟨root, contents.flatMap IgnoreRule.ofFile ++ IgnoreRule.ofLines lines⟩ := by
  obtain ⟨draft, hdraft, hbuild⟩ := Option.bind_eq_some_iff.mp h
  cases hbuild
  have hfiles : contents.foldl IgnoreRule.library.addFile (IgnoreRule.library.start root) =
      { folder := root, rules := contents.flatMap IgnoreRule.ofFile } := by
    change contents.foldl addFile (start root) = _
    rw [foldl_addFile, start_of_not_dotted hroot]
    rfl
  rw [hfiles] at hdraft
  exact of_foldlM_addLine? hdraft

end IgnoreRules

namespace IgnoreRule

/-- A line whose rule is an exception and holds for a path or a folder around it. -/
def Excepts (root : Path) (line : String) (p : Path) : Prop :=
  ∃ r steps isFolder, parse line = .rule r ∧ r.isException = true ∧
    p.relativeTo? root = some steps ∧ r.holdsUp isFolder (namesUp steps) = true

theorem mem_namesUp {n : String} {steps : List Component} (h : .name n ∈ steps) :
    n ∈ namesUp steps :=
  List.mem_reverse.mpr (List.mem_map.mpr ⟨.name n, List.mem_filter.mpr ⟨h, by simp⟩, rfl⟩)

theorem library_ignoresNames : library.IgnoresNames Excepts where
  folder hroot h := by
    obtain rfl := IgnoreRules.of_assemble? hroot h
    rfl
  ignores {root contents lines rules p steps n} hroot h hfiles hbelow hmem hn hplain hno isFolder := by
    obtain rfl := IgnoreRules.of_assemble? hroot h
    have hsteps : p.relativeTo? root = some steps := Path.relativeTo?_eq_some.mpr hbelow
    obtain ⟨below, above, hnames⟩ := List.append_of_mem (mem_namesUp hmem)
    have hdecide : decideUp? (contents.flatMap ofFile ++ ofLines lines) isFolder (namesUp steps) =
        some true := by
      refine decideUp?_eq_true ⟨named n, ?_, hnames ▸ named_holdsUp n _ _ _⟩ ?_
      · exact List.mem_append_right _ (mem_ofLines.mpr ⟨n, hn, parse_of_isPlainName hplain⟩)
      · intro r hr hexception
        rcases List.mem_append.mp hr with hr | hr
        · obtain ⟨content, hcontent, hr⟩ := List.mem_flatMap.mp hr
          obtain ⟨line, hline, hparse⟩ := mem_ofLines.mp hr
          exact absurd (isNegated_of_parse hparse hexception) (hfiles content hcontent line hline)
        · obtain ⟨line, hline, hparse⟩ := mem_ofLines.mp hr
          refine Bool.eq_false_iff.mpr fun hholds => hno line hline ?_
          exact ⟨r, steps, isFolder, hparse, hexception, hsteps, hholds⟩
    change (p.relativeTo? root).any _ = true
    rw [hsteps, Option.any_some, hdecide]
    rfl

end IgnoreRule

/-! ## Watchers -/

namespace Watcher

variable {L : IgnoreLibrary} {Excepts : Path → String → Path → Prop} {d d' : Disk} {root p : Path}
  {s : WatcherSettings} {w : Watcher L} {n : String} {steps : List Component}

theorem openAt?_spec (h : openAt? L d root s = some w) :
    w.extensions = s.extensions ∧ w.rules = rulesFor? L d root s := by
  unfold openAt? at h
  dsimp only at h
  split at h <;> cases h <;> exact ⟨rfl, rfl⟩

/--
Take a path that leads below the root through a name among the patterns. A watcher that uses ignore
rules, and whose library takes the patterns, ignores it. For all other watchers the extension decides
alone.
-/
theorem ignores_listed_name (hL : L.IgnoresNames Excepts) (hopen : openAt? L d root s = some w)
    (hroot : Text.begins "./" root.text = false) (hfiles : NoneNegated (ignoreContents d root))
    (hbelow : p.components = root.components ++ steps) (hmem : .name n ∈ steps)
    (hn : n ∈ s.ignorePatterns) (hplain : IsPlainName n)
    (hno : ∀ line ∈ s.ignorePatterns, ¬ Excepts root line p) :
    w.ignores d' p = (s.useIgnoreFiles &&
      (L.assemble? root (ignoreContents d root) s.ignorePatterns).isSome ||
        !Tracker.hasExtension s.extensions p) := by
  obtain ⟨hextensions, hrules⟩ := openAt?_spec hopen
  have hexcluded : w.isExcluded d' p = (s.useIgnoreFiles &&
      (L.assemble? root (ignoreContents d root) s.ignorePatterns).isSome) := by
    rw [isExcluded, hrules, rulesFor?]
    cases huse : s.useIgnoreFiles with
    | false => rfl
    | true =>
      cases hassemble : L.assemble? root (ignoreContents d root) s.ignorePatterns with
      | none => rfl
      | some rules =>
        have hbase : p.isBelow (L.folder rules) = true := by
          rw [hL.folder hroot hassemble, Path.isBelow, List.isPrefixOf_iff_prefix, hbelow]
          exact List.prefix_append _ _
        simp [hbase, hL.ignores hroot hassemble hfiles hbelow hmem hn hplain hno]
  rw [ignores, hexcluded, hextensions]

/-- A folder with one ignore file. -/
def yard : Disk where
  top := .folder "w" (.file ".gitignore" "dist\n".toUTF8 .nil) .nil
  current := []

/-- A file below the folder, through the name `node_modules`. -/
def bundled : Path := ⟨"/w/src/node_modules/a.ts"⟩

/--
With the default settings the file is ignored. It is not if ignore files are not to be used, nor if a
pattern is a lone brace.
-/
theorem ignores_listed_name_bundled :
    (∃ w, openAt? IgnoreRule.library yard ⟨"/w"⟩ {} = some w ∧ w.ignores yard bundled = true) ∧
    (∃ w, openAt? IgnoreRule.library yard ⟨"/w"⟩ { useIgnoreFiles := false } = some w ∧
      w.ignores yard bundled = false) ∧
    ∃ w, openAt? IgnoreRule.library yard ⟨"/w"⟩ { ignorePatterns := ["node_modules", "\x7b"] } =
      some w ∧ w.ignores yard bundled = false := by
  have hfiles : NoneNegated (ignoreContents yard ⟨"/w"⟩) := by
    have hcontents : ignoreContents yard ⟨"/w"⟩ = ["dist\n".toUTF8] := rfl
    have hlines : IgnoreRule.linesOf "dist\n".toUTF8 = ["dist", ""] := by decide +kernel
    intro content hcontent line hline
    rw [hcontents, List.mem_singleton] at hcontent
    rw [hcontent, hlines] at hline
    revert line
    decide
  have hplain : IsPlainName "node_modules" :=
    ⟨by decide, by simp [Glob.isSpecial], by decide, by decide, by decide⟩
  have hbelow : bundled.components =
      (Path.mk "/w").components ++ [.name "src", .name "node_modules", .name "a.ts"] := by decide
  have hignores : ∀ (s : WatcherSettings) (w : Watcher IgnoreRule.library),
      openAt? IgnoreRule.library yard ⟨"/w"⟩ s = some w → "node_modules" ∈ s.ignorePatterns →
      (∀ line ∈ s.ignorePatterns, ¬ IsNegated line) → w.ignores yard bundled = (s.useIgnoreFiles &&
        (IgnoreRule.library.assemble? ⟨"/w"⟩ (ignoreContents yard ⟨"/w"⟩) s.ignorePatterns).isSome ||
          !Tracker.hasExtension s.extensions bundled) := by
    intro s w hopen hn hno
    refine ignores_listed_name IgnoreRule.library_ignoresNames hopen (by decide) hfiles hbelow
      (by decide) hn hplain ?_
    rintro line hline ⟨r, _, _, hparse, hexception, _⟩
    exact hno line hline (IgnoreRule.isNegated_of_parse hparse hexception)
  refine ⟨⟨_, rfl, (hignores _ _ rfl (by decide) (by decide)).trans ?_⟩,
    ⟨_, rfl, (hignores _ _ rfl (by decide) (by decide)).trans ?_⟩,
    ⟨_, rfl, (hignores _ _ rfl (by decide) (by decide)).trans ?_⟩⟩
  · decide +kernel
  · decide +kernel
  · decide +kernel

end Watcher

end SourceGraph
