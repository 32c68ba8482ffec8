import Mathlib.Data.List.Infix
import SourceGraph.Disk.Basic
import SourceGraph.FileId
import SourceGraph.Graph.Basic
import SourceGraph.Proofs.Text

/-!
# Clean paths

A clean path is absolute and leads along names, without `.`, `..` or repeated separators. For clean
paths the three ways to compare files agree: by components, by the key of a tracked file, and by
the id below the root of a workspace.

* `Path.IsName`, `FileId.IsPlain`: the names that a path can lead along, and those of them that
  ids can be made of.
* `Path.LeadsFrom`: a clean path that leads from a root along plain names.
* `Path.IsUnder`: such a path, whatever its names are.
* `Path.IsClean`: a path that leads along plain names from the top, below a root or not.
* `FileId.isWithin_iff`: folder scoping is a comparison of whole segments.
* `Path.LeadsFrom.key_injective`, `Path.LeadsFrom.isWithin_key_iff`: keys tell paths below a root
  apart, and scope them as their names do.
* `Path.order_eq_iff`: the order of paths compares their components.
-/

set_option autoImplicit false

namespace SourceGraph

/-! ## Names -/

/-- A text that can be the name of a file or a folder. -/
structure Path.IsName (n : String) : Prop where
  ne_empty : n ≠ ""
  ne_here : n ≠ "."
  ne_up : n ≠ ".."
  no_separator : '/' ∉ n.toList

/-- A name in which nothing has a meaning in keys and ids. -/
structure FileId.IsPlain (n : String) : Prop extends Path.IsName n where
  no_backslash : '\\' ∉ n.toList
  no_idSeparator : ¬ idSeparator <:+: n.toList

namespace Path

theorem isName_iff (n : String) :
    IsName n ↔ n ≠ "" ∧ n ≠ "." ∧ n ≠ ".." ∧ '/' ∉ n.toList :=
  ⟨fun h => ⟨h.1, h.2, h.3, h.4⟩, fun h => ⟨h.1, h.2.1, h.2.2.1, h.2.2.2⟩⟩

instance (n : String) : Decidable (IsName n) := decidable_of_iff' _ (isName_iff n)

theorem IsName.counts {n : String} (h : IsName n) : counts n = true := by
  simp [Path.counts, h.ne_empty, h.ne_here]

theorem IsName.toList_ne_nil {n : String} (h : IsName n) : n.toList ≠ [] :=
  fun hnil => h.ne_empty (String.toList_eq_nil_iff.mp hnil)

theorem IsName.ofSegment {n : String} (h : IsName n) : Component.ofSegment n = .name n := by
  simp [Component.ofSegment, h.ne_up]

/-- The components of segments that are names. -/
theorem components_of_names {names : List String} (hn : ∀ n ∈ names, IsName n) :
    (names.filter counts).map Component.ofSegment = names.map .name := by
  rw [List.filter_eq_self.mpr fun n h => (hn n h).counts]
  exact List.map_congr_left fun n h => (hn n h).ofSegment

end Path

theorem FileId.isPlain_iff (n : String) :
    IsPlain n ↔ Path.IsName n ∧ '\\' ∉ n.toList ∧ ¬ idSeparator <:+: n.toList :=
  ⟨fun h => ⟨h.1, h.2, h.3⟩, fun h => ⟨h.1, h.2.1, h.2.2⟩⟩

instance (n : String) : Decidable (FileId.IsPlain n) := decidable_of_iff' _ (FileId.isPlain_iff n)

namespace Path

/-! ## The text of a clean path -/

/-- Names with a separator before each. -/
def trail (names : List String) : List Char := names.flatMap fun n => '/' :: n.toList

theorem trail_append (xs ys : List String) : trail (xs ++ ys) = trail xs ++ trail ys := by
  simp [trail]

/-- A trail is the text that joins the names, behind a separator. -/
theorem trail_eq_cons {names : List String} (hne : names ≠ []) :
    trail names = '/' :: ("/".intercalate names).toList := by
  induction names with
  | nil => exact absurd rfl hne
  | cons n names ih =>
    cases names with
    | nil => simp [trail]
    | cons m names =>
      have h := ih (by simp)
      rw [trail, List.flatMap_cons, ← trail, h, String.intercalate_cons_cons]
      simp

theorem text_absolute {names : List String} (hne : names ≠ []) :
    (Disk.absolute names).text.toList = trail names := by
  rw [trail_eq_cons hne]
  simp [Disk.absolute]

theorem splitOn_trail {names : List String} (hn : ∀ n ∈ names, '/' ∉ n.toList) :
    (trail names).splitOn '/' = [] :: names.map String.toList := by
  by_cases hne : names = []
  · simp [hne, trail]
  · rw [trail_eq_cons hne, List.splitOn_cons_eq_if_modifyHead, Text.splitOn_intercalate hne hn]
    simp

theorem trail_injective {xs ys : List String} (hx : ∀ n ∈ xs, '/' ∉ n.toList)
    (hy : ∀ n ∈ ys, '/' ∉ n.toList) (h : trail xs = trail ys) : xs = ys := by
  have hsplit := congrArg (List.splitOn '/') h
  rw [splitOn_trail hx, splitOn_trail hy, List.cons.injEq] at hsplit
  exact (List.map_inj_right fun _ _ => String.toList_inj.mp).mp hsplit.2

/-! ## Components -/

theorem components_eq (p : Path) (h : p.isAbsolute = true) :
    p.components = .root :: (p.segments.filter counts).map .ofSegment := by
  simp [components, h]

theorem isAbsolute_absolute (names : List String) : (Disk.absolute names).isAbsolute = true := by
  simp [isAbsolute, Disk.absolute]

theorem segments_absolute {names : List String} (hn : ∀ n ∈ names, '/' ∉ n.toList) :
    (Disk.absolute names).segments.filter counts = names.filter counts := by
  by_cases hne : names = []
  · subst hne
    decide
  · have htext : (Disk.absolute names).text = "" ++ "/" ++ "/".intercalate names := by
      simp [Disk.absolute]
    rw [segments, htext, Text.segments_append, Text.segments_intercalate hne hn]
    simp [Text.segments, counts]

/-- A clean path has its names as components. -/
theorem components_absolute {names : List String} (hn : ∀ n ∈ names, IsName n) :
    (Disk.absolute names).components = .root :: names.map .name := by
  rw [components_eq _ (isAbsolute_absolute names),
    segments_absolute fun n h => (hn n h).no_separator, components_of_names hn]

/-- Only an absolute path has the start of one among its components. -/
theorem isAbsolute_of_root_mem {p : Path} (h : .root ∈ p.components) : p.isAbsolute = true := by
  have hseg : ∀ l : List String, .root ∉ l.map Component.ofSegment := by
    intro l hmem
    obtain ⟨s, _, hs⟩ := List.mem_map.mp hmem
    unfold Component.ofSegment at hs
    split at hs <;> cases hs
  cases habs : p.isAbsolute with
  | true => rfl
  | false =>
    simp only [components, habs] at h
    rcases List.mem_append.mp h with h | h
    · split at h <;> simp_all
    · exact absurd h (hseg _)

/-- Names that are joined make a relative path. -/
theorem isAbsolute_intercalate {names : List String} (hne : names ≠ [])
    (hn : ∀ n ∈ names, IsName n) : (Path.mk ("/".intercalate names)).isAbsolute = false := by
  obtain ⟨n, rest, rfl⟩ := List.exists_cons_of_ne_nil hne
  have hname := hn n List.mem_cons_self
  obtain ⟨c, cs, hc⟩ := List.exists_cons_of_ne_nil hname.toList_ne_nil
  have hsep : c ≠ '/' := by
    rintro rfl
    exact hname.no_separator (by simp [hc])
  cases rest with
  | nil => simp [isAbsolute, hc, hsep]
  | cons m rest => simp [isAbsolute, hc, hsep, String.intercalate_cons_cons]

theorem isAbsolute_join {p : Path} (q : Path) (h : p.isAbsolute = true) :
    (p.join q).isAbsolute = true := by
  have hp : p.text.toList.head? = some '/' := by simpa [isAbsolute] using h
  unfold join
  split
  · assumption
  · split
    · simp_all
    · split <;> simp [isAbsolute, List.head?_append, hp]

theorem isAbsolute_of_absoluteFrom? {p current root : Path}
    (h : p.absoluteFrom? current = some root) (hcurrent : current.isAbsolute = true) :
    root.isAbsolute = true := by
  have hsteps : ∀ (steps : List Component) (base : Path), base.isAbsolute = true →
      (steps.foldl (fun acc c => acc.join ⟨c.text⟩) base).isAbsolute = true := by
    intro steps
    induction steps with
    | nil => exact fun _ hbase => hbase
    | cons c steps ih => exact fun base hbase => ih _ (isAbsolute_join _ hbase)
  unfold absoluteFrom? at h
  split at h
  · cases h
  · dsimp only at h
    rw [Option.some.injEq] at h
    have hbase : Path.isAbsolute (if !p.isAbsolute then current
        else if Text.begins "//" p.text && !Text.begins "///" p.text then ⟨"//"⟩ else ⟨"/"⟩) = true := by
      split
      · exact hcurrent
      · split <;> decide
    rw [← h]
    split
    · exact isAbsolute_join _ (hsteps _ _ hbase)
    · exact hsteps _ _ hbase

theorem ofSegment_injective : Function.Injective Component.ofSegment := by
  intro s t h
  unfold Component.ofSegment at h
  split at h
  · split at h
    · simp_all
    · cases h
  · split at h
    · cases h
    · exact Component.name.inj h

/-- A separator at the end of the first path is the one between the two. -/
theorem segments_join {p q : Path} (hne : p.text ≠ "") (hq : q.isAbsolute = false) :
    ∃ front tail, front ≠ [] ∧ (tail = [] ∨ tail = [""]) ∧ p.segments = front ++ tail ∧
      (p.join q).segments = front ++ q.segments := by
  unfold join
  rw [if_neg (by simp [hq]), if_neg hne]
  split
  · rename_i hlast
    obtain ⟨cs, hcs⟩ : ∃ cs, p.text.toList = cs ++ ['/'] := List.getLast?_eq_some_iff.mp hlast
    have hpt : p.text = String.ofList cs ++ "/" ++ "" := by
      apply String.toList_inj.mp
      simp [hcs]
    have hpq : p.text ++ q.text = String.ofList cs ++ "/" ++ q.text := by rw [hpt]; simp
    refine ⟨Text.segments '/' (String.ofList cs), [""], Text.segments_ne_nil '/' _, Or.inr rfl, ?_, ?_⟩
    · rw [segments, hpt, Text.segments_append]
      rfl
    · rw [segments, hpq, Text.segments_append]
      rfl
  · exact ⟨p.segments, [], Text.segments_ne_nil '/' _, Or.inl rfl, by simp,
      Text.segments_append p.text q.text⟩

theorem filter_segments_join {p q : Path} (hne : p.text ≠ "") (hq : q.isAbsolute = false) :
    (p.join q).segments.filter counts =
      p.segments.filter counts ++ q.segments.filter counts := by
  obtain ⟨front, tail, -, htail, hp, hjoin⟩ := segments_join hne hq
  have hnone : tail.filter counts = [] := by rcases htail with rfl | rfl <;> rfl
  rw [hp, hjoin, List.filter_append, List.filter_append, hnone, List.append_nil]

/-- What is joined to an absolute path adds its segments to the components. -/
theorem components_join {p q : Path} (hp : p.isAbsolute = true) (hq : q.isAbsolute = false) :
    (p.join q).components = p.components ++ (q.segments.filter counts).map .ofSegment := by
  have hne : p.text ≠ "" := by
    rintro h
    simp [isAbsolute, h] at hp
  rw [components_eq _ (isAbsolute_join q hp), components_eq p hp, filter_segments_join hne hq,
    List.map_append]
  rfl

/-! ## Texts without a separator at the end -/

theorem trimSeparators_eq_self {s : String} (h : s.toList.getLast? ≠ some '/') :
    trimSeparators s = s := by
  have hkept : Text.dropTrailing '/' s.toList = s.toList := by
    rw [Text.dropTrailing]
    cases hs : s.toList.reverse with
    | nil => simpa using hs
    | cons c cs =>
      have hc : s.toList.getLast? = some c := by
        rw [← List.head?_reverse, hs, List.head?_cons]
      have hne : (c == '/') = false := by
        rw [beq_eq_false_iff_ne]
        rintro rfl
        exact h hc
      rw [List.dropWhile_cons, hne, if_neg (by simp), ← hs, List.reverse_reverse]
  unfold trimSeparators
  rw [hkept]
  cases hs : s.toList with
  | nil => rw [String.toList_eq_nil_iff.mp hs]; decide
  | cons c cs =>
    change String.ofList (c :: cs) = s
    rw [← hs, String.ofList_toList]

/-- Separators at the end are cut off; only `/` keeps one. -/
theorem trimSeparators_cases (s : String) :
    trimSeparators s = "/" ∧ (∃ n, s.toList = List.replicate n '/') ∨
      (trimSeparators s = "" → s = "") ∧ (trimSeparators s).toList.getLast? ≠ some '/' ∧
        ∃ n, s.toList = (trimSeparators s).toList ++ List.replicate n '/' := by
  obtain ⟨n, hn⟩ := Text.dropTrailing_append '/' s.toList
  have hlast := Text.getLast?_dropTrailing '/' s.toList
  unfold trimSeparators
  split
  · rename_i hnil
    rw [hnil, List.nil_append] at hn
    split
    · exact Or.inl ⟨rfl, n, hn⟩
    · rename_i hbegins
      have hzero : n = 0 := by
        cases n with
        | zero => rfl
        | succ n => simp [Text.begins, hn, List.replicate_succ] at hbegins
      have hempty : s = "" := by simpa [hzero] using hn
      exact Or.inr ⟨fun _ => hempty, by simp, 0, by simp [hempty]⟩
  · rename_i hne
    rw [String.toList_ofList]
    refine Or.inr ⟨fun h => ?_, hlast, n, hn⟩
    rw [String.ofList_eq_empty_iff] at h
    exact absurd h hne

theorem getLast?_trail_of_ne (start : List Char) {names : List String} (hne : names ≠ [])
    (hn : ∀ n ∈ names, n ≠ "" ∧ '/' ∉ n.toList) : (start ++ trail names).getLast? ≠ some '/' := by
  obtain ⟨init, n, rfl⟩ := (List.eq_nil_or_concat names).resolve_left hne
  rw [List.concat_eq_append] at hn ⊢
  obtain ⟨hempty, hname⟩ := hn n (by simp)
  obtain ⟨cs, c, hc⟩ := (List.eq_nil_or_concat n.toList).resolve_left fun hnil =>
    hempty (String.toList_eq_nil_iff.mp hnil)
  rw [List.concat_eq_append] at hc
  have hsep : c ≠ '/' := by
    rintro rfl
    exact hname (by simp [hc])
  have hlast : trail [n] = '/' :: cs ++ [c] := by simp [trail, hc]
  rw [trail_append, hlast, ← List.append_assoc, ← List.append_assoc, List.getLast?_concat]
  simpa using hsep

theorem getLast?_trail (start : List Char) {names : List String} (hne : names ≠ [])
    (hn : ∀ n ∈ names, IsName n) : (start ++ trail names).getLast? ≠ some '/' :=
  getLast?_trail_of_ne start hne fun n h => ⟨(hn n h).ne_empty, (hn n h).no_separator⟩

end Path

/-! ## Scoping -/

namespace FileId

/-- A folder holds itself and what follows behind a separator. -/
theorem isWithin_iff {path folder : String} (hlast : folder.toList.getLast? ≠ some '/')
    (hne : folder ≠ "") (hhere : folder ≠ ".") :
    isWithin path folder = true ↔
      path.toList = folder.toList ∨ ∃ rest, path.toList = folder.toList ++ '/' :: rest := by
  have hroot : folder ≠ "/" := by
    rintro rfl
    exact hlast (by decide)
  unfold isWithin
  rw [Path.trimSeparators_eq_self hlast]
  simp only [hne, hhere, hroot, or_self, if_false, Text.stripStart]
  by_cases hpre : folder.toList <+: path.toList
  · obtain ⟨rest, hrest⟩ := hpre
    have hdrop : path.toList.drop folder.toList.length = rest := by
      rw [← hrest, List.drop_left]
    rw [if_pos (List.isPrefixOf_iff_prefix.mpr ⟨rest, hrest⟩), hdrop, ← hrest]
    cases rest with
    | nil => simp
    | cons c cs => simp
  · rw [if_neg (by rw [List.isPrefixOf_iff_prefix]; exact hpre)]
    refine iff_of_false (by simp) ?_
    rintro (h | ⟨rest, h⟩)
    · exact hpre (h ▸ List.prefix_rfl)
    · exact hpre ⟨_, h.symm⟩

/-- Texts that are put together from segments are scoped by these. -/
theorem isWithin_intercalate {names more : List String} (hne : names ≠ []) (hne' : more ≠ [])
    (hnames : ∀ n ∈ names, n ≠ "" ∧ n ≠ "." ∧ '/' ∉ n.toList)
    (hmore : ∀ n ∈ more, '/' ∉ n.toList) :
    isWithin ("/".intercalate more) ("/".intercalate names) = true ↔ names <+: more := by
  have hseparator : ∀ n ∈ names, '/' ∉ n.toList := fun n hn => (hnames n hn).2.2
  have hlast : ("/".intercalate names).toList.getLast? ≠ some '/' := by
    have h := Path.getLast?_trail_of_ne [] hne fun n hn => ⟨(hnames n hn).1, hseparator n hn⟩
    rw [List.nil_append, Path.trail_eq_cons hne, List.getLast?_cons] at h
    intro e
    rw [e] at h
    exact h rfl
  -- a text of one segment that does not count is not put together from segments that do
  have hnot : ∀ s, Text.segments '/' s = [s] → ¬ (s ≠ "" ∧ s ≠ ".") → "/".intercalate names ≠ s := by
    intro s hone hs e
    have hsegments := Text.segments_intercalate hne hseparator
    rw [e, hone] at hsegments
    have hcounts := hnames s (hsegments ▸ List.mem_singleton_self s)
    exact hs ⟨hcounts.1, hcounts.2.1⟩
  have hempty := hnot "" (by decide) (by decide)
  have hhere := hnot "." (by decide) (by decide)
  rw [isWithin_iff hlast hempty hhere, ← Text.splitOn_prefix_iff,
    Text.splitOn_intercalate hne hseparator, Text.splitOn_intercalate hne' hmore]
  exact List.prefix_map_iff_of_injective fun _ _ => String.toList_inj.mp

theorem isWithin_root {path : String} : isWithin path "/" = true ↔ path.toList.head? = some '/' := by
  rw [isWithin, show Path.trimSeparators "/" = "/" by decide]
  cases hpath : path.toList with
  | nil => simp [Text.begins, hpath]
  | cons c cs =>
    simp only [Text.begins, hpath]
    simp
    exact eq_comm

theorem isWithin_trimSeparators (path folder : String) :
    isWithin path (Path.trimSeparators folder) = isWithin path folder := by
  have htwice : Path.trimSeparators (Path.trimSeparators folder) = Path.trimSeparators folder := by
    rcases Path.trimSeparators_cases folder with ⟨hroot, _⟩ | ⟨_, hlast, _⟩
    · rw [hroot]
      decide
    · exact Path.trimSeparators_eq_self hlast
  unfold isWithin
  rw [htwice]

/-- What stands in an absolute folder is absolute. -/
theorem head?_of_isWithin {path folder : String} (hfolder : folder.toList.head? = some '/')
    (h : isWithin path folder = true) : path.toList.head? = some '/' := by
  rw [← isWithin_trimSeparators] at h
  rcases Path.trimSeparators_cases folder with ⟨hroot, _⟩ | ⟨hempty, hlast, n, htext⟩
  · rw [hroot] at h
    exact isWithin_root.mp h
  · cases hscope : (Path.trimSeparators folder).toList with
    | nil =>
      rw [hempty (String.toList_eq_nil_iff.mp hscope)] at hfolder
      cases hfolder
    | cons c cs =>
      have hc : (c :: cs).head? = some '/' := by
        rw [htext, hscope] at hfolder
        exact hfolder
      have hne : Path.trimSeparators folder ≠ "" := fun e => by simp [e] at hscope
      have hhere : Path.trimSeparators folder ≠ "." := by
        intro e
        rw [e] at hscope
        cases hscope
        cases hc
      rw [isWithin_iff hlast hne hhere, hscope] at h
      rcases h with h | ⟨rest, h⟩
      · rw [h]
        exact hc
      · rw [h]
        exact hc

/-- A text ends with a folder, or goes on behind a separator. -/
def Leads (folder path : List Char) : Prop := path = folder ∨ ∃ rest, path = folder ++ '/' :: rest

theorem Leads.trans {a b c : List Char} (h : Leads a b) (h' : Leads b c) : Leads a c := by
  rcases h with rfl | ⟨rest, rfl⟩
  · exact h'
  · rcases h' with rfl | ⟨more, rfl⟩
    · exact Or.inr ⟨rest, rfl⟩
    · exact Or.inr ⟨rest ++ '/' :: more, by simp⟩

/-- A separator in a path is the last one, or one of its folder. -/
theorem Leads.of_append {folder front rest base : List Char} (hbase : '/' ∉ base)
    (h : front ++ '/' :: base = folder ++ '/' :: rest) : Leads folder front := by
  rcases List.append_eq_append_iff.mp h with ⟨more, hfolder, hmore⟩ | ⟨more, hfront, hmore⟩
  · cases more with
    | nil => exact Or.inl (by simpa using hfolder.symm)
    | cons c more =>
      rw [List.cons_append, List.cons.injEq] at hmore
      exact absurd (hmore.2 ▸ by simp) hbase
  · cases more with
    | nil => exact Or.inl (by simpa using hfront)
    | cons c more =>
      rw [List.cons_append, List.cons.injEq] at hmore
      exact Or.inr ⟨more, by rw [hfront, hmore.1]⟩

/-- Separators at the end of a path are not those of a folder. -/
theorem Leads.of_replicate {folder front : List Char} {n : Nat} (hlast : folder.getLast? ≠ some '/')
    (h : Leads folder (front ++ List.replicate n '/')) : Leads folder front := by
  induction n with
  | zero => simpa using h
  | succ n ih =>
    refine ih ?_
    rw [List.replicate_succ', ← List.append_assoc] at h
    rcases h with h | ⟨rest, h⟩
    · rw [← h, List.getLast?_concat] at hlast
      exact absurd rfl hlast
    · exact Leads.of_append List.not_mem_nil h

/-- What a path leads to behind a folder is within the folder. -/
theorem isWithin_of_leads {path scope near : String} (hlast : scope.toList.getLast? ≠ some '/')
    (hne : scope ≠ "") (hhere : scope ≠ ".") (hnear : Leads scope.toList near.toList)
    (h : isWithin path near = true) : isWithin path scope = true := by
  rw [← isWithin_trimSeparators] at h
  rcases Path.trimSeparators_cases near with ⟨_, n, htext⟩ | ⟨_, hend, n, htext⟩
  · rw [htext] at hnear
    have hnil : Leads scope.toList [] := hnear.of_replicate hlast
    rcases hnil with hnil | ⟨rest, hnil⟩
    · exact absurd (String.toList_eq_nil_iff.mp hnil.symm) hne
    · simp at hnil
  · have hscope : Leads scope.toList (Path.trimSeparators near).toList := by
      rw [htext] at hnear
      exact hnear.of_replicate hlast
    obtain ⟨c, cs, hcons⟩ : ∃ c cs, scope.toList = c :: cs :=
      List.exists_cons_of_ne_nil fun e => hne (String.toList_eq_nil_iff.mp e)
    have hne₂ : Path.trimSeparators near ≠ "" := by
      intro e
      rw [e, hcons] at hscope
      rcases hscope with hscope | ⟨rest, hscope⟩ <;> simp at hscope
    have hhere₂ : Path.trimSeparators near ≠ "." := by
      intro e
      rw [e] at hscope
      rcases hscope with hscope | ⟨rest, hscope⟩
      · exact hhere (String.toList_inj.mp hscope.symm)
      · rw [hcons] at hscope
        simp at hscope
    rw [isWithin_iff hend hne₂ hhere₂] at h
    rw [isWithin_iff hlast hne hhere]
    exact hscope.trans h

theorem toList_of_parent {file : String} (h : parent file ≠ "") :
    ∃ base, file.toList = (parent file).toList ++ '/' :: base ∧ '/' ∉ base := by
  unfold parent at h ⊢
  cases hcut : Text.cutLast '/' file.toList with
  | none =>
    rw [hcut] at h
    exact absurd rfl h
  | some cut =>
    obtain ⟨htext, hbase⟩ := Text.cutLast_eq_some hcut
    exact ⟨cut.2, by simpa using htext, hbase⟩

/-- What stands in the folder of a file stands in every folder that the file stands in. -/
theorem isWithin_of_parent {path file folder : String} (hfile : isWithin file folder = true)
    (hne : Path.trimSeparators folder ≠ file) (hparent : parent file ≠ "")
    (h : isWithin path (parent file) = true) : isWithin path folder = true := by
  obtain ⟨base, htext, hbase⟩ := toList_of_parent hparent
  rw [← isWithin_trimSeparators] at hfile ⊢
  rcases Path.trimSeparators_cases folder with ⟨hscope, _⟩ | ⟨_, hlast, _⟩
  · rw [hscope, isWithin_root] at hfile ⊢
    refine head?_of_isWithin ?_ h
    obtain ⟨c, cs, hcons⟩ := List.exists_cons_of_ne_nil fun e =>
      hparent (String.toList_eq_nil_iff.mp e)
    rw [htext, hcons] at hfile
    rw [hcons]
    exact hfile
  · by_cases hempty : Path.trimSeparators folder = ""
    · simp [isWithin, hempty, show Path.trimSeparators "" = "" by decide]
    by_cases hhere : Path.trimSeparators folder = "."
    · simp [isWithin, hhere, show Path.trimSeparators "." = "." by decide]
    rw [isWithin_iff hlast hempty hhere] at hfile
    rcases hfile with hfile | ⟨rest, hfile⟩
    · exact absurd (String.toList_inj.mp hfile).symm hne
    · exact isWithin_of_leads hlast hempty hhere (.of_append hbase (htext.symm.trans hfile)) h

theorem ofPath?_of_not_prefix {root p : Path} (h : ¬ root.components <+: p.components) :
    ofPath? root p = none := by
  have hrel : p.relativeTo? root = none := by
    rw [Path.relativeTo?, if_neg (by rwa [List.isPrefixOf_iff_prefix])]
  simp [ofPath?, hrel]

/-- The id of a path that leads on from the root along names. -/
theorem ofPath?_of_components {root p : Path} {names : List String}
    (h : p.components = root.components ++ names.map .name) :
    ofPath? root p = if names = [] then none else some ("/".intercalate names) := by
  have hrel : p.relativeTo? root = some (names.map .name) := by
    have hpre : root.components.isPrefixOf p.components = true := by
      rw [List.isPrefixOf_iff_prefix, h]
      exact List.prefix_append _ _
    rw [Path.relativeTo?, if_pos hpre, h, List.drop_left]
  have hnames : (names.map Component.name).filterMap Component.name? = names := by
    rw [List.filterMap_map]
    simp [Function.comp_def, Component.name?]
  unfold ofPath?
  rw [hrel, Option.map_some, hnames]
  cases names <;> simp

end FileId

namespace Path

/-! ## Keys of paths -/

theorem mem_of_mem_trimSeparators {c : Char} {s : String} (h : c ∈ (trimSeparators s).toList) :
    c = '/' ∨ c ∈ s.toList := by
  unfold trimSeparators at h
  split at h
  · split at h <;> simp_all
  · rw [String.toList_ofList, Text.dropTrailing, List.mem_reverse] at h
    exact Or.inr (List.mem_reverse.mp ((List.dropWhile_sublist _).subset h))

theorem backslash_not_mem_normalized (p : Path) : '\\' ∉ p.normalized.toList := by
  intro h
  rcases mem_of_mem_trimSeparators h with h | h
  · exact absurd h (by decide)
  · rw [Text.replaceChar, String.toList_ofList, List.mem_map] at h
    obtain ⟨c, _, hc⟩ := h
    split at hc <;> simp_all

theorem mem_of_name_mem_components {text n : String} {c : Char}
    (h : .name n ∈ (Path.mk text).components) (hc : c ∈ n.toList) : c ∈ text.toList := by
  unfold components at h
  rcases List.mem_append.mp h with h | h
  · split at h
    · simp at h
    · split at h <;> simp at h
  · obtain ⟨s, hs, he⟩ := List.mem_map.mp h
    have hsn : s = n := by
      unfold Component.ofSegment at he
      split at he
      · cases he
      · exact Component.name.inj he
    subst hsn
    exact Text.mem_of_mem_segments (List.mem_filter.mp hs).1 hc

theorem normalized_absolute_of_ne {names : List String} (hn : ∀ n ∈ names, n ≠ "" ∧ '/' ∉ n.toList)
    (hback : '\\' ∉ trail names) : (Disk.absolute names).normalized = (Disk.absolute names).text := by
  by_cases hne : names = []
  · subst hne
    decide
  · have htext : Text.replaceChar '\\' '/' (Disk.absolute names).text =
        (Disk.absolute names).text :=
      Text.replaceChar_eq_self (by rwa [text_absolute hne])
    rw [normalized, htext, trimSeparators_eq_self]
    rw [text_absolute hne]
    exact getLast?_trail_of_ne [] hne hn

/-- A clean path without a `\` is its own key. -/
theorem normalized_absolute {names : List String} (hn : ∀ n ∈ names, IsName n)
    (hback : '\\' ∉ trail names) :
    Path.mk (Disk.absolute names).normalized = Disk.absolute names := by
  rw [normalized_absolute_of_ne (fun n h => ⟨(hn n h).ne_empty, (hn n h).no_separator⟩) hback]

theorem join_intercalate {names more : List String} (hn : ∀ n ∈ names, n ≠ "" ∧ '/' ∉ n.toList)
    (hne : more ≠ []) (hrel : (Path.mk ("/".intercalate more)).isAbsolute = false) :
    (Disk.absolute names).join ⟨"/".intercalate more⟩ = Disk.absolute (names ++ more) := by
  have htext : (Disk.absolute names).text ≠ "" := by simp [Disk.absolute]
  rw [Path.join, if_neg (by simp [hrel]), if_neg htext]
  by_cases hnil : names = []
  · rw [hnil]
    simp [Disk.absolute]
  · rw [if_neg (by rw [text_absolute hnil]; exact getLast?_trail_of_ne [] hnil hn)]
    rw [Disk.absolute, Disk.absolute, String.intercalate_append_of_ne_nil hnil hne]
    simp [String.append_assoc]

theorem join_absolute {names : List String} {n : String}
    (hn : ∀ m ∈ names, m ≠ "" ∧ '/' ∉ m.toList) (hsep : '/' ∉ n.toList) :
    (Disk.absolute names).join ⟨n⟩ = Disk.absolute (names ++ [n]) := by
  have hrel : (Path.mk n).isAbsolute = false := by
    rw [isAbsolute, beq_eq_false_iff_ne]
    exact fun hhead => hsep (List.mem_of_mem_head? hhead)
  have hone : "/".intercalate [n] = n := String.intercalate_singleton
  simpa only [hone] using join_intercalate hn (List.cons_ne_nil n []) (by rwa [hone])

/-! ## Paths below a root -/

/-- The names along which an absolute path leads, however it is spelled. -/
structure Follows (p : Path) (names : List String) : Prop where
  isName : ∀ n ∈ names, IsName n
  components : p.components = .root :: names.map .name

theorem Follows.unique {p : Path} {xs ys : List String} (hx : p.Follows xs) (hy : p.Follows ys) :
    xs = ys := by
  have h := hx.components.symm.trans hy.components
  rwa [List.cons.injEq, List.map_inj_right fun _ _ => Component.name.inj, and_iff_right rfl] at h

/-- The segments that count are the names. -/
theorem Follows.segments {p : Path} {names : List String} (h : p.Follows names) :
    p.segments.filter counts = names ∧ ".." ∉ p.segments := by
  have habs := isAbsolute_of_root_mem (h.components ▸ List.mem_cons_self)
  have hcomp := h.components
  rw [components_eq p habs, List.cons.injEq] at hcomp
  have hup : ".." ∉ p.segments := by
    intro hmem
    have : Component.up ∈ names.map .name := by
      rw [← hcomp.2]
      exact List.mem_map.mpr ⟨"..", List.mem_filter.mpr ⟨hmem, by decide⟩, by decide⟩
    simp at this
  refine ⟨?_, hup⟩
  have hname : (p.segments.filter counts).map Component.ofSegment =
      (p.segments.filter counts).map .name := by
    refine List.map_congr_left fun s hs => ?_
    have hs' : s ≠ ".." := fun e => hup (e ▸ (List.mem_filter.mp hs).1)
    simp [Component.ofSegment, hs']
  rw [hname, List.map_inj_right fun _ _ => Component.name.inj] at hcomp
  exact hcomp.2

/-- The clean path that leads from a root along plain names. -/
def LeadsFrom (root p : Path) (names : List String) : Prop :=
  (∀ n ∈ names, FileId.IsPlain n) ∧
    ∃ base, root.Follows base ∧ p = Disk.absolute (base ++ names)

namespace LeadsFrom

variable {root p q : Path} {names more : List String}

theorem isName (h : LeadsFrom root p names) : ∀ n ∈ names, IsName n :=
  fun n hn => (h.1 n hn).toIsName

theorem no_separator (h : LeadsFrom root p names) : ∀ n ∈ names, '/' ∉ n.toList :=
  fun n hn => (h.isName n hn).no_separator

theorem follows {base : List String} (hbase : root.Follows base) (h : LeadsFrom root p names) :
    p.Follows (base ++ names) := by
  obtain ⟨hplain, base', hbase', rfl⟩ := h
  obtain rfl := hbase.unique hbase'
  have hall : ∀ n ∈ base ++ names, IsName n := by
    intro n hn
    rcases List.mem_append.mp hn with hn | hn
    · exact hbase.isName n hn
    · exact (hplain n hn).toIsName
  exact ⟨hall, components_absolute hall⟩

theorem components (h : LeadsFrom root p names) :
    p.components = root.components ++ names.map .name := by
  obtain ⟨base, hbase, _⟩ := h.2
  rw [(h.follows hbase).components, hbase.components, List.map_append, List.cons_append]

theorem isAbsolute (h : LeadsFrom root p names) : p.isAbsolute = true := by
  obtain ⟨_, base, _, rfl⟩ := h
  simp [Path.isAbsolute, Disk.absolute]

/-- The id of the path, if it is not the root itself. -/
theorem fileId (h : LeadsFrom root p names) :
    FileId.ofPath? root p = if names = [] then none else some ("/".intercalate names) :=
  FileId.ofPath?_of_components h.components

/-- The names tell the paths below one root apart. -/
theorem eq_of_names (hp : LeadsFrom root p names) (hq : LeadsFrom root q names) : p = q := by
  obtain ⟨_, base, hbase, rfl⟩ := hp
  obtain ⟨_, base', hbase', rfl⟩ := hq
  rw [hbase.unique hbase']

theorem isBelow_iff (hp : LeadsFrom root p names) (hq : LeadsFrom root q more) :
    q.isBelow p = true ↔ names <+: more := by
  rw [isBelow, List.isPrefixOf_iff_prefix, hp.components, hq.components,
    List.prefix_append_right_inj]
  exact List.prefix_map_iff_of_injective fun _ _ => Component.name.inj

theorem same_iff (hp : LeadsFrom root p names) (hq : LeadsFrom root q more) :
    q.same p = true ↔ more = names := by
  rw [same, beq_iff_eq, hp.components, hq.components, List.append_cancel_left_eq,
    List.map_inj_right fun _ _ => Component.name.inj]

/-- The path of an id, spelled from the root, has the components of the clean path. -/
theorem components_join_id (h : LeadsFrom root p names) (hne : names ≠ []) :
    (root.join ⟨"/".intercalate names⟩).components = p.components := by
  obtain ⟨base, hbase, _⟩ := h.2
  have hroot : root.isAbsolute = true :=
    isAbsolute_of_root_mem (hbase.components ▸ List.mem_cons_self)
  have hsegs : (Path.mk ("/".intercalate names)).segments = names :=
    Text.segments_intercalate hne h.no_separator
  rw [components_join hroot (isAbsolute_intercalate hne h.isName), hsegs,
    components_of_names h.isName, h.components]

/-- One more name leads one folder down. -/
theorem join {n : String} (h : LeadsFrom root p names) (hn : FileId.IsPlain n) :
    LeadsFrom root (p.join ⟨n⟩) (names ++ [n]) := by
  obtain ⟨base, hbase, _⟩ := h.2
  have hall := (h.follows hbase).isName
  obtain ⟨hplain, base', hbase', rfl⟩ := h
  obtain rfl := hbase.unique hbase'
  refine ⟨?_, base, hbase, ?_⟩
  · intro m hm
    rcases List.mem_append.mp hm with hm | hm
    · exact hplain m hm
    · exact List.mem_singleton.mp hm ▸ hn
  · rw [← List.append_assoc]
    exact join_absolute (fun m hm => ⟨(hall m hm).ne_empty, (hall m hm).no_separator⟩)
      hn.no_separator

/-! ## Keys -/

/-- The key of a path below the root ends in its names. -/
theorem toList_normalized {base : List String} (hbase : root.Follows base)
    (h : LeadsFrom root p names) (hne : names ≠ []) :
    p.normalized.toList =
      (trail base).map (fun c => if c = '\\' then '/' else c) ++ trail names := by
  obtain ⟨hplain, base', hbase', rfl⟩ := h
  obtain rfl := hbase.unique hbase'
  have hback : '\\' ∉ trail names := by
    intro hmem
    obtain ⟨n, hn, hc⟩ := List.mem_flatMap.mp hmem
    rcases List.mem_cons.mp hc with hc | hc
    · exact absurd hc (by decide)
    · exact (hplain n hn).no_backslash hc
  have hlast := getLast?_trail ((trail base).map fun c => if c = '\\' then '/' else c) hne
    fun n hn => (hplain n hn).toIsName
  rw [normalized, Text.replaceChar, text_absolute (by simp [hne]), trail_append, List.map_append,
    Text.map_replace_of_not_mem hback, trimSeparators_eq_self (by rwa [String.toList_ofList]),
    String.toList_ofList]

/-- Keys tell the paths below one root apart. -/
theorem key_injective (hp : LeadsFrom root p names) (hq : LeadsFrom root q more)
    (hne : names ≠ []) (hne' : more ≠ []) (h : p.normalized = q.normalized) : names = more := by
  obtain ⟨base, hbase, _⟩ := hp.2
  have htext := congrArg String.toList h
  rw [hp.toList_normalized hbase hne, hq.toList_normalized hbase hne',
    List.append_cancel_left_eq] at htext
  exact trail_injective hp.no_separator hq.no_separator htext

/-- Keys are scoped by the names below the root. -/
theorem isWithin_key_iff (hp : LeadsFrom root p names) (hq : LeadsFrom root q more)
    (hne : names ≠ []) (hne' : more ≠ []) :
    FileId.isWithin q.normalized p.normalized = true ↔ names <+: more := by
  obtain ⟨base, hbase, _⟩ := hp.2
  have hkey := hp.toList_normalized hbase hne
  have hlast : p.normalized.toList.getLast? ≠ some '/' := by
    rw [hkey]
    exact getLast?_trail _ hne hp.isName
  have hslash : '/' ∈ p.normalized.toList := by
    rw [hkey, trail_eq_cons hne]
    simp
  rw [FileId.isWithin_iff hlast (by rintro h; simp [h] at hslash) (by rintro h; simp [h] at hslash),
    hkey, hq.toList_normalized hbase hne']
  simp only [List.append_assoc, List.append_cancel_left_eq]
  rw [← Text.splitOn_prefix_iff, splitOn_trail hp.no_separator, splitOn_trail hq.no_separator,
    List.cons_prefix_cons]
  simp only [true_and]
  exact List.prefix_map_iff_of_injective fun _ _ => String.toList_inj.mp

theorem normalized_root (h : LeadsFrom root p []) (hq : LeadsFrom root q more) (hne : more ≠ []) :
    p.normalized = "/" ∨ p.normalized.toList.getLast? ≠ some '/' ∧
      ∃ rest, q.normalized.toList = p.normalized.toList ++ '/' :: rest := by
  obtain ⟨base, hbase, hp⟩ := h.2
  rw [List.append_nil] at hp
  by_cases hempty : base = []
  · left
    rw [hp, hempty]
    decide
  · have htext : (Text.replaceChar '\\' '/' p.text).toList =
        (trail base).map fun c => if c = '\\' then '/' else c := by
      rw [Text.replaceChar, String.toList_ofList, hp, text_absolute hempty]
    have hkey := hq.toList_normalized hbase hne
    rw [← htext, trail_eq_cons hne] at hkey
    rw [normalized]
    rcases trimSeparators_cases (Text.replaceChar '\\' '/' p.text) with ⟨htop, -⟩ | ⟨-, hlast, n, hn⟩
    · exact Or.inl htop
    · -- the separators that were cut off stand before the names
      refine Or.inr ⟨hlast, ?_⟩
      rw [hkey, hn, List.append_assoc]
      cases n with
      | zero => exact ⟨_, rfl⟩
      | succ n => exact ⟨_, by rw [List.replicate_succ, List.cons_append]⟩

/-- The root is not the key of a path below it. -/
theorem normalized_root_ne (h : LeadsFrom root p []) (hq : LeadsFrom root q more)
    (hne : more ≠ []) : q.normalized ≠ p.normalized := by
  intro heq
  rcases h.normalized_root hq hne with hroot | ⟨_, rest, hrest⟩
  · obtain ⟨base, hbase, _⟩ := h.2
    have hlast := getLast?_trail
      ((trail base).map fun c => if c = '\\' then '/' else c) hne hq.isName
    rw [← hq.toList_normalized hbase hne, heq, hroot] at hlast
    exact hlast (by decide)
  · have hlength := congrArg List.length hrest
    rw [heq, List.length_append, List.length_cons] at hlength
    omega

/-- The root holds the keys of all paths below it. -/
theorem isWithin_normalized_root (h : LeadsFrom root p []) (hq : LeadsFrom root q more)
    (hne : more ≠ []) : FileId.isWithin q.normalized p.normalized = true := by
  obtain ⟨base, hbase, _⟩ := h.2
  have hstart : q.normalized.toList.head? = some '/' := by
    rw [hq.toList_normalized hbase hne]
    cases base with
    | nil => rw [trail_eq_cons hne]; rfl
    | cons b base => simp [trail]
  rcases h.normalized_root hq hne with hroot | ⟨hlast, rest, hrest⟩
  · rw [hroot]
    exact FileId.isWithin_root.mpr hstart
  · have hhead : p.normalized.toList.head? = some '/' ∨ p.normalized.toList = [] := by
      cases hcs : p.normalized.toList with
      | nil => exact Or.inr rfl
      | cons c cs =>
        rw [hrest, hcs] at hstart
        exact Or.inl hstart
    by_cases hempty : p.normalized = ""
    · simp [hempty, FileId.isWithin, show trimSeparators "" = "" by decide]
    · have hhere : p.normalized ≠ "." := by
        intro e
        rw [e] at hhead
        exact absurd hhead (by decide)
      exact (FileId.isWithin_iff hlast hempty hhere).mpr (Or.inr ⟨rest, hrest⟩)

/-- Ids are scoped by the names below the root. -/
theorem isWithin_id_iff (hp : LeadsFrom root p names) (hq : LeadsFrom root q more)
    (hne : names ≠ []) (hne' : more ≠ []) :
    FileId.isWithin ("/".intercalate more) ("/".intercalate names) = true ↔ names <+: more :=
  FileId.isWithin_intercalate hne hne'
    (fun n hn => ⟨(hp.isName n hn).ne_empty, (hp.isName n hn).ne_here, hp.no_separator n hn⟩)
    hq.no_separator

/--
A key is the path itself, or it has no id: a root with a `\` in one of its names does not hold the
paths that its keys spell.
-/
theorem key_eq_or_outside (h : LeadsFrom root p names) :
    Path.mk p.normalized = p ∨ FileId.ofPath? root ⟨p.normalized⟩ = none := by
  obtain ⟨base, hbase, _⟩ := h.2
  have hall := (h.follows hbase).isName
  obtain ⟨hplain, base', hbase', rfl⟩ := h
  obtain rfl := hbase.unique hbase'
  by_cases hback : '\\' ∈ trail (base ++ names)
  · right
    obtain ⟨n, hn, hc⟩ := List.mem_flatMap.mp hback
    have hc : '\\' ∈ n.toList := (List.mem_cons.mp hc).resolve_left (by decide)
    have hroot : .name n ∈ root.components := by
      rw [hbase.components]
      refine List.mem_cons_of_mem _ (List.mem_map_of_mem ?_)
      exact (List.mem_append.mp hn).resolve_right fun hn => (hplain n hn).no_backslash hc
    apply FileId.ofPath?_of_not_prefix
    intro hpre
    exact backslash_not_mem_normalized _ (mem_of_name_mem_components (hpre.subset hroot) hc)
  · exact Or.inl (normalized_absolute hall hback)

end LeadsFrom

/-- A clean path from a root along plain names. -/
def IsUnder (root p : Path) : Prop := ∃ names, LeadsFrom root p names

namespace IsUnder

variable {root p q : Path} {file : String}

theorem names (h : IsUnder root p) (hid : FileId.ofPath? root p = some file) :
    ∃ names, LeadsFrom root p names ∧ names ≠ [] ∧ file = "/".intercalate names := by
  obtain ⟨names, hnames⟩ := h
  rw [hnames.fileId] at hid
  split at hid
  · cases hid
  · rename_i hne
    exact ⟨names, hnames, hne, (Option.some.inj hid).symm⟩

theorem isAbsolute (h : IsUnder root p) : p.isAbsolute = true := by
  obtain ⟨names, hnames⟩ := h
  exact hnames.isAbsolute

/-- Ids tell the paths below one root apart. -/
theorem eq_of_fileId (hp : IsUnder root p) (hq : IsUnder root q)
    (hpid : FileId.ofPath? root p = some file) (hqid : FileId.ofPath? root q = some file) :
    p = q := by
  obtain ⟨names, hnames, hne, rfl⟩ := hp.names hpid
  obtain ⟨more, hmore, hne', heq⟩ := hq.names hqid
  have hsplit := congrArg (Text.segments '/') heq
  rw [Text.segments_intercalate hne hnames.no_separator,
    Text.segments_intercalate hne' hmore.no_separator] at hsplit
  subst hsplit
  exact hnames.eq_of_names hmore

/-- Keys tell the paths below one root apart. -/
theorem eq_of_key (hp : IsUnder root p) (hq : IsUnder root q) (hkey : p.normalized = q.normalized) :
    p = q := by
  obtain ⟨names, hnames⟩ := hp
  obtain ⟨more, hmore⟩ := hq
  by_cases hempty : names = []
  · subst hempty
    by_cases hempty' : more = []
    · subst hempty'
      exact hnames.eq_of_names hmore
    · exact absurd hkey.symm (hnames.normalized_root_ne hmore hempty')
  · by_cases hempty' : more = []
    · subst hempty'
      exact absurd hkey (hmore.normalized_root_ne hnames hempty)
    · obtain rfl := hnames.key_injective hmore hempty hempty' hkey
      exact hnames.eq_of_names hmore

/-- The path of an id is the path that has the id. -/
theorem components_join_id (hp : IsUnder root p) (hid : FileId.ofPath? root p = some file) :
    (root.join ⟨file⟩).components = p.components := by
  obtain ⟨names, hnames, hne, rfl⟩ := hp.names hid
  exact hnames.components_join_id hne

theorem same_iff (hp : IsUnder root p) (hq : IsUnder root q) : p.same q = true ↔ p = q := by
  obtain ⟨names, hnames⟩ := hp
  obtain ⟨more, hmore⟩ := hq
  rw [hmore.same_iff hnames]
  constructor
  · rintro rfl
    exact hnames.eq_of_names hmore
  · rintro rfl
    obtain ⟨base, hbase, _⟩ := hnames.2
    exact List.append_cancel_left ((hnames.follows hbase).unique (hmore.follows hbase))

end IsUnder

/-! ## Folders above a path -/

theorem isBelow_iff {p q : Path} : p.isBelow q = true ↔ q.components <+: p.components := by
  rw [Path.isBelow, List.isPrefixOf_iff_prefix]

/-- The folder holds the other path, and is not the same. -/
def IsAbove (folder p : Path) : Prop := p.isBelow folder = true ∧ folder.same p = false

instance (folder p : Path) : Decidable (folder.IsAbove p) :=
  inferInstanceAs (Decidable (_ ∧ _))

/-! ## Clean paths anywhere -/

/-- A path that leads from the top along plain names. -/
def IsClean (p : Path) : Prop := ∃ names, (∀ n ∈ names, FileId.IsPlain n) ∧ p = Disk.absolute names

theorem follows_top : Follows ⟨"/"⟩ [] := ⟨by simp, by decide⟩

theorem isClean_iff_isUnder {p : Path} : p.IsClean ↔ IsUnder ⟨"/"⟩ p := by
  constructor
  · rintro ⟨names, hnames, rfl⟩
    exact ⟨names, hnames, [], follows_top, rfl⟩
  · rintro ⟨names, hnames, base, hbase, rfl⟩
    obtain rfl := follows_top.unique hbase
    exact ⟨names, hnames, rfl⟩

namespace IsClean

variable {root p q folder : Path} {file : String}

theorem isAbsolute (h : p.IsClean) : p.isAbsolute = true :=
  (isClean_iff_isUnder.mp h).isAbsolute

/-- A clean path is its own key. -/
theorem key (h : p.IsClean) : Path.mk p.normalized = p := by
  obtain ⟨names, hnames, rfl⟩ := h
  refine normalized_absolute (fun n hn => (hnames n hn).toIsName) fun hmem => ?_
  obtain ⟨n, hn, hc⟩ := List.mem_flatMap.mp hmem
  rcases List.mem_cons.mp hc with hc | hc
  · exact absurd hc (by decide)
  · exact (hnames n hn).no_backslash hc

theorem normalized_eq (h : p.IsClean) : p.normalized = p.text := by
  have hkey : Path.mk p.normalized = Path.mk p.text := h.key
  rwa [Path.mk.injEq] at hkey

theorem eq_of_key (hp : p.IsClean) (hq : q.IsClean) (h : p.normalized = q.normalized) : p = q := by
  rw [← hp.key, h, hq.key]

/-- A clean path whose components go on from those of a root leads from it along plain names. -/
theorem isUnder (h : p.IsClean) (hroot : root.isAbsolute = true)
    (hpre : root.components <+: p.components) : IsUnder root p := by
  obtain ⟨names, hnames, rfl⟩ := h
  have hall : ∀ n ∈ names, IsName n := fun n hn => (hnames n hn).toIsName
  obtain ⟨rest, hrest⟩ := hpre
  rw [components_absolute hall, components_eq root hroot, List.cons_append,
    List.cons.injEq] at hrest
  obtain ⟨base, more, rfl, hbase, _⟩ := List.map_eq_append_iff.mp hrest.2.symm
  refine ⟨more, fun n hn => hnames n (List.mem_append_right _ hn), base, ⟨?_, ?_⟩, rfl⟩
  · exact fun n hn => hall n (List.mem_append_left _ hn)
  · rw [components_eq root hroot, hbase]

theorem isUnder_of_fileId (h : p.IsClean) (hroot : root.isAbsolute = true)
    (hid : FileId.ofPath? root p = some file) : IsUnder root p := by
  refine h.isUnder hroot ?_
  by_contra hpre
  rw [FileId.ofPath?_of_not_prefix hpre] at hid
  cases hid

theorem eq_of_fileId (hp : p.IsClean) (hq : q.IsClean) (hroot : root.isAbsolute = true)
    (hpid : FileId.ofPath? root p = some file) (hqid : FileId.ofPath? root q = some file) : p = q :=
  (hp.isUnder_of_fileId hroot hpid).eq_of_fileId (hq.isUnder_of_fileId hroot hqid) hpid hqid

theorem leadsFrom_self (h : p.IsClean) : LeadsFrom p p [] := by
  obtain ⟨names, hnames, rfl⟩ := h
  have hall : ∀ n ∈ names, IsName n := fun n hn => (hnames n hn).toIsName
  exact ⟨by simp, names, ⟨hall, components_absolute hall⟩, by rw [List.append_nil]⟩

theorem of_isUnder (hfolder : folder.IsClean) (h : IsUnder folder p) : p.IsClean := by
  obtain ⟨base, hbase, rfl⟩ := hfolder
  obtain ⟨names, hnames, base', hbase', rfl⟩ := h
  have hsame : base = base' :=
    Follows.unique ⟨fun n hn => (hbase n hn).toIsName,
      components_absolute fun n hn => (hbase n hn).toIsName⟩ hbase'
  refine ⟨base' ++ names, fun n hn => ?_, rfl⟩
  rcases List.mem_append.mp hn with hn | hn
  · exact hbase n (hsame ▸ hn)
  · exact hnames n hn

/-- Keys of clean paths are scoped as their components are. -/
theorem isWithin_iff (hp : p.IsClean) (hq : q.IsClean) :
    FileId.isWithin q.normalized p.normalized = true ↔ q.isBelow p = true := by
  obtain ⟨names, hnames⟩ := isClean_iff_isUnder.mp hp
  obtain ⟨more, hmore⟩ := isClean_iff_isUnder.mp hq
  rw [hnames.isBelow_iff hmore]
  have htop : ∀ r : Path, LeadsFrom ⟨"/"⟩ r [] → r.normalized = "/" := by
    rintro r ⟨_, base, hbase, rfl⟩
    obtain rfl := follows_top.unique hbase
    decide
  by_cases hempty : names = []
  · subst hempty
    rw [htop p hnames, FileId.isWithin_root, hq.normalized_eq]
    have habsolute := hq.isAbsolute
    simpa [Path.isAbsolute] using habsolute
  by_cases hempty' : more = []
  · subst hempty'
    simp only [List.prefix_nil, hempty, iff_false, Bool.not_eq_true]
    -- nothing that has a name holds the top
    have hkey : p.normalized.toList = trail names := hnames.toList_normalized follows_top hempty
    have hlast : p.normalized.toList.getLast? ≠ some '/' := by
      rw [hkey]
      exact getLast?_trail [] hempty hnames.isName
    obtain ⟨n, rest, rfl⟩ := List.exists_cons_of_ne_nil hempty
    obtain ⟨c, cs, hn⟩ := List.exists_cons_of_ne_nil (hnames.isName n List.mem_cons_self).toList_ne_nil
    have htext : p.normalized.toList = '/' :: c :: (cs ++ trail rest) := by
      rw [hkey, trail, List.flatMap_cons, hn]
      rfl
    rw [htop q hmore, Bool.eq_false_iff, ne_eq,
      FileId.isWithin_iff hlast (fun e => by simp [e] at htext) (fun e => by simp [e] at htext), htext]
    rintro (h | ⟨more, h⟩) <;> simp at h
  · exact hnames.isWithin_key_iff hmore hempty hempty'

/-- The folder of a clean path has no separator at its end. -/
theorem trimSeparators_parent (h : p.IsClean) :
    trimSeparators (FileId.parent p.text) = FileId.parent p.text := by
  by_cases hempty : FileId.parent p.text = ""
  · rw [hempty]
    decide
  obtain ⟨base, htext, hbase⟩ := FileId.toList_of_parent hempty
  obtain ⟨names, hnames, rfl⟩ := h
  have hall : ∀ n ∈ names, IsName n := fun n hn => (hnames n hn).toIsName
  have hne : names ≠ [] := by
    rintro rfl
    exact hempty (by decide)
  obtain ⟨front, last, rfl⟩ := (List.eq_nil_or_concat' names).resolve_left hne
  have htrail : (Disk.absolute (front ++ [last])).text.toList = trail front ++ '/' :: last.toList := by
    rw [text_absolute (by simp), trail_append]
    simp [trail]
  obtain ⟨hfront, _⟩ := Text.append_sep_inj hbase (hall last (by simp)).no_separator
    (htext.symm.trans htrail)
  refine trimSeparators_eq_self ?_
  rw [hfront]
  by_cases hfrontEmpty : front = []
  · simp [hfrontEmpty, trail]
  · exact getLast?_trail [] hfrontEmpty fun n hn => hall n (List.mem_append_left _ hn)

end IsClean

/-! ## Extensions -/

theorem cutName_ending {name ext : String} (h : (cutName name).map (·.2) = some ext) :
    ∃ stem : List Char, name.toList = stem ++ '.' :: ext.toList := by
  unfold cutName at h
  split at h
  · simp at h
  · rename_i stem ending _ hcut
    simp only [Option.map_some, Option.some.injEq] at h
    exact ⟨stem, by rw [(Text.cutLast_eq_some hcut).1, ← h, String.toList_ofList]⟩
  · simp at h

theorem cutName_eq_some_iff {name stem ext : String} : cutName name = some (stem, ext) ↔
    name.toList = stem.toList ++ '.' :: ext.toList ∧ stem ≠ "" ∧ '.' ∉ ext.toList := by
  constructor
  · intro h
    unfold cutName at h
    split at h
    · cases h
    · rename_i front ending hne hcut
      cases h
      obtain ⟨htext, hdot⟩ := Text.cutLast_eq_some hcut
      rw [String.toList_ofList, String.toList_ofList]
      refine ⟨htext, fun hempty => ?_, hdot⟩
      obtain rfl : front = [] := by simpa using congrArg String.toList hempty
      exact hne rfl
    · cases h
  · rintro ⟨htext, hstem, hdot⟩
    rw [cutName, htext, Text.cutLast_append _ hdot]
    split
    · rename_i hcut
      simp only [Option.some.injEq, Prod.mk.injEq] at hcut
      exact absurd (String.toList_injective hcut.1) hstem
    · rename_i hcut
      simp only [Option.some.injEq, Prod.mk.injEq] at hcut
      simp [← hcut.1, ← hcut.2]
    · rename_i hcut
      cases hcut

theorem fileName?_of_segments {p : Path} {front : List String} {name : String}
    (h : p.segments = front ++ [name]) (hn : IsName name) : p.fileName? = some name := by
  rw [fileName?, components, h, List.filter_append, List.filter_cons_of_pos hn.counts]
  simp [hn.ofSegment, Component.name?]

theorem extension?_congr {p q : Path} (h : p.components = q.components) :
    p.extension? = q.extension? := by
  rw [extension?, extension?, fileName?, fileName?, h]

end Path

/-! ## The order of paths -/

instance : Std.TransOrd Component :=
  inferInstanceAs (Std.TransCmp (compareLex (compareOn Component.rank) (compareOn Component.text)))

instance : Std.LawfulEqOrd Component where
  eq_of_compare {c d} h := by
    obtain ⟨hrank, htext⟩ := compareLex_eq_eq.mp h
    have hrank : c.rank = d.rank := Std.LawfulEqCmp.compare_eq_iff_eq.mp hrank
    have htext : c.text = d.text := Std.LawfulEqCmp.compare_eq_iff_eq.mp htext
    cases c <;> cases d <;> simp_all [Component.rank, Component.text]

namespace Path

variable {p q r : Path}

theorem order_eq_iff : p.order q = .eq ↔ p.components = q.components := by
  rw [order, Std.LawfulEqCmp.compare_eq_iff_eq]

theorem same_iff_components : p.same q = true ↔ p.components = q.components := beq_iff_eq

theorem order_trans (h : p.order q = .lt) (h' : q.order r = .lt) : p.order r = .lt := by
  rw [order] at h h' ⊢
  exact Std.TransCmp.lt_trans h h'

theorem lt_of_order_gt (h : p.order q = .gt) : q.order p = .lt := by
  rw [order] at h ⊢
  exact Std.OrientedCmp.lt_of_gt h

theorem not_same_of_lt (h : p.order q = .lt) : p.same q = false := by
  rw [Bool.eq_false_iff, ne_eq, same_iff_components, ← order_eq_iff, h]
  simp

end Path

end SourceGraph
