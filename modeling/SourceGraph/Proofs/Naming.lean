import Mathlib.Data.List.Infix
import SourceGraph.Proofs.Joining
import SourceGraph.Proofs.Saving

/-!
# Files and their ids

The id of a file is made of the names that its path has below the root; `..` is left out of it. So
it names the file that the path leads to as long as the path goes down from the root. A path that
goes up below the root gets the id of another file.

* `Path.resolved`: where a path leads to, when `.` is dropped and `..` is folded.
* `Path.DescendsFrom`: paths that go down from a root.
* `FileId.names_file_iff`: which ids name the file that they were computed from.
-/

set_option autoImplicit false

namespace SourceGraph

/-! ## Folded segments -/

namespace Path

theorem follow_filter (here segs : List String) :
    follow here (segs.filter counts) = follow here segs := by
  induction segs generalizing here with
  | nil => rfl
  | cons s rest ih =>
    by_cases hskip : s = "" ∨ s = "."
    · have hcount : counts s = false := by rcases hskip with rfl | rfl <;> decide
      rw [List.filter_cons_of_neg (by simp [hcount]), ih, follow, if_pos hskip]
    · have hcount : counts s = true := by simpa [counts] using hskip
      rw [List.filter_cons_of_pos hcount, follow, follow, if_neg hskip, if_neg hskip, ih, ih]

theorem follow_append (here xs ys : List String) :
    follow here (xs ++ ys) = follow (follow here xs) ys := by
  induction xs generalizing here with
  | nil => rfl
  | cons x xs ih =>
    rw [List.cons_append, follow, follow, ih, ih, ih]
    split_ifs <;> rfl

theorem follow_cons {s : String} (hs : counts s = true) (here rest : List String) :
    follow here (s :: rest) =
      if s = ".." then follow here.dropLast rest else follow (here ++ [s]) rest := by
  have hskip : ¬ (s = "" ∨ s = ".") := by simpa [counts] using hs
  rw [follow, if_neg hskip]

/-- The names among segments that count. -/
def namesIn (segs : List String) : List String := segs.filter (· ≠ "..")

theorem namesIn_up (rest : List String) : namesIn (".." :: rest) = namesIn rest :=
  List.filter_cons_of_neg (by simp)

theorem namesIn_cons {s : String} (hs : s ≠ "..") (rest : List String) :
    namesIn (s :: rest) = s :: namesIn rest :=
  List.filter_cons_of_pos (by simp [hs])

/-- Segments lead at most as far down as there are names among them. -/
theorem length_follow_le (here : List String) {segs : List String}
    (hsegs : ∀ s ∈ segs, counts s = true) :
    (follow here segs).length ≤ here.length + (namesIn segs).length := by
  induction segs generalizing here with
  | nil => simp [follow]
  | cons s rest ih =>
    obtain ⟨hs, hrest⟩ := List.forall_mem_cons.mp hsegs
    by_cases hup : s = ".."
    · have hle := ih here.dropLast hrest
      rw [List.length_dropLast] at hle
      rw [follow_cons hs, if_pos hup, hup, namesIn_up]
      omega
    · have hle := ih (here ++ [s]) hrest
      rw [List.length_append, List.length_singleton] at hle
      rw [follow_cons hs, if_neg hup, namesIn_cons hup, List.length_cons]
      omega

/-- No name is left again exactly if every `..` stands where nothing is above. -/
theorem follow_eq_append_iff (here : List String) {segs : List String}
    (hsegs : ∀ s ∈ segs, counts s = true) :
    follow here segs = here ++ namesIn segs ↔
      ".." ∉ segs ∨ here = [] ∧ ".." ∉ segs.dropWhile (· = "..") := by
  induction segs generalizing here with
  | nil => simp [follow, namesIn]
  | cons s rest ih =>
    obtain ⟨hs, hrest⟩ := List.forall_mem_cons.mp hsegs
    by_cases hup : s = ".."
    · subst hup
      rw [follow_cons hs, if_pos rfl, namesIn_up, List.dropWhile_cons_of_pos (by simp)]
      by_cases hhere : here = []
      · subst hhere
        rw [List.dropLast_nil, ih [] hrest]
        have hdrop : ".." ∉ rest → ".." ∉ rest.dropWhile (· = "..") := fun h hmem =>
          h ((List.dropWhile_sublist _).subset hmem)
        simp only [List.mem_cons, true_or, not_true_eq_false, true_and, false_or]
        exact or_iff_right_of_imp hdrop
      · -- one name is gone for good
        have hle := length_follow_le here.dropLast hrest
        have hpos := List.length_pos_iff.mpr hhere
        have hne : follow here.dropLast rest ≠ here ++ namesIn rest := by
          intro h
          rw [h, List.length_append, List.length_dropLast] at hle
          omega
        simp [hhere, hne]
    · have hrec := ih (here ++ [s]) hrest
      rw [List.append_assoc, List.singleton_append, or_iff_left (by simp)] at hrec
      rw [follow_cons hs, if_neg hup, namesIn_cons hup, hrec,
        List.dropWhile_cons_of_neg (by simp [hup])]
      have hmem : ".." ∉ s :: rest ↔ ".." ∉ rest := by simp [Ne.symm hup]
      rw [hmem, or_iff_left_of_imp And.right]

theorem isName_follow {here segs : List String} (hhere : ∀ n ∈ here, IsName n)
    (hsegs : ∀ s ∈ segs, '/' ∉ s.toList) : ∀ n ∈ follow here segs, IsName n := by
  induction segs generalizing here with
  | nil => exact hhere
  | cons s rest ih =>
    obtain ⟨hs, hrest⟩ := List.forall_mem_cons.mp hsegs
    rw [follow]
    split_ifs with hskip hup
    · exact ih hhere hrest
    · exact ih (fun n hn => hhere n (List.mem_of_mem_dropLast hn)) hrest
    · obtain ⟨hne, hdot⟩ := not_or.mp hskip
      refine ih (fun n hn => ?_) hrest
      rcases List.mem_append.mp hn with hn | hn
      · exact hhere n hn
      · exact List.mem_singleton.mp hn ▸ ⟨hne, hdot, hup, hs⟩

/-! ## Resolved paths -/

/-- The names at which an absolute path ends. There is nothing above the top. -/
def place (p : Path) : List String := follow [] p.segments

/-- The absolute path without `.` and with `..` folded. -/
def resolved (p : Path) : Path := Disk.absolute p.place

/-- Absolute paths that are written without detours. -/
def IsStraight (p : Path) : Prop := ∃ names, (∀ n ∈ names, IsName n) ∧ p = Disk.absolute names

theorem absolute_inj {xs ys : List String} (hx : ∀ n ∈ xs, IsName n) (hy : ∀ n ∈ ys, IsName n) :
    Disk.absolute xs = Disk.absolute ys ↔ xs = ys := by
  refine ⟨fun h => ?_, fun h => h ▸ rfl⟩
  have hcomponents := congrArg components h
  rw [components_absolute hx, components_absolute hy, List.cons.injEq] at hcomponents
  exact (List.map_inj_right fun _ _ => Component.name.inj).mp hcomponents.2

theorem isName_place (p : Path) : ∀ n ∈ p.place, IsName n :=
  isName_follow (by simp) fun _ hs => Text.not_mem_of_mem_segments hs

theorem place_absolute {names : List String} (hn : ∀ n ∈ names, IsName n) :
    (Disk.absolute names).place = names := by
  obtain ⟨hsegments, hup⟩ := Follows.segments ⟨hn, components_absolute hn⟩
  rw [place, follow_eq hup, hsegments, List.nil_append]

theorem resolved_absolute {names : List String} (hn : ∀ n ∈ names, IsName n) :
    (Disk.absolute names).resolved = Disk.absolute names := by
  rw [resolved, place_absolute hn]

/-- On every disk, an absolute path leads to what its resolved form leads to. -/
theorem resolved_eq_of_canonical? {d : Disk} {p q : Path} (hp : p.isAbsolute = true)
    (h : d.canonical? p = some q) : q = p.resolved := by
  have hplace : ∀ spot, d.find p = .ok spot → spot.place = p.place := by
    intro spot hfind
    rw [Disk.find_of_isAbsolute d hp] at hfind
    exact (Disk.walk_ok (Listing.kindAt?_nil _) hfind).1
  unfold Disk.canonical? at h
  split at h
  · rename_i names inside hfind
    cases h
    exact congrArg Disk.absolute (hplace _ hfind)
  · rename_i names content hfind
    cases h
    exact congrArg Disk.absolute (hplace _ hfind)
  · cases h

/-! ## Paths below a root -/

/--
The path goes down from a root: there is no `..` below it. At the top `..` leads nowhere, so that it
may stand in front of all names there.
-/
def DescendsFrom (p root : Path) : Prop :=
  ∃ steps, p.components = root.components ++ steps ∧
    (.up ∉ steps ∨ root.components = [.root] ∧ .up ∉ steps.dropWhile (· = .up))

theorem relativeTo?_eq_some_iff {p root : Path} {steps : List Component} :
    p.relativeTo? root = some steps ↔ p.components = root.components ++ steps := by
  unfold relativeTo?
  split_ifs with hpre
  · rw [List.isPrefixOf_iff_prefix] at hpre
    obtain ⟨more, hmore⟩ := hpre
    simp [← hmore]
  · rw [List.isPrefixOf_iff_prefix] at hpre
    exact iff_of_false (by simp) fun h => hpre ⟨steps, h.symm⟩

theorem ofSegment_eq_up_iff {s : String} : Component.ofSegment s = .up ↔ s = ".." := by
  simp [Component.ofSegment]

theorem up_mem_map_iff {segs : List String} :
    Component.up ∈ segs.map .ofSegment ↔ ".." ∈ segs := by
  simp [ofSegment_eq_up_iff]

theorem join_names {base names : List String} (hbase : ∀ n ∈ base, IsName n)
    (hne : names ≠ []) (hn : ∀ n ∈ names, IsName n) :
    (Disk.absolute base).join ⟨"/".intercalate names⟩ = Disk.absolute (base ++ names) :=
  join_intercalate (fun n h => ⟨(hbase n h).ne_empty, (hbase n h).no_separator⟩) hne
    (isAbsolute_intercalate hne hn)

section

variable {base : List String} (hbase : ∀ n ∈ base, IsName n) {p : Path}

include hbase

theorem exists_segments {steps : List Component}
    (h : p.components = (Disk.absolute base).components ++ steps) :
    ∃ segs, steps = segs.map .ofSegment ∧ p.segments.filter counts = base ++ segs := by
  have hroot := components_absolute hbase
  have hp : p.isAbsolute = true := isAbsolute_of_root_mem (by simp [h, hroot])
  have hnames : base.map Component.name = base.map .ofSegment :=
    List.map_congr_left fun n hn => (hbase n hn).ofSegment.symm
  rw [components_eq p hp, hroot, List.cons_append, List.cons.injEq, hnames] at h
  obtain ⟨front, segs, hfilter, hfront, hsegs⟩ := List.map_eq_append_iff.mp h.2
  rw [(List.map_inj_right ofSegment_injective).mp hfront] at hfilter
  exact ⟨segs, hsegs.symm, hfilter⟩

theorem place_of_segments {segs : List String} (h : p.segments.filter counts = base ++ segs) :
    p.place = follow base segs := by
  have hup : ".." ∉ base := fun hmem => (hbase ".." hmem).ne_up rfl
  have hcounts : base.filter counts = base :=
    List.filter_eq_self.mpr fun n hn => (hbase n hn).counts
  rw [place, ← follow_filter, h, follow_append, follow_eq hup, hcounts, List.nil_append]

theorem descendsFrom_iff {segs : List String}
    (h : p.components = (Disk.absolute base).components ++ segs.map .ofSegment) :
    p.DescendsFrom (Disk.absolute base) ↔
      ".." ∉ segs ∨ base = [] ∧ ".." ∉ segs.dropWhile (· = "..") := by
  have hdrop : (segs.map Component.ofSegment).dropWhile (· = .up) =
      (segs.dropWhile (· = "..")).map .ofSegment := by
    rw [List.dropWhile_map]
    simp [Function.comp_def, ofSegment_eq_up_iff]
  have htop : (Disk.absolute base).components = [.root] ↔ base = [] := by
    simp [components_absolute hbase]
  have hsteps : p.DescendsFrom (Disk.absolute base) ↔ Component.up ∉ segs.map .ofSegment ∨
      (Disk.absolute base).components = [.root] ∧
        .up ∉ (segs.map Component.ofSegment).dropWhile (· = .up) := by
    constructor
    · rintro ⟨steps, hsteps, hdown⟩
      rwa [← List.append_cancel_left (hsteps.symm.trans h)]
    · intro hdown
      exact ⟨_, h, hdown⟩
  rw [hsteps, hdrop, htop, up_mem_map_iff, up_mem_map_iff]

end

end Path

/-! ## Ids -/

namespace FileId

variable {base : List String} {p q : Path} {id : String}

theorem filterMap_name? (segs : List String) :
    (segs.map Component.ofSegment).filterMap Component.name? = Path.namesIn segs := by
  induction segs with
  | nil => rfl
  | cons s segs ih =>
    by_cases hup : s = ".."
    · rw [hup, Path.namesIn_up, ← ih]
      rfl
    · rw [Path.namesIn_cons hup, ← ih, List.map_cons, Component.ofSegment, if_neg hup]
      rfl

theorem ofPath?_eq_some_iff {root : Path} : ofPath? root p = some id ↔
    ∃ steps, p.components = root.components ++ steps ∧ steps.filterMap Component.name? ≠ [] ∧
      id = "/".intercalate (steps.filterMap Component.name?) := by
  simp only [← Path.relativeTo?_eq_some_iff]
  unfold ofPath?
  cases p.relativeTo? root with
  | none => simp
  | some steps =>
    simp only [Option.map_some, Option.some.injEq, exists_eq_left']
    cases steps.filterMap Component.name? with
    | nil => simp
    | cons name names => simp [eq_comm]

/-- A path below a root has some names there, which make its id wherever the path ends. -/
theorem exists_names (hbase : ∀ n ∈ base, Path.IsName n) {steps : List Component}
    (h : p.components = (Disk.absolute base).components ++ steps) :
    ∃ names, (∀ n ∈ names, Path.IsName n) ∧
      (p.place = base ++ names ↔ p.DescendsFrom (Disk.absolute base)) ∧
      ∀ id, ofPath? (Disk.absolute base) p = some id ↔ names ≠ [] ∧ id = "/".intercalate names := by
  obtain ⟨segs, rfl, hfilter⟩ := Path.exists_segments hbase h
  have hmem : ∀ s ∈ segs, s ∈ p.segments.filter Path.counts := fun s hs => by
    rw [hfilter]
    exact List.mem_append_right base hs
  have hcounts : ∀ s ∈ segs, Path.counts s = true := fun s hs => List.of_mem_filter (hmem s hs)
  refine ⟨Path.namesIn segs, fun n hn => ?_, ?_, fun id => ?_⟩
  · obtain ⟨hseg, hup⟩ := List.mem_filter.mp hn
    have hskip : ¬ (n = "" ∨ n = ".") := by simpa [Path.counts] using hcounts n hseg
    obtain ⟨hne, hdot⟩ := not_or.mp hskip
    exact ⟨hne, hdot, of_decide_eq_true hup,
      Text.not_mem_of_mem_segments (List.mem_of_mem_filter (hmem n hseg))⟩
  · rw [Path.place_of_segments hbase hfilter, Path.follow_eq_append_iff base hcounts,
      Path.descendsFrom_iff hbase h]
  · rw [ofPath?_eq_some_iff]
    constructor
    · rintro ⟨steps, hsteps, hid⟩
      rwa [List.append_cancel_left (hsteps.symm.trans h), filterMap_name?] at hid
    · intro hid
      rw [← filterMap_name?] at hid
      exact ⟨_, h, hid⟩

/--
An id names the file that it was computed from exactly if the path goes down from the root: on the
text, and for the files of any disk. Among such paths, two have one id exactly if they lead to one
file. Every other id is also that of another file.
-/
theorem names_file_iff {root : Path} (hroot : root.IsStraight) (h : ofPath? root p = some id) :
    (root.join ⟨id⟩ = p.resolved ↔ p.DescendsFrom root) ∧
    (∀ (d : Disk) (a b : Path), d.canonical? p = some a → d.canonical? (root.join ⟨id⟩) = some b →
      (a = b ↔ p.DescendsFrom root)) ∧
    (p.DescendsFrom root → ∀ q : Path, q.DescendsFrom root →
      (ofPath? root q = some id ↔ q.resolved = p.resolved)) ∧
    (¬ p.DescendsFrom root → ∃ q : Path, q.DescendsFrom root ∧ ofPath? root q = some id ∧
      q.resolved ≠ p.resolved) := by
  obtain ⟨base, hbase, rfl⟩ := hroot
  obtain ⟨steps, hsteps, -⟩ := ofPath?_eq_some_iff.mp h
  obtain ⟨names, hnames, hplace, hid⟩ := exists_names hbase hsteps
  obtain ⟨hne, rfl⟩ := (hid id).mp h
  have hall : ∀ n ∈ base ++ names, Path.IsName n := List.forall_mem_append.mpr ⟨hbase, hnames⟩
  have hjoin := Path.join_names hbase hne hnames
  have hiff : Disk.absolute (base ++ names) = p.resolved ↔ p.DescendsFrom (Disk.absolute base) := by
    rw [Path.resolved, Path.absolute_inj hall p.isName_place, eq_comm, hplace]
  refine ⟨by rw [hjoin, hiff], fun d a b ha hb => ?_, fun hp q hq => ?_, fun hp => ?_⟩
  · have hroot : Component.root ∈ p.components := by
      simp [hsteps, Path.components_absolute hbase]
    rw [hjoin] at hb
    rw [Path.resolved_eq_of_canonical? (Path.isAbsolute_of_root_mem hroot) ha,
      Path.resolved_eq_of_canonical? (Path.isAbsolute_absolute _) hb, Path.resolved_absolute hall,
      eq_comm, hiff]
  · obtain ⟨steps, hsteps, -⟩ := id hq
    obtain ⟨others, hothers, hplace', hid'⟩ := exists_names hbase hsteps
    rw [Path.resolved, Path.resolved, Path.absolute_inj q.isName_place p.isName_place,
      hplace'.mpr hq, hplace.mpr hp, List.append_right_inj, hid']
    constructor
    · rintro ⟨-, heq⟩
      exact (Path.absolute_inj hothers hnames).mp (by rw [Disk.absolute, Disk.absolute, heq])
    · rintro rfl
      exact ⟨hne, rfl⟩
  · -- the file that the id names has this id as well
    have hcomponents : (Disk.absolute (base ++ names)).components =
        (Disk.absolute base).components ++ names.map .name := by
      rw [Path.components_absolute hall, Path.components_absolute hbase, List.map_append,
        List.cons_append]
    refine ⟨Disk.absolute (base ++ names), ⟨_, hcomponents, .inl (by simp)⟩, ?_, ?_⟩
    · have hself : (names.map Component.name).filterMap Component.name? = names := by
        rw [List.filterMap_map]
        exact List.filterMap_some
      exact ofPath?_eq_some_iff.mpr ⟨_, hcomponents, by rw [hself]; exact hne, by rw [hself]⟩
    · rwa [Path.resolved_absolute hall, Ne, hiff]

/-- Under `/ws`, `a/../b.ts` has the id of `a/b.ts`, which is another file. -/
theorem names_file_iff_detour :
    (ofPath? ⟨"/ws"⟩ ⟨"/ws/./a//b.ts"⟩ = some "a/b.ts" ∧
      (Path.mk "/ws").join ⟨"a/b.ts"⟩ = (Path.mk "/ws/./a//b.ts").resolved) ∧
    ofPath? ⟨"/ws"⟩ ⟨"/ws/a/../b.ts"⟩ = some "a/b.ts" ∧
      (Path.mk "/ws").join ⟨"a/b.ts"⟩ ≠ (Path.mk "/ws/a/../b.ts").resolved := by
  have hroot : (Path.mk "/ws").IsStraight := ⟨["ws"], by decide, by decide⟩
  have hdown : ofPath? ⟨"/ws"⟩ ⟨"/ws/./a//b.ts"⟩ = some "a/b.ts" := by decide
  have hdetour : ofPath? ⟨"/ws"⟩ ⟨"/ws/a/../b.ts"⟩ = some "a/b.ts" := by decide
  refine ⟨⟨hdown, (names_file_iff hroot hdown).1.mpr ⟨[.name "a", .name "b.ts"], ?_⟩⟩, hdetour,
    fun h => ?_⟩
  · decide
  · obtain ⟨steps, hsteps, hup⟩ := (names_file_iff hroot hdetour).1.mp h
    have hcomponents : (Path.mk "/ws/a/../b.ts").components =
        (Path.mk "/ws").components ++ [.name "a", .up, .name "b.ts"] := by
      decide
    rw [List.append_cancel_left (hsteps.symm.trans hcomponents)] at hup
    exact absurd hup (by decide)

end FileId

end SourceGraph
