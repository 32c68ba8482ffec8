import Mathlib.Data.Set.List
import SourceGraph.Proofs.Saving

/-!
# Expansions and candidates

The expansion of a folder walks through it and prunes as it goes; the test for a candidate looks at
all names between the folder and a file at once. They agree on every file of a disk.

* `Listing.IsProper`: folders as a disk holds them, each name once.
* `Listing.exists_keeps`, `Listing.exists_mem_filesBelow`: what the walk through a folder yields.
* `Disk.walk_append`, `Disk.find_eq_file_iff`: a path below a folder leads on from that folder.
* `Tracker.isCandidate_iff`: candidates by the names that lead to them.
* `Disk.enumerate_iff_candidate`: an expansion yields the candidates, in order and once.
-/

set_option autoImplicit false

namespace SourceGraph

/-! ## Components below a folder -/

namespace Path

variable {p base : Path}

theorem ofSegment_ne (s : String) :
    Component.ofSegment s ≠ .root ∧ Component.ofSegment s ≠ .here := by
  unfold Component.ofSegment
  split <;> simp

/-- The segments that count, read off the components. -/
theorem filter_components (p : Path) :
    p.components.filter (fun c => c ≠ .root && c ≠ .here) =
      (p.segments.filter counts).map .ofSegment := by
  have hkept : ((p.segments.filter counts).map Component.ofSegment).filter
      (fun c => c ≠ .root && c ≠ .here) = (p.segments.filter counts).map .ofSegment := by
    rw [List.filter_eq_self]
    intro c hc
    obtain ⟨s, -, rfl⟩ := List.mem_map.mp hc
    simpa using ofSegment_ne s
  unfold components
  rw [List.filter_append, hkept]
  split
  · rfl
  · split <;> rfl

theorem root_mem_components : .root ∈ p.components ↔ p.isAbsolute = true :=
  ⟨isAbsolute_of_root_mem, fun h => by rw [components_eq p h]; exact List.mem_cons_self⟩

theorem isName_of_mem_components {n : String} (h : .name n ∈ p.components) : IsName n := by
  have hmem : .name n ∈ p.components.filter fun c => c ≠ .root && c ≠ .here :=
    List.mem_filter.mpr ⟨h, by simp⟩
  rw [filter_components] at hmem
  obtain ⟨s, hs, hname⟩ := List.mem_map.mp hmem
  obtain ⟨hseg, hcounts⟩ := List.mem_filter.mp hs
  unfold Component.ofSegment at hname
  split at hname
  · cases hname
  · rename_i hup
    obtain rfl := Component.name.inj hname
    have hne : s ≠ "" ∧ s ≠ "." := by simpa [counts] using hcounts
    exact ⟨hne.1, hne.2, hup, Text.not_mem_of_mem_segments hseg⟩

/-- After the first component there are names and `..` only. -/
theorem root_not_mem_tail (p : Path) : .root ∉ p.components.tail := by
  have hseg : .root ∉ (p.segments.filter counts).map Component.ofSegment := by
    intro hmem
    obtain ⟨s, -, hs⟩ := List.mem_map.mp hmem
    exact (ofSegment_ne s).1 hs
  unfold components
  split
  · exact hseg
  · split
    · exact hseg
    · exact fun hmem => hseg (List.mem_of_mem_tail hmem)

theorem components_ne_nil (h : p.text ≠ "") : p.components ≠ [] := by
  have hne : p.text.toList ≠ [] := fun hnil => h (String.toList_injective hnil)
  obtain ⟨c, cs, hcs⟩ := List.exists_cons_of_ne_nil hne
  by_cases habs : p.isAbsolute = true
  · simp [components_eq p habs]
  · -- the first segment begins with the first character
    have hc : (c == '/') = false := by simpa [isAbsolute, hcs] using habs
    obtain ⟨first, more, hfirst, hsegs⟩ :
        ∃ first more, first ≠ "" ∧ p.segments = first :: more := by
      obtain ⟨r, rs, hr⟩ := List.exists_cons_of_ne_nil (List.splitOn_ne_nil '/' cs)
      refine ⟨String.ofList (c :: r), rs.map String.ofList, by simp [← String.toList_inj], ?_⟩
      rw [segments, Text.segments, hcs, List.splitOn_cons_eq_if_modifyHead, hc, hr]
      rfl
    unfold components
    by_cases hhere : first = "."
    · simp [habs, hsegs, hhere]
    · simp [habs, hsegs, counts, hfirst, hhere]

/-- A path that goes on with names goes on with these segments. -/
theorem segments_of_components {steps : List String} (hsteps : ∀ s ∈ steps, IsName s)
    (h : p.components = base.components ++ steps.map .name) :
    p.isAbsolute = base.isAbsolute ∧
      p.segments.filter counts = base.segments.filter counts ++ steps := by
  constructor
  · have hroot : .root ∈ p.components ↔ .root ∈ base.components := by simp [h]
    rw [root_mem_components, root_mem_components] at hroot
    exact Bool.eq_iff_iff.mpr hroot
  · have hnames : steps.map Component.name = steps.map .ofSegment :=
      List.map_congr_left fun s hs => (hsteps s hs).ofSegment.symm
    have hfilter := congrArg (List.filter fun c => c ≠ .root && c ≠ .here) h
    have hkept : (steps.map Component.name).filter (fun c => c ≠ .root && c ≠ .here) =
        steps.map .name := by
      rw [List.filter_eq_self]
      simp
    rw [List.filter_append, filter_components, filter_components, hkept, hnames,
      ← List.map_append] at hfilter
    exact List.map_injective_iff.mpr ofSegment_injective hfilter

theorem isAbsolute_of_isName {n : String} (hn : IsName n) : (Path.mk n).isAbsolute = false := by
  rw [← Bool.not_eq_true, isAbsolute, beq_iff_eq]
  exact fun hhead => hn.no_separator (List.mem_of_mem_head? hhead)

theorem text_join_name_ne {n : String} (hne : p.text ≠ "") (hn : IsName n) :
    (p.join ⟨n⟩).text ≠ "" := by
  rw [join, if_neg (by simp [isAbsolute_of_isName hn]), if_neg hne]
  split
  · exact fun h => hne (String.append_eq_empty_iff.mp h).1
  · exact fun h => hne (String.append_eq_empty_iff.mp (String.append_eq_empty_iff.mp h).1).1

theorem segments_of_isName {n : String} (hn : IsName n) : (Path.mk n).segments = [n] := by
  have hone := Text.segments_intercalate (List.cons_ne_nil n []) (by simpa using hn.no_separator)
  simpa [segments] using hone

theorem components_join_name {n : String} (hne : p.text ≠ "") (hn : IsName n) :
    (p.join ⟨n⟩).components = p.components ++ [.name n] := by
  have hrel : (Path.mk n).isAbsolute = false := isAbsolute_of_isName hn
  have hseg : (Path.mk n).segments = [n] := segments_of_isName hn
  obtain ⟨front, tail, hfront, -, hp, hjoin⟩ := segments_join hne hrel
  have habs : (p.join ⟨n⟩).isAbsolute = p.isAbsolute := by
    have htext : p.text.toList ≠ [] := fun hnil => hne (String.toList_injective hnil)
    rw [join, if_neg (by simp [hrel]), if_neg hne]
    split <;> simp only [isAbsolute, String.toList_append, List.append_assoc,
      List.head?_append_of_ne_nil _ htext]
  have hhead : (p.join ⟨n⟩).segments.head? = p.segments.head? := by
    rw [hp, hjoin, List.head?_append_of_ne_nil _ hfront, List.head?_append_of_ne_nil _ hfront]
  rw [components, components, habs, hhead, filter_segments_join hne hrel, hseg]
  simp [hn.counts, hn.ofSegment]

end Path

/-! ## The walk through a folder -/

theorem Tracker.hasExtension_congr {p q : Path} (h : p.components = q.components)
    (extensions : List String) : hasExtension extensions p = hasExtension extensions q := by
  rw [hasExtension, hasExtension, Path.extension?_congr h]

namespace Listing

/-- Names are those of files and folders, and each stands for one thing in its folder. -/
def IsProper : Listing → Prop
  | nil => True
  | file name _ rest => Path.IsName name ∧ rest.get? name = none ∧ rest.IsProper
  | folder name inside rest =>
    Path.IsName name ∧ rest.get? name = none ∧ inside.IsProper ∧ rest.IsProper

instance decidableIsProper : (l : Listing) → Decidable l.IsProper
  | nil => .isTrue trivial
  | file name _ rest =>
    have := decidableIsProper rest
    inferInstanceAs (Decidable (Path.IsName name ∧ rest.get? name = none ∧ rest.IsProper))
  | folder name inside rest =>
    have := decidableIsProper inside
    have := decidableIsProper rest
    inferInstanceAs (Decidable
      (Path.IsName name ∧ rest.get? name = none ∧ inside.IsProper ∧ rest.IsProper))

variable {l inside rest : Listing} {name : String} {steps : List String} {content : ByteArray}
  {base p q : Path} {extensions : List String}

theorem IsProper.get? (h : l.IsProper) (hget : l.get? name = some (.folder inside)) :
    inside.IsProper := by
  induction l with
  | nil => cases hget
  | file n content rest ih =>
    rw [Listing.get?] at hget
    split at hget
    · cases hget
    · exact ih h.2.2 hget
  | folder n within rest _ ih =>
    rw [Listing.get?] at hget
    split at hget
    · cases hget
      exact h.2.2.1
    · exact ih h.2.2.2 hget

theorem IsProper.at? (h : l.IsProper) (hat : l.at? steps = some (.folder inside)) :
    inside.IsProper := by
  induction steps generalizing l with
  | nil =>
    cases hat
    exact h
  | cons s steps ih =>
    rw [Listing.at?] at hat
    split at hat
    · exact ih (h.get? ‹_›) hat
    · split at hat <;> cases hat
    · cases hat

theorem exists_head (h : l.at? steps = some (.file content)) :
    ∃ s more e, steps = s :: more ∧ l.get? s = some e := by
  cases steps with
  | nil => cases h
  | cons s more =>
    rw [Listing.at?] at h
    cases hget : l.get? s with
    | none => rw [hget] at h; cases h
    | some e => exact ⟨s, more, e, rfl, hget⟩

theorem at?_eq_file_iff :
    l.at? steps = some (.file content) ↔ l.kindAt? steps = some (.file content) := by
  unfold kindAt?
  cases l.at? steps with
  | none => simp
  | some e => cases e <;> simp [Entry.kind]

/-- A file that is reached through another name is reached without the first entry. -/
theorem at?_cons_of_ne (e : Entry) {s : String} {more : List String} (hne : name ≠ s) :
    (cons name e rest).at? (s :: more) = rest.at? (s :: more) := by
  rw [Listing.at?, Listing.at?, get?_cons, if_neg hne]

/-- Behind an entry that has its name alone, files are reached as before. -/
theorem at?_cons_of_free (e : Entry) (hfree : rest.get? name = none)
    (h : rest.at? steps = some (.file content)) :
    (cons name e rest).at? steps = some (.file content) := by
  obtain ⟨s, more, f, rfl, hget⟩ := exists_head h
  have hne : name ≠ s := by
    rintro rfl
    exact nomatch hfree.symm.trans hget
  rw [at?_cons_of_ne e hne, h]

/-- A path that is reached from a folder at `base` through names that are not passed over. -/
structure Keeps (extensions : List String) (base : Path) (l : Listing) (steps : List String)
    (q : Path) : Prop where
  isFile : ∃ content, l.at? steps = some (.file content)
  names : ∀ s ∈ steps, Path.IsName s ∧ Tracker.isSkippedName s = false
  components : q.components = base.components ++ steps.map .name
  last : q.segments.getLast? = steps.getLast?
  extension : Tracker.hasExtension extensions q = true

theorem Keeps.behind (e : Entry) (hfree : rest.get? name = none)
    (h : Keeps extensions base rest steps q) : Keeps extensions base (cons name e rest) steps q :=
  let ⟨content, hat⟩ := h.isFile
  { h with isFile := ⟨content, at?_cons_of_free e hfree hat⟩ }

theorem Keeps.within (hbase : base.text ≠ "") (hname : Path.IsName name)
    (hskip : Tracker.isSkippedName name = false)
    (h : Keeps extensions (base.join ⟨name⟩) inside steps q) :
    Keeps extensions base (folder name inside rest) (name :: steps) q where
  isFile := by
    obtain ⟨content, hat⟩ := h.isFile
    exact ⟨content, by rw [at?, Listing.get?, if_pos rfl]; exact hat⟩
  names := List.forall_mem_cons.mpr ⟨⟨hname, hskip⟩, h.names⟩
  components := by
    rw [h.components, Path.components_join_name hbase hname, List.append_assoc]
    rfl
  last := by
    obtain ⟨content, hat⟩ := h.isFile
    obtain ⟨s, more, -, rfl, -⟩ := exists_head hat
    exact h.last
  extension := h.extension

theorem keeps_file (hbase : base.text ≠ "") (hname : Path.IsName name)
    (hskip : Tracker.isSkippedName name = false)
    (hext : Tracker.hasExtension extensions (base.join ⟨name⟩) = true) :
    Keeps extensions base (file name content rest) [name] (base.join ⟨name⟩) where
  isFile := ⟨content, by rw [at?, Listing.get?, if_pos rfl]; rfl⟩
  names := by simpa using ⟨hname, hskip⟩
  components := Path.components_join_name hbase hname
  last := by
    obtain ⟨front, -, -, -, -, hjoin⟩ :=
      Path.segments_join hbase (Path.isAbsolute_of_isName hname)
    rw [hjoin, Path.segments_of_isName hname, List.getLast?_append]
    rfl
  extension := hext

theorem Keeps.components_ne (h : Keeps extensions base l steps q) (hfree : l.get? name = none)
    (more : List String) : q.components ≠ base.components ++ (name :: more).map .name := by
  obtain ⟨content, hat⟩ := h.isFile
  obtain ⟨s, others, e, rfl, hget⟩ := exists_head hat
  rw [h.components, ne_eq, List.append_cancel_left_eq, List.map_cons, List.map_cons]
  rintro hcons
  obtain rfl := Component.name.inj (List.cons.inj hcons).1
  exact nomatch hfree.symm.trans hget

/-- Each path that the walk yields is reached through names that are not passed over. -/
theorem exists_keeps (hl : l.IsProper) (hbase : base.text ≠ "")
    (hq : q ∈ l.filesBelow extensions base) : ∃ steps, Keeps extensions base l steps q := by
  induction l generalizing base with
  | nil => cases hq
  | file n content rest ih =>
    obtain ⟨hname, hfree, hrest⟩ := hl
    have hothers (hq : q ∈ rest.filesBelow extensions base) :
        ∃ steps, Keeps extensions base (file n content rest) steps q :=
      let ⟨steps, hkeeps⟩ := ih hrest hbase hq
      ⟨steps, hkeeps.behind (.file content) hfree⟩
    rw [filesBelow] at hq
    split at hq
    · rename_i hkeep
      rcases List.mem_cons.mp hq with rfl | hq
      · have hkeep : Tracker.isSkippedName n = false ∧
            Tracker.hasExtension extensions (base.join ⟨n⟩) = true := by simpa using hkeep
        exact ⟨[n], keeps_file hbase hname hkeep.1 hkeep.2⟩
      · exact hothers hq
    · exact hothers hq
  | folder n inside rest ihIn ih =>
    obtain ⟨hname, hfree, hinside, hrest⟩ := hl
    have hothers (hq : q ∈ rest.filesBelow extensions base) :
        ∃ steps, Keeps extensions base (folder n inside rest) steps q :=
      let ⟨steps, hkeeps⟩ := ih hrest hbase hq
      ⟨steps, hkeeps.behind (.folder inside) hfree⟩
    rw [filesBelow] at hq
    split at hq
    · exact hothers hq
    · rename_i hskip
      rcases List.mem_append.mp hq with hq | hq
      · obtain ⟨steps, hkeeps⟩ := ihIn hinside (Path.text_join_name_ne hbase hname) hq
        exact ⟨n :: steps, hkeeps.within hbase hname (Bool.eq_false_iff.mpr hskip)⟩
      · exact hothers hq

/-- The walk goes on behind each entry. -/
theorem filesBelow_subset_cons (e : Entry) :
    rest.filesBelow extensions base ⊆ (cons name e rest).filesBelow extensions base := by
  intro q hq
  cases e with
  | file content =>
    rw [cons, filesBelow]
    split
    · exact List.mem_cons_of_mem _ hq
    · exact hq
  | folder inside =>
    rw [cons, filesBelow]
    split
    · exact hq
    · exact List.mem_append_right _ hq

/-- Each file that is reached through names that are not passed over is yielded by the walk. -/
theorem exists_mem_filesBelow (hl : l.IsProper) (hbase : base.text ≠ "")
    (hat : l.at? steps = some (.file content))
    (hskip : ∀ s ∈ steps, Tracker.isSkippedName s = false)
    (hp : p.components = base.components ++ steps.map .name)
    (hext : Tracker.hasExtension extensions p = true) :
    ∃ q ∈ l.filesBelow extensions base, q.components = p.components := by
  induction l generalizing base steps with
  | nil =>
    obtain ⟨s, more, e, -, hget⟩ := exists_head hat
    cases hget
  | file n found rest ih =>
    obtain ⟨hname, hfree, hrest⟩ := hl
    obtain ⟨s, more, e, rfl, -⟩ := exists_head hat
    by_cases hn : n = s
    · subst hn
      obtain rfl : more = [] := by
        rw [at?, Listing.get?, if_pos rfl] at hat
        dsimp only at hat
        by_contra hmore
        rw [if_neg hmore] at hat
        cases hat
      have hcomp := (Path.components_join_name hbase hname).trans hp.symm
      have hkeep : (!Tracker.isSkippedName n &&
          Tracker.hasExtension extensions (base.join ⟨n⟩)) = true := by
        rw [hskip n List.mem_cons_self, Tracker.hasExtension_congr hcomp, hext]
        rfl
      rw [filesBelow, if_pos hkeep]
      exact ⟨_, List.mem_cons_self, hcomp⟩
    · rw [show file n found rest = cons n (.file found) rest from rfl, at?_cons_of_ne _ hn] at hat
      obtain ⟨q, hq, hcomp⟩ := ih hrest hbase hat hskip hp
      exact ⟨q, filesBelow_subset_cons (.file found) hq, hcomp⟩
  | folder n inside rest ihIn ih =>
    obtain ⟨hname, hfree, hinside, hrest⟩ := hl
    obtain ⟨s, more, e, rfl, -⟩ := exists_head hat
    by_cases hn : n = s
    · subst hn
      have hinner : inside.at? more = some (.file content) := by
        rw [at?, Listing.get?, if_pos rfl] at hat
        exact hat
      have hcomp : p.components = (base.join ⟨n⟩).components ++ more.map .name := by
        rw [hp, Path.components_join_name hbase hname, List.append_assoc]
        rfl
      obtain ⟨q, hq, hqp⟩ := ihIn hinside (Path.text_join_name_ne hbase hname) hinner
        (fun s hs => hskip s (List.mem_cons_of_mem _ hs)) hcomp
      rw [filesBelow, if_neg (by simp [hskip n List.mem_cons_self])]
      exact ⟨q, List.mem_append_left _ hq, hqp⟩
    · rw [show folder n inside rest = cons n (.folder inside) rest from rfl,
        at?_cons_of_ne _ hn] at hat
      obtain ⟨q, hq, hcomp⟩ := ih hrest hbase hat hskip hp
      exact ⟨q, filesBelow_subset_cons (.folder inside) hq, hcomp⟩

/-- The walk yields no file twice. -/
theorem pairwise_filesBelow (hl : l.IsProper) (hbase : base.text ≠ "") :
    (l.filesBelow extensions base).Pairwise fun p q => p.components ≠ q.components := by
  induction l generalizing base with
  | nil => exact .nil
  | file n content rest ih =>
    obtain ⟨hname, hfree, hrest⟩ := hl
    rw [filesBelow]
    split
    · refine List.pairwise_cons.mpr ⟨fun q hq hcomp => ?_, ih hrest hbase⟩
      obtain ⟨steps, hkeeps⟩ := exists_keeps hrest hbase hq
      refine hkeeps.components_ne hfree [] (hcomp.symm.trans ?_)
      exact Path.components_join_name hbase hname
    · exact ih hrest hbase
  | folder n inside rest ihIn ih =>
    obtain ⟨hname, hfree, hinside, hrest⟩ := hl
    have hjoin := Path.text_join_name_ne hbase hname
    rw [filesBelow]
    split
    · exact ih hrest hbase
    · refine List.pairwise_append.mpr
        ⟨ihIn hinside hjoin, ih hrest hbase, fun p hp q hq hcomp => ?_⟩
      obtain ⟨more, hmore⟩ := exists_keeps hinside hjoin hp
      obtain ⟨steps, hkeeps⟩ := exists_keeps hrest hbase hq
      refine hkeeps.components_ne hfree more (hcomp.symm.trans ?_)
      rw [hmore.components, Path.components_join_name hbase hname, List.append_assoc]
      rfl

end Listing

/-! ## Paths below a folder -/

namespace Disk

variable {d : Disk} {top inside : Listing} {here segs names steps : List String} {spot : Spot}
  {base p : Path} {content : ByteArray}

theorem not_isPlain_of_walk_nil (h : walk top here [] = .ok spot) : spot.isPlain = false := by
  rw [walk] at h
  split at h
  · cases h
    rfl
  · cases h

/-- If the last segment counts, and is not the first one, something counts behind the first. -/
theorem filter_counts_ne_nil {s : String} (hne : segs ≠ [])
    (h : (s :: segs).getLast?.any Path.counts = true) : segs.filter Path.counts ≠ [] := by
  obtain ⟨t, more, rfl⟩ := List.exists_cons_of_ne_nil hne
  rw [List.getLast?_cons_cons, Option.any_eq_true] at h
  obtain ⟨last, hmem, hcounts⟩ := h
  rw [ne_eq, List.filter_eq_nil_iff]
  exact fun hnone => hnone last (List.mem_of_getLast? hmem) hcounts

/-- Segments that do not count lead nowhere, but none of them stands behind a file. -/
theorem walk_eq_ok_iff (hspot : spot.kind?.isSome = true) :
    walk top here segs = .ok spot ↔ walk top here (segs.filter Path.counts) = .ok spot ∧
      (spot.isPlain = true → segs.getLast?.any Path.counts = true) := by
  induction segs generalizing here with
  | nil =>
    refine ⟨fun h => ⟨h, fun hplain => ?_⟩, And.left⟩
    exact absurd hplain (by simp [not_isPlain_of_walk_nil h])
  | cons s rest ih =>
    -- a segment behind which the walk goes on is not the last one on the way to a file
    have hmore (there : List String) : walk top there rest = .ok spot ↔
        walk top there (rest.filter Path.counts) = .ok spot ∧
          (spot.isPlain = true → (s :: rest).getLast?.any Path.counts = true) := by
      rw [ih]
      refine and_congr_right fun h => forall_congr' fun hplain => ?_
      cases rest with
      | nil => exact absurd hplain (by simp [not_isPlain_of_walk_nil h])
      | cons t more => rw [List.getLast?_cons_cons]
    by_cases hskip : s = "" ∨ s = "."
    · have hcount : Path.counts s = false := by rcases hskip with rfl | rfl <;> decide
      rw [walk, if_pos hskip, List.filter_cons_of_neg (by simp [hcount])]
      exact hmore here
    · have hcount : Path.counts s = true := by simpa [Path.counts] using hskip
      rw [walk, if_neg hskip, List.filter_cons_of_pos hcount, walk, if_neg hskip]
      by_cases hup : s = ".."
      · rw [if_pos hup, if_pos hup]
        exact hmore _
      · rw [if_neg hup, if_neg hup]
        cases hat : top.at? (here ++ [s]) with
        | none =>
          dsimp only
          constructor
          · intro h
            split at h <;> cases h
            cases hspot
          · rintro ⟨h, -⟩
            split at h <;> cases h
            cases hspot
        | some e =>
          cases e with
          | folder inside => exact hmore _
          | file content =>
            dsimp only
            by_cases hnil : rest = []
            · simp [hnil, hcount]
            · rw [if_neg hnil]
              constructor
              · intro h
                cases h
              · rintro ⟨h, hlast⟩
                split at h
                · rename_i hnone
                  cases h
                  exact absurd hnone (filter_counts_ne_nil hnil (hlast rfl))
                · cases h

/-- After segments that lead to a folder, others lead on from there. -/
theorem walk_append (h : walk top here segs = .ok (.folder names inside)) (more : List String) :
    walk top here (segs ++ more) = walk top names more := by
  induction segs generalizing here with
  | nil =>
    rw [walk] at h
    split at h
    · cases h
      rfl
    · cases h
  | cons s rest ih =>
    rw [walk] at h
    rw [List.cons_append, walk]
    split at h
    · rename_i hskip
      rw [if_pos hskip]
      exact ih h
    · rename_i hskip
      rw [if_neg hskip]
      split at h
      · rename_i hup
        rw [if_pos hup]
        exact ih h
      · rename_i hup
        rw [if_neg hup]
        split at h
        · exact ih h
        · split at h <;> cases h
        · split at h <;> cases h

theorem text_ne_of_find (h : d.find p = .ok spot) : p.text ≠ "" := by
  intro hempty
  rw [find, if_pos hempty] at h
  cases h

theorem find_eq (hne : p.text ≠ "") : d.find p = walk d.top (d.base p) p.segments := by
  rw [find, if_neg hne]
  rfl

/-- A path below a folder leads to the file that its names lead to from that folder. -/
theorem find_eq_file_iff (hbase : d.find base = .ok (.folder names inside))
    (hsteps : ∀ s ∈ steps, Path.IsName s)
    (hp : p.components = base.components ++ steps.map .name) :
    (∃ place, d.find p = .ok (.file place content)) ↔
      inside.at? steps = some (.file content) ∧ p.segments.getLast?.any Path.counts = true := by
  have hne := text_ne_of_find hbase
  have hpne : p.text ≠ "" := by
    intro hempty
    have hnil : p.components = [] := by
      rw [show p = ⟨""⟩ from congrArg Path.mk hempty]
      decide
    rw [hnil] at hp
    exact Path.components_ne_nil hne (List.append_eq_nil_iff.mp hp.symm).1
  obtain ⟨habs, hsegs⟩ := Path.segments_of_components hsteps hp
  have hstart : d.base p = d.base base := by rw [Disk.base, Disk.base, habs]
  rw [find_eq hne] at hbase
  have hspot : (Spot.folder names inside).kind?.isSome = true := rfl
  have hwalk := ((walk_eq_ok_iff hspot).mp hbase).1
  have hup : ".." ∉ steps := fun h => (hsteps _ h).ne_up rfl
  have hcount : steps.filter Path.counts = steps :=
    List.filter_eq_self.mpr fun s hs => (hsteps s hs).counts
  have hbelow : (∃ place, walk d.top names steps = .ok (.file place content)) ↔
      inside.at? steps = some (.file content) := by
    rw [walk_eq_file_iff _ _ _ _ hup, hcount, Listing.kindAt?_append, at?_of_walk hbase,
      ← Listing.at?_eq_file_iff]
    refine and_iff_left_of_imp fun hat => ?_
    obtain ⟨s, more, -, rfl, -⟩ := Listing.exists_head hat
    rw [List.getLast?_eq_some_getLast (List.cons_ne_nil s more)]
    exact (hsteps _ (List.getLast_mem _)).counts
  calc (∃ place, d.find p = .ok (.file place content))
      ↔ (∃ place, walk d.top (d.base base) (p.segments.filter Path.counts) =
            .ok (.file place content)) ∧ p.segments.getLast?.any Path.counts = true := by
        rw [find_eq hpne, hstart, ← exists_and_right]
        refine exists_congr fun place => ?_
        have hspot : (Spot.file place content).kind?.isSome = true := rfl
        rw [walk_eq_ok_iff hspot]
        simp [Spot.isPlain]
    _ ↔ _ := by
        rw [hsegs, walk_append hwalk, hbelow]

end Disk

/-! ## Candidates -/

namespace Path

variable {p q base : Path}

theorem relativeTo?_eq_some {steps : List Component} :
    p.relativeTo? base = some steps ↔ p.components = base.components ++ steps := by
  unfold relativeTo?
  constructor
  · intro h
    split at h
    · rename_i hprefix
      obtain ⟨more, hmore⟩ := List.isPrefixOf_iff_prefix.mp hprefix
      rw [← hmore, List.drop_left] at h
      rw [← hmore, Option.some.inj h]
    · cases h
  · intro h
    rw [h, if_pos (List.isPrefixOf_iff_prefix.mpr (List.prefix_append _ _)), List.drop_left]

theorem atMost_total (p q : Path) : (p.atMost q || q.atMost p) = true := by
  cases h : p.order q with
  | lt => simp [atMost, h]
  | eq => simp [atMost, h]
  | gt => simp [atMost, lt_of_order_gt h]

theorem atMost_trans (p q r : Path) (h : p.atMost q = true) (h' : q.atMost r = true) :
    p.atMost r = true := by
  rw [atMost, order] at *
  exact Std.TransCmp.isLE_trans h h'

theorem order_eq_lt (h : p.atMost q = true) (hne : p.components ≠ q.components) :
    p.order q = .lt := by
  rw [ne_eq, ← order_eq_iff] at hne
  rw [atMost] at h
  cases horder : p.order q <;> simp_all

end Path

/-- A candidate is reached from the folder through names that are not passed over. -/
theorem Tracker.isCandidate_iff {extensions : List String} {base p : Path}
    (hbase : base.text ≠ "") : isCandidate extensions base p = true ↔ ∃ steps : List String,
      (∀ s ∈ steps, Path.IsName s ∧ isSkippedName s = false) ∧
        p.components = base.components ++ steps.map .name ∧ hasExtension extensions p = true := by
  unfold isCandidate
  constructor
  · intro h
    split at h
    · rename_i steps hrel
      have hp := Path.relativeTo?_eq_some.mp hrel
      rw [Bool.and_eq_true, List.all_eq_true] at h
      obtain ⟨hext, hkept⟩ := h
      have hnames : steps ∈ Set.range (List.map Component.name) := by
        rw [Set.range_list_map]
        intro c hc
        have hc' := hkept c hc
        cases c with
        | root =>
          -- the root stands first, and the folder has components
          refine absurd ?_ (Path.root_not_mem_tail p)
          rw [hp, List.tail_append_of_ne_nil (Path.components_ne_nil hbase)]
          exact List.mem_append_right _ hc
        | here => cases hc'
        | up => cases hc'
        | name s => exact ⟨s, rfl⟩
      obtain ⟨names, rfl⟩ := hnames
      refine ⟨names, fun s hs => ⟨?_, ?_⟩, hp, hext⟩
      · refine @Path.isName_of_mem_components p s ?_
        rw [hp]
        exact List.mem_append_right _ (List.mem_map_of_mem hs)
      · simpa [Component.text] using hkept _ (List.mem_map_of_mem hs)
    · cases h
  · rintro ⟨steps, hsteps, hp, hext⟩
    rw [Path.relativeTo?_eq_some.mpr hp]
    have hall : (steps.map Component.name).all (!isSkippedName ·.text) = true := by
      rw [List.all_map, List.all_eq_true]
      exact fun s hs => by simp [Component.text, (hsteps s hs).2]
    dsimp only
    rw [hext, hall]
    rfl

namespace Disk

variable {d : Disk} {base p : Path} {names : List String} {inside : Listing}

theorem isFile_iff : d.isFile p = true ↔ ∃ place content, d.find p = .ok (.file place content) := by
  rw [isFile]
  split <;> simp_all

theorem isFolder_iff :
    d.isFolder base = true ↔ ∃ names inside, d.find base = .ok (.folder names inside) := by
  rw [isFolder]
  split <;> simp_all

theorem enumerate_eq (hfind : d.find base = .ok (.folder names inside)) (extensions : List String) :
    d.enumerate extensions base = (inside.filesBelow extensions base).mergeSort Path.atMost := by
  rw [enumerate, hfind]

theorem isProper_of_find (hd : d.top.IsProper) (hfind : d.find base = .ok (.folder names inside)) :
    inside.IsProper := by
  rw [find_eq (text_ne_of_find hfind)] at hfind
  exact hd.at? (at?_of_walk hfind)

/-- The expansion of a folder is in order, and yields no file twice. -/
theorem pairwise_enumerate (hd : d.top.IsProper) (hfind : d.find base = .ok (.folder names inside))
    (extensions : List String) :
    (d.enumerate extensions base).Pairwise fun p q => p.order q = .lt := by
  rw [enumerate_eq hfind]
  have hsorted := List.pairwise_mergeSort Path.atMost_trans Path.atMost_total
    (inside.filesBelow extensions base)
  have hdistinct := ((List.mergeSort_perm (inside.filesBelow extensions base)
    Path.atMost).pairwise_iff fun h => Ne.symm h).mpr
      (Listing.pairwise_filesBelow (isProper_of_find hd hfind) (text_ne_of_find hfind))
  exact hsorted.imp₂ (fun p q h hne => Path.order_eq_lt h hne) hdistinct

/--
The expansion of a folder yields, in order and once, those files below it that are candidates.
-/
theorem enumerate_iff_candidate (hd : d.top.IsProper) (hbase : d.isFolder base = true)
    (extensions : List String) :
    (∀ p, d.isFile p = true → ((∃ q ∈ d.enumerate extensions base, q.same p = true) ↔
      Tracker.isCandidate extensions base p = true)) ∧
    (∀ q ∈ d.enumerate extensions base, d.isFile q = true) ∧
    (d.enumerate extensions base).Pairwise fun p q => p.order q = .lt := by
  obtain ⟨names, inside, hfind⟩ := isFolder_iff.mp hbase
  have hne := text_ne_of_find hfind
  have hproper := isProper_of_find hd hfind
  refine ⟨fun p hp => ?_, fun q hq => ?_, pairwise_enumerate hd hfind extensions⟩
  · rw [Tracker.isCandidate_iff hne, enumerate_eq hfind]
    simp only [List.mem_mergeSort, Path.same_iff_components]
    constructor
    · rintro ⟨q, hq, hcomp⟩
      obtain ⟨steps, hkeeps⟩ := Listing.exists_keeps hproper hne hq
      exact ⟨steps, hkeeps.names, hcomp ▸ hkeeps.components,
        Tracker.hasExtension_congr hcomp extensions ▸ hkeeps.extension⟩
    · rintro ⟨steps, hsteps, hcomp, hext⟩
      obtain ⟨place, content, hfile⟩ := isFile_iff.mp hp
      obtain ⟨hat, -⟩ :=
        (find_eq_file_iff hfind (fun s hs => (hsteps s hs).1) hcomp).mp ⟨place, hfile⟩
      exact Listing.exists_mem_filesBelow hproper hne hat (fun s hs => (hsteps s hs).2) hcomp hext
  · rw [enumerate_eq hfind, List.mem_mergeSort] at hq
    obtain ⟨steps, hkeeps⟩ := Listing.exists_keeps hproper hne hq
    have hnames := fun s hs => (hkeeps.names s hs).1
    obtain ⟨content, hat⟩ := hkeeps.isFile
    have hlast : q.segments.getLast?.any Path.counts = true := by
      obtain ⟨s, more, -, rfl, -⟩ := Listing.exists_head hat
      rw [hkeeps.last, List.getLast?_eq_some_getLast (List.cons_ne_nil s more)]
      exact (hnames _ (List.getLast_mem _)).counts
    obtain ⟨place, hfile⟩ := (find_eq_file_iff hfind hnames hkeeps.components).mpr ⟨hat, hlast⟩
    exact isFile_iff.mpr ⟨place, content, hfile⟩

/-- A folder with hidden names, dependencies and files without a listed extension. -/
def mixed : Disk where
  top := .folder "w"
    (.file ".a.ts" .empty <| .file "b.TS" .empty <| .file "c.md" .empty <|
      .folder "lib" (.file "d.ts" .empty .nil) <|
      .folder "node_modules" (.file "e.ts" .empty .nil) .nil) .nil
  current := ["w"]

theorem enumerate_iff_candidate_mixed :
    mixed.top.IsProper ∧ mixed.isFolder ⟨"./../w//"⟩ = true ∧
    (∃ q ∈ mixed.enumerate ["ts"] ⟨"./../w//"⟩, q.same ⟨"./../w/lib/d.ts"⟩ = true) ∧
    ¬ (∃ q ∈ mixed.enumerate ["ts"] ⟨"./../w//"⟩, q.same ⟨"./../w/node_modules/e.ts"⟩ = true) := by
  have hd : mixed.top.IsProper := by decide
  have hbase : mixed.isFolder ⟨"./../w//"⟩ = true := by decide +kernel
  have hagree := (enumerate_iff_candidate hd hbase ["ts"]).1
  refine ⟨hd, hbase, ?_, ?_⟩
  · rw [hagree _ (by decide +kernel)]
    decide +kernel
  · rw [hagree _ (by decide +kernel)]
    decide +kernel

end Disk

end SourceGraph
