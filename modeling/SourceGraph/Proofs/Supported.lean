import SourceGraph.Proofs.Expansion
import SourceGraph.Proofs.Traces

/-!
# Tracked files and languages

The tracked files of a workspace have an extension of one of its languages, but for files that were
given as folders, and for names that lose their beginning in a key.

* `Path.fileName?_normalized`: the name at the end of a key.
* `Path.losesStem`: the names of which a key keeps nothing before the extension.
* `Workspace.gains_trace`: where the tracked files of a run come from.
* `Workspace.tracks_supported_unless`: in which runs all tracked files are supported.
-/

set_option autoImplicit false

namespace SourceGraph

/-! ## Extensions of languages -/

theorem Language.ne_nil_of_claims {l : Language} {ext : String} (h : l.claims ext = true) :
    ext.toList ≠ [] := by
  intro hnil
  rw [String.toList_injective (hnil.trans String.toList_empty.symm)] at h
  cases l <;> exact absurd h (by decide)

theorem Language.mem_extensionsOf {languages : List Language} {ext : String} :
    ext ∈ extensionsOf languages ↔ ∃ l ∈ languages, ext ∈ l.extensions := by
  rw [extensionsOf, List.mem_mergeSort, List.mem_eraseDups, List.mem_flatMap]

/-- Folders are expanded to the files of the languages. -/
theorem Language.hasExtension_extensionsOf (languages : List Language) (p : Path) :
    Tracker.hasExtension (extensionsOf languages) p = (among? languages p).isSome := by
  have hlower : ∀ l : Language, ∀ e ∈ l.extensions, Text.lower e = e := by
    intro l
    cases l <;> decide +kernel
  rw [Tracker.hasExtension, among?]
  cases p.extension? with
  | none => rfl
  | some ext =>
    rw [Bool.eq_iff_iff, Option.bind_some, List.find?_isSome, List.any_eq_true]
    simp only [mem_extensionsOf, claims, List.contains_iff_mem, Text.sameLetters, beq_iff_eq]
    constructor
    · rintro ⟨e, ⟨l, hl, he⟩, hsame⟩
      exact ⟨l, hl, by rwa [← hsame, hlower l e he]⟩
    · rintro ⟨l, hl, hext⟩
      exact ⟨_, ⟨l, hl, hext⟩, hlower l _ hext⟩

theorem Listing.hasExtension_of_mem_filesBelow {extensions : List String} {l : Listing}
    {base p : Path} (h : p ∈ l.filesBelow extensions base) :
    Tracker.hasExtension extensions p = true := by
  induction l generalizing base with
  | nil => cases h
  | file name content rest ih =>
    rw [filesBelow] at h
    split at h
    · rename_i hkeep
      rcases List.mem_cons.mp h with rfl | h
      · exact (Bool.and_eq_true_iff.mp hkeep).2
      · exact ih h
    · exact ih h
  | folder name inside rest ihIn ih =>
    rw [filesBelow] at h
    split at h
    · exact ih h
    · exact (List.mem_append.mp h).elim ihIn ih

/-! ## Names in keys -/

/-- The way to a file ends with a name. -/
theorem Disk.exists_last_of_walk {top : Listing} {here segs place : List String}
    {content : ByteArray} (h : walk top here segs = .ok (.file place content)) :
    ∃ front name, segs = front ++ [name] ∧ Path.counts name = true ∧ name ≠ ".." := by
  induction segs generalizing here with
  | nil => exact absurd (not_isPlain_of_walk_nil h) (by simp [Spot.isPlain])
  | cons s rest ih =>
    have hmore {there : List String} (h : walk top there rest = .ok (.file place content)) :
        ∃ front name, s :: rest = front ++ [name] ∧ Path.counts name = true ∧ name ≠ ".." := by
      obtain ⟨front, name, hrest, hname⟩ := ih h
      exact ⟨s :: front, name, by rw [hrest, List.cons_append], hname⟩
    rw [walk] at h
    split at h
    · exact hmore h
    · rename_i hskip
      split at h
      · exact hmore h
      · rename_i hup
        split at h
        · exact hmore h
        · split at h
          · rename_i hnil
            exact ⟨[], s, by rw [hnil]; rfl, by simpa [Path.counts] using hskip, hup⟩
          · cases h
        · split at h <;> cases h

namespace Path

variable {p : Path} {front : List String} {name : String}

theorem toList_of_segments (h : p.segments = front ++ [name]) : ∃ start,
    p.text.toList = start ++ name.toList ∧ (start = [] ∨ start.getLast? = some '/') := by
  have hpieces : p.text.toList.splitOn '/' = front.map String.toList ++ [name.toList] := by
    have hmap := congrArg (List.map String.toList) h
    simpa [segments, Text.segments, Function.comp_def] using hmap
  have htext : p.text.toList = ['/'].intercalate (front.map String.toList ++ [name.toList]) := by
    rw [← hpieces, List.intercalate_splitOn]
  by_cases hnil : front = []
  · exact ⟨[], by simpa [hnil] using htext, Or.inl rfl⟩
  · have hfront : front.map String.toList ≠ [] := mt List.map_eq_nil_iff.mp hnil
    rw [Text.intercalate_append _ hfront (List.cons_ne_nil _ []),
      List.intercalate_singleton] at htext
    exact ⟨_, htext, Or.inr (by simp)⟩

/-- A path to a file ends with a name. -/
theorem IsReadable.exists_name (h : p.IsReadable) :
    ∃ front name, p.segments = front ++ [name] ∧ IsName name := by
  obtain ⟨d, hread⟩ := h
  obtain ⟨content, hread⟩ := Option.isSome_iff_exists.mp hread
  have hread : d.read p = .ok content := by
    cases hd : d.read p with
    | error f => rw [hd] at hread; cases hread
    | ok c => rw [hd] at hread; cases hread; rfl
  obtain ⟨place, hfind⟩ := Disk.exists_find_of_read hread
  rw [Disk.find_eq (Disk.text_ne_of_find hfind)] at hfind
  obtain ⟨front, name, hsegs, hcounts, hup⟩ := Disk.exists_last_of_walk hfind
  have hne : name ≠ "" ∧ name ≠ "." := by simpa [counts] using hcounts
  have hmem : name ∈ p.segments := by simp [hsegs]
  exact ⟨front, name, hsegs, hne.1, hne.2, hup, Text.not_mem_of_mem_segments hmem⟩

theorem fileName?_normalized {start : List Char} (h : p.text.toList = start ++ name.toList)
    (hstart : start = [] ∨ start.getLast? = some '/' ∨ start.getLast? = some '\\')
    (hname : IsName name) (hback : '\\' ∉ name.toList) :
    (Path.mk p.normalized).fileName? = some name := by
  have hreplaced : (Text.replaceChar '\\' '/' p.text).toList =
      start.map (fun c => if c = '\\' then '/' else c) ++ name.toList := by
    rw [Text.replaceChar, String.toList_ofList, h, List.map_append,
      Text.map_replace_of_not_mem hback]
  have hlast : (Text.replaceChar '\\' '/' p.text).toList.getLast? ≠ some '/' := by
    rw [hreplaced, List.getLast?_append_of_ne_nil _ hname.toList_ne_nil]
    exact fun hlast => hname.no_separator (List.mem_of_getLast? hlast)
  have hpiece : (name.toList.splitOn '/').map String.ofList = [name] := segments_of_isName hname
  obtain ⟨front, hfront⟩ : ∃ front, (Path.mk p.normalized).segments = front ++ [name] := by
    rw [normalized, trimSeparators_eq_self hlast, segments, Text.segments, hreplaced]
    -- the start is empty, or ends with a separator after the replacement
    rcases List.eq_nil_or_concat start with rfl | ⟨before, c, rfl⟩
    · exact ⟨[], hpiece⟩
    · have hc : (if c = '\\' then '/' else c) = '/' := by
        rcases hstart with hnil | hc | hc <;> simp_all
      rw [List.concat_eq_append, List.map_append, List.map_singleton, hc, List.append_assoc,
        List.singleton_append, List.splitOn_append_cons_self, List.map_append, hpiece]
      exact ⟨_, rfl⟩
  exact fileName?_of_segments hfront hname

/-- Whether the key of a path keeps nothing of the name before the extension. -/
def losesStem (p : Path) : Bool :=
  (p.fileName?.bind cutName).any fun cut => cut.1.toList.getLast? == some '\\'

theorem losesStem_eq_false (h : ∀ name, p.fileName? = some name → '\\' ∉ name.toList) :
    p.losesStem = false := by
  rw [losesStem, ← Bool.not_eq_true, Option.any_eq_true]
  rintro ⟨⟨stem, ext⟩, hcut, hlast⟩
  obtain ⟨name, hname, hcut⟩ := Option.bind_eq_some_iff.mp hcut
  refine h name hname ?_
  rw [(cutName_eq_some_iff.mp hcut).1]
  exact List.mem_append_left _ (List.mem_of_getLast? (beq_iff_eq.mp hlast))

/-- A name without a backslash is the name of the key. -/
theorem IsReadable.fileName?_key (h : p.IsReadable)
    (hback : ∀ name, p.fileName? = some name → '\\' ∉ name.toList) :
    (Path.mk p.normalized).fileName? = p.fileName? := by
  obtain ⟨front, name, hsegs, hname⟩ := h.exists_name
  have hfile := fileName?_of_segments hsegs hname
  obtain ⟨start, htext, hstart⟩ := toList_of_segments hsegs
  rw [hfile]
  exact fileName?_normalized htext (hstart.imp_right Or.inl) hname (hback name hfile)

/-- The part of a text behind its last backslash, unless that stands at the end. -/
theorem exists_tail_of_getLast? {cs : List Char} (hne : cs ≠ []) (h : cs.getLast? ≠ some '\\') :
    ∃ before tail, cs = before ++ tail ∧ tail ≠ [] ∧ '\\' ∉ tail ∧
      (before = [] ∨ before.getLast? = some '\\') := by
  cases hcut : Text.cutLast '\\' cs with
  | none => exact ⟨[], cs, rfl, hne, Text.not_mem_of_cutLast_eq_none hcut, Or.inl rfl⟩
  | some cut =>
    obtain ⟨hcs, hback⟩ := Text.cutLast_eq_some hcut
    refine ⟨cut.1 ++ ['\\'], cut.2, by simp [hcs], fun hnil => h ?_, hback, Or.inr (by simp)⟩
    rw [hcs, hnil]
    simp

theorem isName_of_parts {tail ext : List Char} (h : name.toList = tail ++ '.' :: ext)
    (htail : tail ≠ []) (hext : ext ≠ []) (hsep : '/' ∉ name.toList) : IsName name := by
  have hlength : 2 < name.toList.length := by
    have htail := List.length_pos_iff.mpr htail
    have hext := List.length_pos_iff.mpr hext
    rw [h, List.length_append, List.length_cons]
    omega
  refine ⟨?_, ?_, ?_, hsep⟩ <;> rintro rfl <;> exact absurd hlength (by decide)

/-- The key of a file keeps the extension, if it keeps something of the name before it. -/
theorem IsReadable.among?_key {languages : List Language} (h : p.IsReadable)
    (hstem : p.losesStem = false) (hsome : (Language.among? languages p).isSome = true) :
    (Language.among? languages ⟨p.normalized⟩).isSome = true := by
  obtain ⟨front, name, hsegs, hname⟩ := h.exists_name
  have hfile := fileName?_of_segments hsegs hname
  obtain ⟨start, htext, hstart⟩ := toList_of_segments hsegs
  obtain ⟨l, hl⟩ := Option.isSome_iff_exists.mp hsome
  obtain ⟨ext, hext, hl⟩ := Option.bind_eq_some_iff.mp hl
  have hclaims : l.claims ext = true := by simpa using List.find?_some hl
  rw [extension?, hfile, Option.bind_some] at hext
  obtain ⟨⟨stem, ending⟩, hcut, rfl⟩ := Option.map_eq_some_iff.mp hext
  obtain ⟨hparts, hne, hdot⟩ := cutName_eq_some_iff.mp hcut
  -- what is behind the last backslash before the dot is the start of the name in the key
  have hlast : stem.toList.getLast? ≠ some '\\' := by
    simpa [losesStem, hfile, hcut] using hstem
  obtain ⟨before, tail, hstemText, htail, hback, hbefore⟩ :=
    exists_tail_of_getLast? (fun hnil => hne (String.toList_injective hnil)) hlast
  have hext := Language.ne_nil_of_claims hclaims
  have hextBack : '\\' ∉ ending.toList :=
    Language.not_mem_of_claims rfl (by cases l <;> decide) hclaims
  obtain ⟨kept, hkept⟩ : ∃ kept : String, kept.toList = tail ++ '.' :: ending.toList :=
    ⟨_, String.toList_ofList⟩
  have hnameKept : name.toList = before ++ kept.toList := by
    rw [hparts, hstemText, hkept, List.append_assoc]
  have hkeptName : IsName kept := by
    refine isName_of_parts hkept htail hext fun hsep => hname.no_separator ?_
    rw [hnameKept]
    exact List.mem_append_right _ hsep
  have hkeptCut : cutName kept = some (String.ofList tail, ending) := by
    rw [cutName_eq_some_iff, String.toList_ofList]
    exact ⟨hkept, fun hempty => htail (by simpa using congrArg String.toList hempty), hdot⟩
  have hkey : (Path.mk p.normalized).fileName? = some kept := by
    rw [hnameKept, ← List.append_assoc] at htext
    refine fileName?_normalized htext ?_ hkeptName (by simp [hkept, hback, hextBack])
    rcases hbefore with rfl | hbefore
    · rw [List.append_nil]
      exact hstart.imp_right Or.inl
    · exact Or.inr (Or.inr (by rw [List.getLast?_append, hbefore]; rfl))
  rw [Language.among?, extension?, hkey, Option.bind_some, hkeptCut]
  exact Option.isSome_iff_exists.mpr ⟨l, hl⟩

end Path

/-! ## Whole runs -/

namespace Workspace

variable {k : Toolkit} {w v : Workspace} {new : String → Prop} {steps : List (Disk × Operation)}

theorem Gains.absolute (h : w.Gains v new) (p : Path) : v.absolute p = w.absolute p := by
  rw [Workspace.absolute, Workspace.absolute, h.root]

theorem Gains.supports (h : w.Gains v new) (p : Path) : v.supports p = w.supports p := by
  rw [Workspace.supports, Workspace.supports, h.languages]

/-- What an operation may track depends on the scope of the workspace only. -/
theorem Gains.offers (h : w.Gains v new) (d : Disk) (o : Operation) :
    o.offers v d = o.offers w d := by
  have habsolute : v.absolute = w.absolute := funext h.absolute
  have hsupports : v.supports = w.supports := funext h.supports
  cases o <;> simp only [Operation.offers, habsolute, hsupports, h.extensions]

/-- A tracked file of a run was tracked at its start, or an operation of the run may track it. -/
theorem gains_trace (w : Workspace) (k : Toolkit) (steps : List (Disk × Operation)) :
    ∀ t ∈ w.trace k steps, w.Gains t.1 fun key => ∃ s ∈ steps, s.2.Offered w s.1 key := by
  induction steps generalizing w with
  | nil => simp [trace]
  | cons s steps ih =>
    obtain ⟨d, o⟩ := s
    have hfirst : w.Gains (o.run k w d).1 (o.Offered w d) := Operation.gains_offers o
    have hhere := hfirst.mono fun key hkey =>
      (⟨(d, o), List.mem_cons_self, hkey⟩ : ∃ s ∈ (d, o) :: steps, s.2.Offered w s.1 key)
    rw [trace, List.forall_mem_cons]
    refine ⟨hhere, fun t ht => hhere.trans ((ih _ t ht).mono fun key hkey => ?_)⟩
    obtain ⟨s, hs, hkey⟩ := hkey
    rw [Operation.Offered, hfirst.offers] at hkey
    exact ⟨s, List.mem_cons_of_mem _ hs, hkey⟩

/-- Each operation of a run starts from a workspace with the same scope. -/
theorem exists_run_of_mem {d : Disk} {o : Operation} (h : (d, o) ∈ steps) :
    ∃ v, w.Gains v (fun _ => True) ∧ ∃ t ∈ w.trace k steps, t.1 = (o.run k v d).1 := by
  induction steps generalizing w with
  | nil => cases h
  | cons s steps ih =>
    rcases List.mem_cons.mp h with rfl | h
    · exact ⟨w, (Frame.refl w).gains, _, List.mem_cons_self, rfl⟩
    · obtain ⟨v, hv, t, ht, hrun⟩ := ih h
      have hfirst := (Operation.gains_offers (k := k) (w := w) (d := s.1) s.2).mono
        fun _ _ => trivial
      exact ⟨v, hfirst.trans hv, t, List.mem_cons_of_mem _ ht, hrun⟩

theorem openAt_in_memory {languages : List Language} {s : WorkspaceSettings} {d d' : Disk}
    (hs : s.watchState = none) (h : openAt k languages s d = (d', .ok w)) :
    w.languages = languages ∧ w.tracker = { extensions := Language.extensionsOf languages } := by
  unfold openAt at h
  split at h
  · cases h
  · rw [hs] at h
    cases h
    exact ⟨rfl, rfl⟩

/-- An operation may track supported paths, and a file that is given as a folder. -/
theorem supports_of_mem_offers {d : Disk} {o : Operation} {p : Path}
    (hw : w.tracker.extensions = Language.extensionsOf w.languages) (hp : p ∈ o.offers w d) :
    w.supports p = true ∨ ∃ folder, o = .addFolder folder ∧
      d.isFile (w.absolute folder) = true ∧ p = w.absolute folder := by
  cases o with
  | addFile q => exact Or.inl (List.mem_filter.mp hp).2
  | apply modified deleted => exact Or.inl (List.mem_filter.mp hp).2
  | addFolder folder =>
    rw [Operation.offers, Disk.enumerate] at hp
    split at hp
    · rename_i place content hfind
      exact Or.inr ⟨folder, rfl, Disk.isFile_iff.mpr ⟨place, content, hfind⟩,
        List.mem_singleton.mp hp⟩
    · refine Or.inl ?_
      rw [supports, ← Language.hasExtension_extensionsOf, ← hw]
      exact Listing.hasExtension_of_mem_filesBelow (List.mem_mergeSort.mp hp)
    · cases hp
  | removeFile q => cases hp
  | removeFolder folder => cases hp
  | sync => cases hp
  | reindex => cases hp

/-- A file that is given as a folder is tracked. -/
theorem mem_files_addFolder {d : Disk} {folder : Path}
    (h : w.absolute folder ∈ (Operation.addFolder folder).offers w d)
    (hread : (d.read (w.absolute folder)).toOption.isSome = true) :
    ⟨(w.absolute folder).normalized⟩ ∈ (w.addFolder k folder d).1.tracker.files := by
  rw [frame_addFolder.tracker, Tracker.mk_mem_files, Tracker.mem_watched_addFolder]
  exact Or.inr ⟨_, h, hread, rfl⟩

theorem supports_congr_fileName {p q : Path} (h : p.fileName? = q.fileName?) :
    w.supports p = w.supports q := by
  rw [supports, supports, Language.among?, Language.among?, Path.extension?, Path.extension?, h]

/-- An unsupported tracked file was given as a folder, or its key lost the start of its name. -/
theorem tracked_of_not_supports {languages : List Language} {s : WorkspaceSettings} {d d' : Disk}
    (hopen : openAt k languages s d = (d', .ok w)) (hstate : s.watchState = none)
    {t : Workspace × Except WorkspaceFault Report} (ht : t ∈ w.trace k steps) {p : Path}
    (hp : p ∈ t.1.tracker.files) : t.1.supports p = true ∨
      (∃ e folder, (e, .addFolder folder) ∈ steps ∧ e.isFile (w.absolute folder) = true ∧
        w.supports (w.absolute folder) = false ∧ p.text = (w.absolute folder).normalized) ∨
      ∃ e o, (e, o) ∈ steps ∧ ∃ q ∈ o.offers w e, w.supports q = true ∧ q.losesStem = true ∧
        p.text = q.normalized := by
  obtain ⟨hlanguages, htracker⟩ := openAt_in_memory hstate hopen
  have hgains := gains_trace w k steps t ht
  rcases hgains.watched p.text (Tracker.mem_files.mp hp) with
    hold | ⟨⟨e, o⟩, hs, q, hq, hread, hkey⟩
  · rw [htracker] at hold
    exact absurd hold Std.ExtTreeSet.not_mem_empty
  · by_cases hsupports : w.supports q = true
    · by_cases hstem : q.losesStem = true
      · exact Or.inr (Or.inr ⟨e, o, hs, q, hq, hsupports, hstem, hkey⟩)
      · refine Or.inl ?_
        rw [hgains.supports, show p = ⟨q.normalized⟩ from congrArg Path.mk hkey]
        exact hread.among?_key (Bool.eq_false_iff.mpr hstem) hsupports
    · have hw : w.tracker.extensions = Language.extensionsOf w.languages := by
        rw [htracker, hlanguages]
      obtain ⟨folder, rfl, hfile, rfl⟩ := (supports_of_mem_offers hw hq).resolve_left hsupports
      exact Or.inr (Or.inl ⟨e, folder, hs, hfile, Bool.eq_false_iff.mpr hsupports, hkey⟩)

/--
In every state of a run, from a workspace that tracks nothing, the tracked files are supported, but
for unsupported files that were given as folders and for names that lose their beginning in a key.
If no name has a backslash, all of them are supported if and only if no unsupported file is given as
a folder.
-/
theorem tracks_supported_unless {languages : List Language} {s : WorkspaceSettings} {d d' : Disk}
    (hopen : openAt k languages s d = (d', .ok w)) (hstate : s.watchState = none)
    (steps : List (Disk × Operation)) :
    (∀ t ∈ w.trace k steps, ∀ p ∈ t.1.tracker.files, t.1.supports p = true ∨
      (∃ e folder, (e, .addFolder folder) ∈ steps ∧ e.isFile (w.absolute folder) = true ∧
        w.supports (w.absolute folder) = false ∧ p.text = (w.absolute folder).normalized) ∨
      ∃ e o, (e, o) ∈ steps ∧ ∃ q ∈ o.offers w e, w.supports q = true ∧ q.losesStem = true ∧
        p.text = q.normalized) ∧
    ((∀ e o, (e, o) ∈ steps → ∀ q ∈ o.offers w e, ∀ name, q.fileName? = some name →
        '\\' ∉ name.toList) →
      ((∀ t ∈ w.trace k steps, ∀ p ∈ t.1.tracker.files, t.1.supports p = true) ↔
        ∀ e folder, (e, .addFolder folder) ∈ steps → e.isFile (w.absolute folder) = true →
          w.supports (w.absolute folder) = true)) := by
  refine ⟨fun t ht p hp => tracked_of_not_supports hopen hstate ht hp, fun hback => ⟨?_, ?_⟩⟩
  · intro hall e folder hs hfile
    obtain ⟨place, content, hfind⟩ := Disk.isFile_iff.mp hfile
    have hread : (e.read (w.absolute folder)).toOption.isSome = true := by
      rw [Disk.read_of_find hfind]
      rfl
    have hoffer : w.absolute folder ∈ (Operation.addFolder folder).offers w e := by
      rw [Operation.offers, Disk.enumerate, hfind]
      exact List.mem_singleton_self _
    obtain ⟨v, hv, t, ht, hrun⟩ := exists_run_of_mem (w := w) (k := k) hs
    have hmem : ⟨(w.absolute folder).normalized⟩ ∈ t.1.tracker.files := by
      rw [hrun, ← hv.absolute]
      rw [← hv.absolute] at hread hoffer
      exact mem_files_addFolder ((hv.offers e _).symm ▸ hoffer) hread
    have hsupports := hall t ht _ hmem
    rw [(gains_trace w k steps t ht).supports] at hsupports
    rwa [← supports_congr_fileName (Path.IsReadable.fileName?_key ⟨e, hread⟩
      (hback e _ hs _ hoffer))]
  · intro hgiven t ht p hp
    rcases tracked_of_not_supports hopen hstate ht hp with h | ⟨e, folder, hs, hfile, hnot, -⟩ |
      ⟨e, o, hs, q, hq, -, hstem, -⟩
    · exact h
    · rw [hgiven e folder hs hfile] at hnot
      cases hnot
    · rw [Path.losesStem_eq_false (hback e o hs q hq)] at hstem
      cases hstem

end Workspace

/-- A file without a known extension, and one whose name has a backslash before its extension. -/
def Echo.misnamed : Disk where
  top := .folder "w" (.file "notes.txt" .empty (.file "x\\.ts" .empty .nil)) .nil
  current := []

theorem Workspace.tracks_supported_unless_echo :
    WorkspaceSettings.watchState { root := ⟨"/w"⟩ } = none ∧
    (¬ ∀ t ∈ Echo.workspace.trace Echo.toolkit [(Echo.misnamed, .addFolder ⟨"notes.txt"⟩)],
      ∀ p ∈ t.1.tracker.files, t.1.supports p = true) ∧
    ∃ t ∈ Echo.workspace.trace Echo.toolkit [(Echo.misnamed, .addFile ⟨"x\\.ts"⟩)],
      ∃ p ∈ t.1.tracker.files, t.1.supports p = false := by
  refine ⟨rfl, fun hall => ?_, _, List.mem_cons_self, ⟨"/w/x/.ts"⟩, ?_, ?_⟩
  · have hgiven := ((tracks_supported_unless (Echo.openAt_disk "f") rfl _).2 ?_).mp hall _ _
      List.mem_cons_self (by decide +kernel)
    · exact absurd hgiven (by decide +kernel)
    · intro e o hs
      obtain ⟨rfl, rfl⟩ := Prod.mk.inj (List.mem_singleton.mp hs)
      decide +kernel
  · decide +kernel
  · decide +kernel

end SourceGraph
