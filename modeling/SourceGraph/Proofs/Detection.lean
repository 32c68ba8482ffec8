import SourceGraph.Proofs.Naming
import SourceGraph.Proofs.Refreshing
import SourceGraph.Proofs.Traces

/-!
# Noticing changes of files

A file is added under its path, with the digest of what is read there, and looked at later under its
key, which has `/` for every `\`. For a path without a `\` the two are the same, and a change of the
file is noticed once. For a path with a `\` the key leads to another place, so the tracker never
notices a change of the file that was added.

* `Disk.alike_of_write`: writing to one file leaves the others alone.
* `Tracker.addFiles`: the adding of some files, one after the other.
* `Tracker.notices_unless_backslash`: which changes are noticed.
-/

set_option autoImplicit false

namespace SourceGraph

/-! ## Straight paths -/

namespace Path

theorem mem_follow {here segs : List String} {n : String} (h : n ∈ follow here segs) :
    n ∈ here ∨ n ∈ segs := by
  induction segs generalizing here with
  | nil => exact Or.inl h
  | cons s rest ih =>
    rw [follow] at h
    split at h
    · exact (ih h).imp_right (List.mem_cons_of_mem s)
    · split at h
      · exact (ih h).imp List.mem_of_mem_dropLast (List.mem_cons_of_mem s)
      · rcases ih h with hmem | hmem
        · exact (List.mem_append.mp hmem).imp_right fun hs => by simp_all
        · exact Or.inr (List.mem_cons_of_mem s hmem)

theorem head?_trimSeparators {s : String} (h : s.toList.head? = some '/') :
    (trimSeparators s).toList.head? = some '/' := by
  rcases trimSeparators_cases s with ⟨htop, -⟩ | ⟨hempty, -, n, htext⟩
  · rw [htop]
    decide
  · have hne : (trimSeparators s).toList ≠ [] := by
      intro hnil
      simp [hempty (String.toList_eq_nil_iff.mp hnil)] at h
    rwa [htext, List.head?_append_of_ne_nil _ hne] at h

theorem isAbsolute_normalized {p : Path} (h : p.isAbsolute = true) :
    (Path.mk p.normalized).isAbsolute = true := by
  rw [isAbsolute, beq_iff_eq] at h ⊢
  have hreplaced : (Text.replaceChar '\\' '/' p.text).toList.head? = some '/' := by
    simp [Text.replaceChar, h]
  dsimp only [normalized]
  exact head?_trimSeparators hreplaced

namespace IsStraight

variable {p q : Path}

theorem isAbsolute (h : p.IsStraight) : p.isAbsolute = true := by
  obtain ⟨names, -, rfl⟩ := h
  exact isAbsolute_absolute names

/-- Straight paths to one place are the same. -/
theorem eq_of_place (hp : p.IsStraight) (hq : q.IsStraight)
    (h : p.place = q.place) : p = q := by
  obtain ⟨names, hnames, rfl⟩ := hp
  obtain ⟨more, hmore, rfl⟩ := hq
  rw [place_absolute hnames, place_absolute hmore] at h
  rw [h]

theorem normalized_eq (h : p.IsStraight) (hplain : '\\' ∉ p.text.toList) :
    p.normalized = p.text := by
  obtain ⟨names, hnames, rfl⟩ := h
  refine normalized_absolute_of_ne
    (fun n hn => ⟨(hnames n hn).ne_empty, (hnames n hn).no_separator⟩) ?_
  by_cases hne : names = []
  · simp [hne, trail]
  · rwa [text_absolute hne] at hplain

/-- A text without `\` does not lead to the place of a straight path with one. -/
theorem place_ne (h : p.IsStraight) (hback : '\\' ∈ p.text.toList) {key : String}
    (hkey : '\\' ∉ key.toList) : (Path.mk key).place ≠ p.place := by
  obtain ⟨names, hnames, rfl⟩ := h
  rw [place_absolute hnames]
  have hne : names ≠ [] := by
    rintro rfl
    revert hback
    decide
  rw [text_absolute hne] at hback
  obtain ⟨n, hn, hc⟩ := List.mem_flatMap.mp hback
  have hmem : '\\' ∈ n.toList := by simpa using hc
  rintro rfl
  rcases mem_follow hn with hnil | hseg
  · simp at hnil
  · exact hkey (Text.mem_of_mem_segments hseg hmem)

end IsStraight

end Path

/-! ## Writing to one file -/

namespace Disk

variable {d d' : Disk} {p q : Path} {old content : ByteArray}

theorem kindAt?_of_read (hp : p.isAbsolute = true) (h : d.read p = .ok old) :
    d.kindAt? p.place = some (.file old) := by
  obtain ⟨names, hfind⟩ := exists_find_of_read h
  rw [find_of_isAbsolute d hp] at hfind
  obtain ⟨hplace, hkind, -⟩ := walk_ok (Listing.kindAt?_nil _) hfind
  rwa [hplace] at hkind

theorem sets_of_write (hp : p.isAbsolute = true) (hread : d.read p = .ok old)
    (h : d.write p content = .ok d') :
    Sets d d' p.place (some (.file content)) := by
  obtain ⟨names, hfind⟩ := exists_find_of_read hread
  have hwalk := hfind
  rw [find_of_isAbsolute d hp] at hwalk
  obtain ⟨hplace, -, hfolder⟩ := walk_ok (Listing.kindAt?_nil _) hwalk
  obtain rfl : names = p.place := hplace
  have hkind := kindAt?_of_read hp hread
  obtain ⟨front, last, hnames⟩ := exists_concat_of_kindAt? hkind
  rw [write, hfind] at h
  cases h
  exact sets_put_last content hnames hfolder (by simp [hkind])

/-- A path reads the same if no folder is gone and the same is at its place. -/
theorem read_of_kindAt? (hq : q.isAbsolute = true)
    (hfolders : ∀ names, d.kindAt? names = some .folder → d'.kindAt? names = some .folder)
    (hkind : d'.kindAt? q.place = some (.file content))
    (h : d.read q = .ok old) : d'.read q = .ok content := by
  obtain ⟨names, hfind⟩ := exists_find_of_read h
  rw [find_of_isAbsolute d hq] at hfind
  have hwalk := walk_file hfind rfl hfolders hkind
  rw [← find_of_isAbsolute d' hq] at hwalk
  exact read_of_find hwalk

section

variable (hp : p.isAbsolute = true) (hread : d.read p = .ok old) (h : d.write p content = .ok d')

include hp hread h

theorem kindAt?_folder_write (names : List String) :
    d'.kindAt? names = some .folder ↔ d.kindAt? names = some .folder := by
  have hold := kindAt?_of_read hp hread
  rw [(sets_of_write hp hread h).kinds]
  split
  · rename_i hnames
    simp [hnames, hold]
  · rfl

theorem read_write : d'.read p = .ok content := by
  refine read_of_kindAt? hp (fun names => (kindAt?_folder_write hp hread h names).mpr) ?_ hread
  rw [(sets_of_write hp hread h).kinds, if_pos rfl]

theorem alike_of_write (hq : q.isAbsolute = true)
    (hne : q.place ≠ p.place) : d.Alike d' q := by
  have hsame : d'.kindAt? q.place = d.kindAt? q.place := by
    rw [(sets_of_write hp hread h).kinds, if_neg hne]
  have hfolders := kindAt?_folder_write hp hread h
  refine fun c => ⟨fun hc => ?_, fun hc => ?_⟩
  · exact read_of_kindAt? hq (fun names => (hfolders names).mpr)
      (hsame.trans (kindAt?_of_read hq hc)) hc
  · exact read_of_kindAt? hq (fun names => (hfolders names).mp)
      (hsame.symm.trans (kindAt?_of_read hq hc)) hc

end

end Disk

/-! ## Trackers that were filled by adding files -/

namespace Tracker

variable {k : Toolkit} {d d' : Disk} {t t' : Tracker} {p : Path}

/-- The tracker after some files were added, each of them from the disk of that time. -/
def addFiles (k : Toolkit) (t : Tracker) (steps : List (Disk × Path)) : Tracker :=
  steps.foldl (fun t step => (t.addFile k step.2 step.1).1) t

theorem addFiles_spec (steps : List (Disk × Path)) :
    (t.addFiles k steps).path = t.path ∧ ∀ key ∈ (t.addFiles k steps).watched,
      key ∈ t.watched ∨ ∃ step ∈ steps, key = step.2.normalized := by
  induction steps generalizing t with
  | nil => exact ⟨rfl, fun key hkey => Or.inl hkey⟩
  | cons step steps ih =>
    obtain ⟨hpath, hkeys⟩ := @ih (t.addFile k step.2 step.1).1
    refine ⟨hpath.trans revises_addFile.path, fun key hkey => ?_⟩
    rcases hkeys key hkey with hmem | ⟨later, hlater, htext⟩
    · rcases mem_watched_addFile.mp hmem with hmem | ⟨-, htext⟩
      · exact Or.inl hmem
      · exact Or.inr ⟨step, List.mem_cons_self, htext⟩
    · exact Or.inr ⟨later, List.mem_cons_of_mem _ hlater, htext⟩

theorem mem_rescan {digest : ByteArray → String} :
    p ∈ (t.rescan digest d).2 ↔ p.text ∈ t.watched ∧
      ∃ hash, hashOf? digest d p = some hash ∧ t.hashes[p.text]? ≠ some hash := by
  rw [rescan, List.mem_map]
  constructor
  · rintro ⟨key, hkey, rfl⟩
    rw [mem_scan, Std.ExtTreeSet.mem_toList] at hkey
    exact hkey
  · intro h
    refine ⟨p.text, ?_, rfl⟩
    rw [mem_scan, Std.ExtTreeSet.mem_toList]
    exact h

theorem hash_rescan {digest : ByteArray → String} (h : p ∉ (t.rescan digest d).2) :
    (t.rescan digest d).1.hashes[p.text]? = t.hashes[p.text]? := by
  have hkey : p.text ∉ (scan digest d t.hashes t.watched.toList).2 := fun hmem =>
    h (List.mem_map.mpr ⟨p.text, hmem, rfl⟩)
  exact (getElem?_scan digest d t.hashes _ p.text).trans (if_neg hkey)

/-- The file has the digest that it was last seen with, or cannot be read and never was. -/
def IsCurrent (digest : ByteArray → String) (d : Disk) (t : Tracker) (f : Path) : Prop :=
  t.hashes[f.text]? = hashOf? digest d f

theorem read_of_addFile {d₁ : Disk} (h : t.addFile k p d = (t', d₁, .ok true)) :
    ∃ old, d.read p = .ok old ∧ t'.hashes[p.normalized]? = some (k.digest old) := by
  have hhash := (addFile_ok h).1.hash p (by simp)
  cases hread : d.read p with
  | ok old => exact ⟨old, rfl, by simp [hhash, hashOf?, hread]⟩
  | error f => simp [addFile, track?, hashOf?, hread] at h

theorem mem_watched_added {extensions : List String} {steps : List (Disk × Path)} {d₁ : Disk}
    {added : Bool} (h : (addFiles k { extensions } steps).addFile k p d = (t, d₁, .ok added))
    {key : String} (hkey : key ∈ t.watched) :
    ∃ q ∈ p :: steps.map Prod.snd, key = q.normalized := by
  obtain rfl : ((addFiles k { extensions } steps).addFile k p d).1 = t := by rw [h]
  rcases mem_watched_addFile.mp hkey with hmem | ⟨-, htext⟩
  · rcases (addFiles_spec steps).2 key hmem with hmem | ⟨step, hstep, htext⟩
    · exact absurd hmem Std.ExtTreeSet.not_mem_empty
    · exact ⟨step.2, List.mem_cons_of_mem _ (List.mem_map_of_mem hstep), htext⟩
  · exact ⟨p, List.mem_cons_self, htext⟩

/-! ## One change of one file -/

section

variable {old content : ByteArray} (hp : p.IsStraight) (hread : d.read p = .ok old)
  (hwrite : d.write p content = .ok d')

include hp hread hwrite

/-- The keys never lead to a file whose path has a `\`. -/
theorem rescan_of_backslash (hback : '\\' ∈ p.text.toList) (digest : ByteArray → String)
    (hkeys : ∀ key ∈ t.watched, ∃ q : Path, q.IsStraight ∧ key = q.normalized) :
    t.rescan digest d' = t.rescan digest d := by
  refine (rescan_congr fun f hf => ?_).symm
  obtain ⟨q, hq, hkey⟩ := hkeys f.text (mem_files.mp hf)
  obtain rfl : f = ⟨q.normalized⟩ := congrArg Path.mk hkey
  exact Disk.alike_of_write hp.isAbsolute hread hwrite (Path.isAbsolute_normalized hq.isAbsolute)
    (hp.place_ne hback (Path.backslash_not_mem_normalized q))

theorem not_isCurrent_of_mem_rescan {digest : ByteArray → String}
    (hkeys : ∀ key ∈ t.watched, (Path.mk key).IsStraight) {f : Path}
    (hf : f ∈ (t.rescan digest d').2) (hne : f ≠ p) : ¬ t.IsCurrent digest d f := by
  obtain ⟨htracked, hash, hnow, hstale⟩ := mem_rescan.mp hf
  have hstraight : f.IsStraight := hkeys f.text htracked
  have halike := Disk.alike_of_write hp.isAbsolute hread hwrite hstraight.isAbsolute
    fun hplace => hne (hstraight.eq_of_place hp hplace)
  intro hcurrent
  rw [IsCurrent, halike.hashOf?, hnow] at hcurrent
  exact hstale hcurrent

/-- A file that is known by its own text, with the digest of what it held, is reported once. -/
theorem changedFiles_of_write (hother : k.digest content ≠ k.digest old) (hpath : t.path = none)
    (htracked : p.text ∈ t.watched) (hhash : t.hashes[p.text]? = some (k.digest old)) :
    ∃ (t' : Tracker) (changed : List Path),
      t.changedFiles k d' = (t', d', .ok changed) ∧ p ∈ changed ∧
      ((∀ key ∈ t.watched, (Path.mk key).IsStraight) →
        ∀ f ∈ changed, f ≠ p → ¬ t.IsCurrent k.digest d f) ∧
      t'.changedFiles k d' = (t', d', .ok []) := by
  have hnow : hashOf? k.digest d' p = some (k.digest content) := by
    simp [hashOf?, Disk.read_write hp.isAbsolute hread hwrite]
  have hmem : p ∈ (t.rescan k.digest d').2 :=
    mem_rescan.mpr ⟨htracked, k.digest content, hnow, by simp [hhash, hother.symm]⟩
  exact ⟨_, _, changedFiles_of_no_path hpath k d', hmem,
    fun hkeys _ hf hne => not_isCurrent_of_mem_rescan hp hread hwrite hkeys hf hne,
    changedFiles_again hpath k d'⟩

end

/-! ## Main statement -/

/--
Let a tracker in memory be filled by adding files along straight paths, and let one more be added. A
look at the files reports it, without a change, exactly if its key reads another content. If its
path has no `\`, that is not so, and a change of its content alone is reported once: with it come
only files that were not current before, if no other path has a `\` either. If its path has a `\`,
the change makes no difference to what is reported, so that it is never noticed.
-/
theorem notices_unless_backslash {extensions : List String} {steps : List (Disk × Path)}
    (hsteps : ∀ step ∈ steps, step.2.IsStraight) (hp : p.IsStraight) {d₁ : Disk}
    (hadd : (addFiles k { extensions } steps).addFile k p d = (t, d₁, .ok true)) :
    ∃ (old : ByteArray) (t₁ : Tracker) (before : List Path),
      d.read p = .ok old ∧ t.changedFiles k d = (t₁, d, .ok before) ∧
      (⟨p.normalized⟩ ∈ before ↔
        ∃ other, d.read ⟨p.normalized⟩ = .ok other ∧ k.digest other ≠ k.digest old) ∧
      ('\\' ∉ p.text.toList → p ∉ before ∧
        ∀ (content : ByteArray) (d' : Disk), d.write p content = .ok d' →
          k.digest content ≠ k.digest old → ∀ u, u = t ∨ u = t₁ →
          ∃ (u' : Tracker) (changed : List Path),
            u.changedFiles k d' = (u', d', .ok changed) ∧ p ∈ changed ∧
            ((∀ step ∈ steps, '\\' ∉ step.2.text.toList) →
              ∀ f ∈ changed, f ≠ p → ¬ u.IsCurrent k.digest d f) ∧
            u'.changedFiles k d' = (u', d', .ok [])) ∧
      ('\\' ∈ p.text.toList →
        ∀ (content : ByteArray) (d' : Disk), d.write p content = .ok d' →
          t.changedFiles k d' = (t₁, d', .ok before) ∧
          t₁.changedFiles k d' = (t₁, d', .ok [])) := by
  obtain ⟨hextends, -⟩ := addFile_ok hadd
  obtain ⟨old, hread, hhash⟩ := read_of_addFile hadd
  have hpath : t.path = none := hextends.path.trans (addFiles_spec steps).1
  have htracked : p.normalized ∈ t.watched := (hextends.watched _).mpr (Or.inr (by simp))
  have hall : ∀ q ∈ p :: steps.map Prod.snd, q.IsStraight :=
    List.forall_mem_cons.mpr ⟨hp, List.forall_mem_map.mpr hsteps⟩
  have hreport : ⟨p.normalized⟩ ∈ (t.rescan k.digest d).2 ↔
      ∃ other, d.read ⟨p.normalized⟩ = .ok other ∧ k.digest other ≠ k.digest old := by
    rw [mem_rescan, hhash]
    cases hkey : d.read ⟨p.normalized⟩ with
    | ok other => simp [hashOf?, hkey, htracked, eq_comm]
    | error f => simp [hashOf?, hkey]
  refine ⟨old, _, _, hread, changedFiles_of_no_path hpath k d, hreport, fun hplain => ?_,
    fun hback content d' hwrite => ?_⟩
  · rw [hp.normalized_eq hplain] at hreport htracked hhash
    have hquiet : p ∉ (t.rescan k.digest d).2 := by
      rw [hreport, hread]
      simp
    have hsecond : (t.rescan k.digest d).1.hashes[p.text]? = some (k.digest old) := by
      rw [hash_rescan hquiet, hhash]
    refine ⟨hquiet, fun content d' hwrite hother u hu => ?_⟩
    have hsame : u.path = none ∧ u.watched = t.watched ∧
        u.hashes[p.text]? = some (k.digest old) := by
      rcases hu with rfl | rfl
      · exact ⟨hpath, rfl, hhash⟩
      · exact ⟨hpath, rfl, hsecond⟩
    obtain ⟨hmemory, hwatched, hlast⟩ := hsame
    obtain ⟨u', changed, hchanged, hmem, hexact, hagain⟩ :=
      changedFiles_of_write hp hread hwrite hother hmemory (hwatched ▸ htracked) hlast
    refine ⟨u', changed, hchanged, hmem, fun hothers => hexact fun key hkey => ?_, hagain⟩
    rw [hwatched] at hkey
    obtain ⟨q, hq, htext⟩ := mem_watched_added hadd hkey
    have hback : ∀ r ∈ p :: steps.map Prod.snd, '\\' ∉ r.text.toList :=
      List.forall_mem_cons.mpr ⟨hplain, List.forall_mem_map.mpr hothers⟩
    rw [htext, (hall q hq).normalized_eq (hback q hq)]
    exact hall q hq
  · have hunseen : t.rescan k.digest d' = t.rescan k.digest d := by
      refine rescan_of_backslash hp hread hwrite hback k.digest fun key hkey => ?_
      obtain ⟨q, hq, htext⟩ := mem_watched_added hadd hkey
      exact ⟨q, hall q hq, htext⟩
    have hagain := changedFiles_again hpath k d'
    rw [hunseen] at hagain
    exact ⟨by rw [changedFiles_of_no_path hpath, hunseen], hagain⟩

namespace Aged

/-- Three files, one of them with a `\` in its name. -/
def slanted : Disk where
  top := .folder "w" (.file "a.ts" "f".toUTF8 (.file "b\\c.ts" "f".toUTF8
    (.file "d.ts" "f".toUTF8 .nil))) .nil
  current := []

def file (name : String) : Path := Disk.absolute ["w", name]

theorem isStraight_file {name : String} (h : Path.IsName name) : (file name).IsStraight :=
  ⟨["w", name], by simp [h, (by decide : Path.IsName "w")], rfl⟩

/-- The tracker of one file, when another one is added. -/
def added (p : Path) : Outcome Bool :=
  (addFiles toolkit {} [(slanted, file "d.ts")]).addFile toolkit p slanted

theorem added_eq {p : Path} (h : (added p).2.2.toOption = some true) :
    added p = ((added p).1, (added p).2.1, .ok true) := by
  generalize added p = outcome at h
  obtain ⟨t, d, result⟩ := outcome
  cases result with
  | ok b =>
    cases h
    rfl
  | error f => cases h

theorem exists_write {p : Path} (h : (slanted.write p "g".toUTF8).toOption.isSome = true) :
    ∃ d', slanted.write p "g".toUTF8 = .ok d' := by
  cases hd : slanted.write p "g".toUTF8 with
  | ok d' => exact ⟨d', rfl⟩
  | error f =>
    rw [hd] at h
    cases h

end Aged

theorem notices_unless_backslash_slanted :
    (∃ d' t' changed, Aged.slanted.write (Aged.file "a.ts") "g".toUTF8 = .ok d' ∧
      (Aged.added (Aged.file "a.ts")).1.changedFiles Aged.toolkit d' = (t', d', .ok changed) ∧
      Aged.file "a.ts" ∈ changed ∧ t'.changedFiles Aged.toolkit d' = (t', d', .ok [])) ∧
    ∃ d' t', Aged.slanted.write (Aged.file "b\\c.ts") "g".toUTF8 = .ok d' ∧
      (Aged.added (Aged.file "b\\c.ts")).1.changedFiles Aged.toolkit d' = (t', d', .ok []) := by
  have hsteps : ∀ step ∈ [(Aged.slanted, Aged.file "d.ts")], step.2.IsStraight := by
    simpa using Aged.isStraight_file (by decide)
  constructor
  · obtain ⟨old, t₁, before, hread, -, -, hplain, -⟩ := notices_unless_backslash hsteps
      (Aged.isStraight_file (by decide)) (Aged.added_eq (p := Aged.file "a.ts") (by decide +kernel))
    obtain ⟨d', hd'⟩ := Aged.exists_write (p := Aged.file "a.ts") (by decide +kernel)
    have hold : (Aged.slanted.read (Aged.file "a.ts")).toOption.map Aged.toolkit.digest =
        some "f" := by
      decide +kernel
    have hother : Aged.toolkit.digest "g".toUTF8 ≠ Aged.toolkit.digest old := by
      rw [hread] at hold
      rw [Option.some.inj hold]
      decide +kernel
    obtain ⟨t', changed, hchanged, hmem, -, hagain⟩ :=
      (hplain (by decide +kernel)).2 _ d' hd' hother _ (Or.inl rfl)
    exact ⟨d', t', changed, hd', hchanged, hmem, hagain⟩
  · obtain ⟨old, t₁, before, -, hbefore, -, -, hback⟩ := notices_unless_backslash hsteps
      (Aged.isStraight_file (by decide))
      (Aged.added_eq (p := Aged.file "b\\c.ts") (by decide +kernel))
    obtain ⟨d', hd'⟩ := Aged.exists_write (p := Aged.file "b\\c.ts") (by decide +kernel)
    have hquiet : ((Aged.added (Aged.file "b\\c.ts")).1.changedFiles Aged.toolkit
        Aged.slanted).2.2.toOption = some [] := by
      decide +kernel
    rw [hbefore] at hquiet
    obtain rfl : before = [] := Option.some.inj hquiet
    exact ⟨d', t₁, hd', (hback (by decide +kernel) _ d' hd').1⟩

end Tracker

end SourceGraph
