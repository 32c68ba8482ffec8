import SourceGraph.Proofs.Freshness
import SourceGraph.Proofs.Saving

/-!
# Sources and documents

An operation reads source files and writes documents. What it makes of the sources depends on their
contents only, so it is the same on every disk where they read the same; and saving a document leaves
every source alone that is not the document itself.

* `Disk.Alike`: a path reads the same on two disks.
* `Tracker.trackAll_congr`, `Tracker.rescan_congr`: trackers on such disks.
* `Workspace.restamps_saved`, `Workspace.Restamps.index`: the same workspace, saved at other times.
* `Workspace.IsSource`: a file that the saving of the tracker leaves alone.
* `Workspace.grows_saved`, `Workspace.written_of_saved`: what the saving of the graphs writes.
-/

set_option autoImplicit false

namespace SourceGraph

/-! ## Files that read the same -/

/-- A path reads the same on two disks. -/
def Disk.Alike (d d' : Disk) (p : Path) : Prop :=
  ∀ content, d.read p = .ok content ↔ d'.read p = .ok content

namespace Disk.Alike

variable {d d' d'' : Disk} {p : Path}

theorem refl (d : Disk) (p : Path) : d.Alike d p := fun _ => Iff.rfl

theorem symm (h : d.Alike d' p) : d'.Alike d p := fun content => (h content).symm

theorem trans (h : d.Alike d' p) (h' : d'.Alike d'' p) : d.Alike d'' p :=
  fun content => (h content).trans (h' content)

theorem hashOf? (h : d.Alike d' p) (digest : ByteArray → String) :
    Tracker.hashOf? digest d p = Tracker.hashOf? digest d' p := by
  unfold Tracker.hashOf?
  cases hread : d.read p with
  | ok content => rw [(h content).mp hread]
  | error f =>
    cases hread' : d'.read p with
    | ok content =>
      rw [(h content).mpr hread'] at hread
      cases hread
    | error f' => rfl

/-- The description of a file depends on its contents and on the grammars. -/
theorem described? {k k' : Toolkit} (h : d.Alike d' p) (hk : k.grammars = k'.grammars)
    (w : Workspace) : w.described? k d p = w.described? k' d' p := by
  have hgrammars : w.described? k' d' p = w.described? k d' p := by
    unfold Workspace.described? Workspace.describe
    rw [hk]
  rw [hgrammars]
  cases hread : d.read p with
  | ok content => exact Workspace.described?_congr (hread.trans ((h content).mp hread).symm)
  | error f =>
    -- what cannot be read is not described on either disk
    have hnone : ∀ e : Disk, d.Alike e p → w.described? k e p = none := by
      intro e he
      cases hdescribed : w.described? k e p with
      | none => rfl
      | some found =>
        obtain ⟨content, hcontent⟩ := Workspace.read_of_described? hdescribed
        rw [(he content).mpr hcontent] at hread
        cases hread
    rw [hnone d (refl d p), hnone d' h]

end Disk.Alike

/-! ## Trackers -/

namespace Tracker

variable {digest : ByteArray → String} {d d' : Disk} {t t' : Tracker} {p : Path}

theorem track?_congr (h : d.Alike d' p) (t : Tracker) :
    track? digest d t p = track? digest d' t p := by
  rw [track?, track?, h.hashOf?]

theorem trackAll_congr {ps : List Path} (h : ∀ p ∈ ps, d.Alike d' p) (t : Tracker) :
    trackAll digest d t ps = trackAll digest d' t ps := by
  induction ps generalizing t with
  | nil => rfl
  | cons p ps ih =>
    have hrest : ∀ q ∈ ps, d.Alike d' q := fun q hq => h q (List.mem_cons_of_mem _ hq)
    rw [trackAll, trackAll, track?_congr (h p List.mem_cons_self)]
    cases track? digest d' t p with
    | none => exact ih hrest t
    | some mid => simp only [ih hrest mid]

theorem refresh?_congr (h : d.Alike d' p) (t : Tracker) :
    refresh? digest d t p = refresh? digest d' t p := by
  rw [refresh?, refresh?, h.hashOf?]

theorem scan_congr {keys : List String} (h : ∀ key ∈ keys, d.Alike d' ⟨key⟩)
    (hashes : Std.ExtTreeMap String String) :
    scan digest d hashes keys = scan digest d' hashes keys := by
  induction keys generalizing hashes with
  | nil => rfl
  | cons key keys ih =>
    have hrest : ∀ other ∈ keys, d.Alike d' ⟨other⟩ := fun other ho =>
      h other (List.mem_cons_of_mem _ ho)
    rw [scan, scan, (h key List.mem_cons_self).hashOf?, ih hrest]
    cases hashOf? digest d' ⟨key⟩ with
    | none => rfl
    | some hash => simp only [ih hrest]

theorem rescan_congr (h : ∀ p ∈ t.files, d.Alike d' p) :
    t.rescan digest d = t.rescan digest d' := by
  have hkeys : ∀ key ∈ t.watched.toList, d.Alike d' ⟨key⟩ := fun key hkey =>
    h ⟨key⟩ (List.mem_map_of_mem hkey)
  rw [rescan, rescan, scan_congr hkeys]

theorem isTracked_of_track? (h : track? digest d t p = some t') : t'.isTracked p = true :=
  isTracked_iff.mpr (((extends_of_track? h).watched p.normalized).mpr (Or.inr (by simp)))

theorem track?_of_isTracked (h : t.isTracked p = true) : track? digest d t p = none := by
  rw [track?, if_pos h]

theorem track?_eq_none_of_subset (h : track? digest d t p = none)
    (hsub : ∀ key ∈ t.watched, key ∈ t'.watched) : track? digest d t' p = none := by
  unfold track? at h ⊢
  split at h
  · rename_i htracked
    rw [if_pos (isTracked_iff.mpr (hsub _ (isTracked_iff.mp htracked)))]
  · rw [Option.map_eq_none_iff] at h
    rw [h]
    simp

theorem trackAll_again {ps added : List Path} (h : trackAll digest d t ps = (t', added)) :
    ∀ p ∈ ps, track? digest d t' p = none := by
  induction ps generalizing t added with
  | nil => simp
  | cons q ps ih =>
    rw [trackAll] at h
    cases htrack : track? digest d t q with
    | none =>
      rw [htrack] at h
      have hsub : ∀ key ∈ t.watched, key ∈ t'.watched := fun key hkey =>
        ((extends_of_trackAll h).1.watched key).mpr (Or.inl hkey)
      exact List.forall_mem_cons.mpr ⟨track?_eq_none_of_subset htrack hsub, ih h⟩
    | some mid =>
      rw [htrack] at h
      cases hrest : trackAll digest d mid ps with
      | mk last rest =>
        simp only [hrest] at h
        cases h
        have hsub : ∀ key ∈ mid.watched, key ∈ t'.watched := fun key hkey =>
          ((extends_of_trackAll hrest).1.watched key).mpr (Or.inl hkey)
        have hq : track? digest d mid q = none :=
          track?_of_isTracked (isTracked_of_track? htrack)
        exact List.forall_mem_cons.mpr ⟨track?_eq_none_of_subset hq hsub, ih hrest⟩

theorem trackAll_eq_nil {ps : List Path} (h : ∀ p ∈ ps, track? digest d t p = none) :
    trackAll digest d t ps = (t, []) := by
  induction ps with
  | nil => rfl
  | cons p ps ih =>
    rw [trackAll, h p List.mem_cons_self]
    exact ih fun q hq => h q (List.mem_cons_of_mem _ hq)

/-- Digests that were taken are current. -/
theorem rescan_again {changed : List Path} (h : t.rescan digest d = (t', changed)) :
    t'.rescan digest d = (t', []) := by
  obtain ⟨keys, _, hspec⟩ := rescan_spec h
  have hagain : t'.rescan digest d = ((t'.rescan digest d).1, (t'.rescan digest d).2) := rfl
  obtain ⟨keys', hkeys', hspec'⟩ := rescan_spec hagain
  have hnone : keys' = [] := by
    rw [List.eq_nil_iff_forall_not_mem]
    intro key hkey
    obtain ⟨hwatched, hash, hhash, hother⟩ := (hspec'.mem_changed key).mp hkey
    apply hother
    rw [hspec.hash]
    split
    · exact hhash
    · rename_i hkept
      by_contra hne
      exact hkept ((hspec.mem_changed key).mpr ⟨hspec.watched ▸ hwatched, hash, hhash, hne⟩)
  have hlist : (t'.rescan digest d).2 = [] := by rw [hkeys', hnone]; rfl
  rw [hagain, (revises_rescan digest d t').2 hlist, hlist]

end Tracker

/-! ## Workspaces that differ in times of saving -/

namespace Workspace

variable {k : Toolkit} {d d' : Disk} {w w' : Workspace} {p : Path} {t : Tracker}

theorem restamps_saved {α : Type} (k : Toolkit) (w : Workspace) (d : Disk) (a : α) :
    w.Restamps (w.saved k d a).1 := by
  unfold saved
  split
  · rename_i imports d₁ f himports
    obtain ⟨⟨x, rfl⟩, _⟩ := save_fst himports
    exact ⟨x, w.calls.savedAt, rfl⟩
  · rename_i imports d₁ u himports
    obtain ⟨⟨x, rfl⟩, _⟩ := save_fst himports
    split
    · rename_i calls d₂ f hcalls
      obtain ⟨⟨y, rfl⟩, _⟩ := save_fst hcalls
      exact ⟨x, y, rfl⟩
    · rename_i calls d₂ u' hcalls
      obtain ⟨⟨y, rfl⟩, _⟩ := save_fst hcalls
      exact ⟨x, y, rfl⟩

theorem Restamps.putFragment (h : w.Restamps w') (file : String) (f : Fragment) :
    (w.putFragment file f).Restamps (w'.putFragment file f) := by
  obtain ⟨x, y, rfl⟩ := h
  refine ⟨x, y, ?_⟩
  simp only [putFragment_eq, Store.put, Store.addUnresolved, Store.addEdges, Store.addNodes_eq,
    Store.removeFile, Store.removeWhere]

theorem Restamps.index {k' : Toolkit} (h : w.Restamps w') (hk : k.grammars = k'.grammars)
    (hp : d.Alike d' p) : (w.index k d p).1.Restamps (w'.index k' d' p).1 := by
  have hsame : w'.described? k' d' p = w.described? k d p := by
    rw [hp.described? hk]
    obtain ⟨x, y, rfl⟩ := h
    rfl
  rw [index_fst, index_fst, hsame]
  cases w.described? k d p with
  | none => exact h
  | some e => exact h.putFragment e.1 e.2

theorem Restamps.indexAll {k' : Toolkit} (h : w.Restamps w') (hk : k.grammars = k'.grammars)
    {ps : List Path} (hps : ∀ p ∈ ps, d.Alike d' p) :
    (w.indexAll k d ps).1.Restamps (w'.indexAll k' d' ps).1 := by
  induction ps generalizing w w' with
  | nil => exact h
  | cons p ps ih =>
    exact ih (h.index hk (hps p List.mem_cons_self)) fun q hq => hps q (List.mem_cons_of_mem _ hq)

end Workspace

/-! ## The document of a tracker -/

/-- Where the document of a tracker is. -/
def Tracker.places (t : Tracker) (d : Disk) : List (List String) := t.path.toList.map d.place

theorem Tracker.grows_save {d : Disk} (hd : d.Stands) (t : Tracker) (now : Timestamp) :
    Disk.Grows (t.places d) d (t.save now d).1 := by
  unfold places save
  split
  · exact .refl _ d
  · rename_i p hpath
    have hgrows := Disk.grows_save hd p (t.toDocument now).toJson.pretty.toUTF8
    rw [hpath]
    split
    · rename_i after _ hsave
      rw [hsave] at hgrows
      exact hgrows
    · rename_i after _ hsave
      rw [hsave] at hgrows
      exact hgrows

/-- A file that is read directly and is not the document of the tracker. -/
structure Workspace.IsSource (w : Workspace) (d : Disk) (p : Path) : Prop where
  direct : ".." ∉ p.segments
  apart : d.place p ∉ w.tracker.places d

theorem Workspace.IsSource.alike {w : Workspace} {d d' : Disk} {p : Path} (h : w.IsSource d p)
    (hgrows : Disk.Grows (w.tracker.places d) d d') : d.Alike d' p :=
  fun _ => (hgrows.read_iff h.apart h.direct).symm

/-! ## Documents of graphs -/

/-- Where the document of a store is, and the file that takes its place. -/
def Store.places (s : Store) (d : Disk) : List (List String) :=
  s.path.toList.flatMap fun p => [d.place (Disk.temporary p), d.place p]

theorem Store.grows_save {d : Disk} (hd : d.Stands) (s : Store) (now : Timestamp) :
    Disk.Grows (s.places d) d (s.save now d).2.1 := by
  unfold places save
  split
  · exact .refl _ d
  · rename_i p hpath
    rw [hpath]
    have hgrows := (Disk.replace_spec hd p
      (toDocument { s with savedAt := some now } now).toJson.pretty.toUTF8).1
    dsimp only
    rw [hpath] at hgrows
    split
    · rename_i after _ hreplace
      rw [hreplace] at hgrows
      simpa using hgrows
    · rename_i after _ hreplace
      rw [hreplace] at hgrows
      simpa using hgrows

/-- The document of a store holds it as it was saved last. -/
def Store.IsWritten (s : Store) (d : Disk) : Prop :=
  ∀ p, s.path = some p → ∃ now, s.savedAt = some now ∧
    d.read p = .ok (s.toDocument now).toJson.pretty.toUTF8

theorem Store.save_ok {s s' : Store} {d d' : Disk} {now : Timestamp} {u : Unit} {p : Path}
    (hd : d.Stands) (hpath : s.path = some p) (h : s.save now d = (s', d', .ok u)) :
    s' = { s with savedAt := some now } ∧
      d'.read p = .ok (s'.toDocument now).toJson.pretty.toUTF8 := by
  have hread := (Disk.replace_spec hd p
    (toDocument { s with savedAt := some now } now).toJson.pretty.toUTF8).2
  unfold save at h
  split at h
  · rename_i hnone
    rw [hpath] at hnone
    cases hnone
  · rename_i q hq
    obtain rfl : p = q := Option.some.inj (hpath.symm.trans hq)
    dsimp only at h
    split at h
    · rename_i after _ hreplace
      cases h
      exact ⟨rfl, hread d' hreplace⟩
    · cases h

theorem Store.written_of_save {s s' : Store} {d d' : Disk} {now : Timestamp} {u : Unit}
    (hd : d.Stands) (h : s.save now d = (s', d', .ok u)) : s'.IsWritten d' := by
  intro p hp
  have hpath : s.path = some p := by
    obtain ⟨⟨x, rfl⟩, _⟩ := Workspace.save_fst h
    exact hp
  obtain ⟨rfl, hread⟩ := save_ok hd hpath h
  exact ⟨now, rfl, hread⟩

theorem Store.IsWritten.grows {s : Store} {d d' : Disk} {touched : List (List String)} (hd : d.Stands)
    (h : s.IsWritten d) (hgrows : Disk.Grows touched d d')
    (hapart : ∀ p, s.path = some p → d.place p ∉ touched) : s.IsWritten d' := by
  intro p hp
  obtain ⟨now, hsaved, hread⟩ := h p hp
  exact ⟨now, hsaved, hgrows.read hd (hapart p hp) hread⟩

/-- Where the documents of the graphs are. -/
def Workspace.graphPlaces (w : Workspace) (d : Disk) : List (List String) :=
  w.imports.places d ++ w.calls.places d

theorem Workspace.Frame.graphPlaces {w w' : Workspace} (h : w.Frame w') (d : Disk) :
    w'.graphPlaces d = w.graphPlaces d := by
  rw [Workspace.graphPlaces, Workspace.graphPlaces, Store.places, Store.places, h.importsPath,
    h.callsPath]
  rfl

theorem Workspace.grows_saved {α : Type} {d : Disk} (hd : d.Stands) (k : Toolkit) (w : Workspace)
    (a : α) : Disk.Grows (w.graphPlaces d) d (w.saved k d a).2.1 := by
  have himports := Store.grows_save hd w.imports k.now
  unfold graphPlaces saved
  split
  · rename_i imports mid f hsave
    rw [hsave] at himports
    exact himports.mono (by simp +contextual)
  · rename_i imports mid u hsave
    rw [hsave] at himports
    have hcalls := Store.grows_save (himports.stands hd) w.calls k.now
    have hplaces : w.calls.places mid = w.calls.places d := by
      simp only [Store.places, himports.place]
    rw [hplaces] at hcalls
    have hboth : Disk.Grows (w.imports.places d ++ w.calls.places d) d
        (w.calls.save k.now mid).2.1 := by
      refine (himports.mono ?_).trans (hcalls.mono ?_)
      · exact fun names hn => List.mem_append_left _ hn
      · exact fun names hn => List.mem_append_right _ hn
    split
    · rename_i calls after f hsave'
      rw [hsave'] at hboth
      exact hboth
    · rename_i calls after u' hsave'
      rw [hsave'] at hboth
      exact hboth

/-- The graphs are kept in different files. -/
def Workspace.GraphsApart (w : Workspace) (d : Disk) : Prop :=
  ∀ p, w.imports.path = some p → d.place p ∉ w.calls.places d

/-- Both graphs are on the disk as they were saved last. -/
structure Workspace.IsWritten (w : Workspace) (d : Disk) : Prop where
  imports : w.imports.IsWritten d
  calls : w.calls.IsWritten d

theorem Workspace.written_of_saved {α : Type} {k : Toolkit} {w w' : Workspace} {d d' : Disk} {a b : α}
    (hd : d.Stands) (hapart : w.GraphsApart d) (h : w.saved k d a = (w', d', .ok b)) :
    w'.IsWritten d' := by
  unfold saved at h
  split at h
  · cases h
  · rename_i imports mid u hsave
    have himports := Store.written_of_save hd hsave
    have hgrows := Store.grows_save hd w.imports k.now
    obtain ⟨⟨x, himportsEq⟩, _⟩ := save_fst hsave
    rw [hsave] at hgrows
    have hmid := hgrows.stands hd
    have hgrows' := Store.grows_save hmid w.calls k.now
    split at h
    · cases h
    · rename_i calls after u' hsave'
      cases h
      rw [hsave'] at hgrows'
      refine ⟨himports.grows hmid hgrows' ?_, Store.written_of_save hmid hsave'⟩
      -- the calls are saved last, and elsewhere
      intro p hp
      have hpath : w.imports.path = some p := by
        rw [himportsEq] at hp
        exact hp
      have hplaces : w.calls.places mid = w.calls.places d := by
        simp only [Store.places, hgrows.place]
      rw [hgrows.place, hplaces]
      exact hapart p hpath

end SourceGraph
