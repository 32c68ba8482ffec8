import SourceGraph.Proofs.Batch
import SourceGraph.Proofs.Document
import SourceGraph.Proofs.Sources

/-!
# Reopened workspaces

A workspace with documents is always as its documents say: every operation that succeeds saves what
it changed, or changed nothing that is saved. So a workspace that is opened again is the one that was
left, while others stay away from its documents.

* `Archive`: a folder of source files and three documents.
* `Workspace.IsKept`: the documents hold the workspace, or there are none and it is empty.
* `Workspace.IsKept.step`: every operation that succeeds keeps that.
* `KeptRun`: runs in which the documents are not touched from outside.
-/

set_option autoImplicit false

namespace SourceGraph

/-! ## Documents on a disk -/

/-- A path reads some bytes, or there is no file at its place. -/
def Disk.Carries (d : Disk) (p : Path) : Option ByteArray → Prop
  | none => d.content? (d.place p) = none
  | some content => d.read p = .ok content

/-- The document of a store holds it, or there is none and the store is empty. -/
def Store.KeptAt (s : Store) (p : Path) (d : Disk) : Prop :=
  d.Carries p none ∧ s = { kind := s.kind, path := some p } ∨
    ∃ now : Timestamp, now.IsValid ∧ s.savedAt = some now ∧
      d.Carries p (some (s.toDocument now).toJson.pretty.toUTF8)

/-- The document of a tracker holds it, or there is none and nothing is tracked. -/
def Tracker.KeptAt (t : Tracker) (p : Path) (d : Disk) : Prop :=
  d.Carries p none ∧ t.watched = ∅ ∧ t.hashes = ∅ ∨
    ∃ now : Timestamp, now.IsValid ∧ d.Carries p (some (t.toDocument now).toJson.pretty.toUTF8)

/-- What a path carries on one disk it carries on another. -/
def Disk.Holds (p : Path) (d d' : Disk) : Prop := ∀ content, d.Carries p content → d'.Carries p content

theorem Disk.Grows.holds {d d' : Disk} {p : Path} {touched : List (List String)} (hd : d.Stands)
    (h : Grows touched d d') (hp : d.place p ∉ touched) : Holds p d d' := by
  intro content hcontent
  cases content with
  | none =>
    rw [Carries, h.place, h.contents _ hp]
    exact hcontent
  | some content => exact h.read hd hp hcontent

theorem Store.KeptAt.holds {s : Store} {d d' : Disk} {p : Path} (h : s.KeptAt p d)
    (hholds : Disk.Holds p d d') : s.KeptAt p d' := by
  rcases h with ⟨hnone, hs⟩ | ⟨now, hnow, hsaved, hsome⟩
  · exact Or.inl ⟨hholds _ hnone, hs⟩
  · exact Or.inr ⟨now, hnow, hsaved, hholds _ hsome⟩

theorem Tracker.KeptAt.holds {t : Tracker} {d d' : Disk} {p : Path} (h : t.KeptAt p d)
    (hholds : Disk.Holds p d d') : t.KeptAt p d' := by
  rcases h with ⟨hnone, ht⟩ | ⟨now, hnow, hsome⟩
  · exact Or.inl ⟨hholds _ hnone, ht⟩
  · exact Or.inr ⟨now, hnow, hholds _ hsome⟩

theorem Tracker.save_keptAt {t : Tracker} {d d' : Disk} {p : Path} {now : Timestamp}
    (hpath : t.path = some p) (hd : d.Stands) (hnow : now.IsValid)
    (h : t.save now d = (d', .ok ())) :
    t.KeptAt p d' ∧ Disk.Grows [d.place p] d d' := by
  have hgrows := grows_save hd t now
  rw [h, places, hpath] at hgrows
  simp only [save, hpath] at h
  split at h
  · rename_i after _ hsave
    cases h
    exact ⟨Or.inr ⟨now, hnow, Disk.save_ok hd hsave⟩, hgrows⟩
  · cases h

theorem Tracker.KeptAt.load {t : Tracker} {d : Disk} {p : Path} (h : t.KeptAt p d) (hd : d.Stands)
    (hsound : t.IsSound) :
    Tracker.load { path := some p } d =
      ({ path := some p, watched := t.watched, hashes := t.hashes }, false) := by
  rcases h with ⟨hnone, hwatched, hhashes⟩ | ⟨now, hnow, hread⟩
  · rw [load_of_no_document (Disk.isFile_eq_false hd hnone), hwatched, hhashes]
  · exact load_of_read hnow hsound hread

/-- A tracker is opened as it was left. -/
theorem Tracker.KeptAt.openAt {t : Tracker} {k : Toolkit} {d : Disk} {p : Path} (h : t.KeptAt p d)
    (hd : d.Stands) (hsound : t.IsSound) :
    Tracker.openAt k p d =
      ({ path := some p, watched := t.watched, hashes := t.hashes }, d, .ok ()) := by
  rw [Tracker.openAt, h.load hd hsound]

/-! ## Stores -/

/-- A graph of a kind that is kept at a path. -/
structure Store.IsFor (s : Store) (kind : StoreKind) (p : Path) : Prop where
  kind : s.kind = kind
  path : s.path = some p
  keyed : s.IsKeyed
  resolved : s.kind = StoreKind.import → s.unresolved = []

namespace Store

variable {s s' : Store} {kind : StoreKind} {d d' : Disk} {p : Path}

theorem IsFor.removeWhere (h : s.IsFor kind p) (owned : String → Bool) :
    (s.removeWhere owned).IsFor kind p where
  kind := h.kind
  path := h.path
  keyed id n hn := by
    rw [Store.removeWhere, Std.ExtTreeMap.getElem?_filter', Option.filter_eq_some_iff] at hn
    exact h.keyed id n hn.1
  resolved himport := by rw [Store.removeWhere, h.resolved himport, List.filter_nil]

theorem IsFor.clear (h : s.IsFor kind p) : s.clear.IsFor kind p where
  kind := h.kind
  path := h.path
  keyed id n hn := by simp [Store.clear] at hn
  resolved _ := rfl

theorem isKeyed_addNodes (h : s.IsKeyed) (ns : List Node) : (s.addNodes ns).IsKeyed := by
  induction ns generalizing s with
  | nil => exact h
  | cons n ns ih =>
    refine ih ?_
    intro id m hm
    rw [addNode, Std.ExtTreeMap.getElem?_insert] at hm
    split at hm
    · rename_i hid
      cases hm
      exact Std.compare_eq_iff_eq.mp hid
    · exact h id m hm

theorem IsFor.put (h : s.IsFor kind p) (f : Fragment) : (s.put (f.slice kind)).IsFor kind p where
  kind := by simp [Store.put, addEdges, addUnresolved, addNodes_eq, h.kind]
  path := by rw [put_path, h.path]
  keyed := isKeyed_addNodes h.keyed _
  resolved hkind := by
    have hsame : (s.put (f.slice kind)).kind = s.kind := by
      simp [Store.put, addEdges, addUnresolved, addNodes_eq]
    have himport : s.kind = .import := hsame.symm.trans hkind
    rw [put_unresolved, h.resolved himport, ← h.kind, himport]
    rfl

theorem save_keptAt {now : Timestamp} {u : Unit} (h : s.IsFor kind p) (hd : d.Stands)
    (hnow : now.IsValid) (hsave : s.save now d = (s', d', .ok u)) :
    s'.IsFor kind p ∧ s'.KeptAt p d' ∧
      Disk.Grows [d.place (Disk.temporary p), d.place p] d d' := by
  have hgrows := grows_save hd s now
  obtain ⟨rfl, hread⟩ := save_ok hd h.path hsave
  rw [hsave] at hgrows
  simp only [places, h.path] at hgrows
  exact ⟨⟨h.kind, h.path, h.keyed, h.resolved⟩, Or.inr ⟨now, hnow, rfl, hread⟩, hgrows⟩

/-- A store is opened as it was left. -/
theorem KeptAt.openAt (h : s.KeptAt p d) (hfor : s.IsFor kind p) (hd : d.Stands)
    (hlines : s.LinesFit) : Store.openAt kind (some p) d = s := by
  rcases h with ⟨hnone, hs⟩ | ⟨now, hnow, hsaved, hread⟩
  · rw [openAt_of_no_document, hs, hfor.kind]
    rintro q ⟨⟩
    exact Disk.isFile_eq_false hd hnone
  · rw [← hfor.kind, ← hfor.path]
    exact openAt_of_read hfor.path hfor.keyed hlines hfor.resolved hnow hsaved hread

end Store

/-! ## Workspaces -/

/-- A folder of source files and the three documents of its workspace. -/
structure Archive where
  root : Path
  imports : Path
  calls : Path
  tracked : Path

namespace Archive

def settings (a : Archive) : WorkspaceSettings where
  root := a.root
  importGraph := some a.imports
  callGraph := some a.calls
  watchState := some a.tracked

/-- The documents, and the files from which the graphs are renamed. -/
def files (a : Archive) : List Path :=
  [a.imports, Disk.temporary a.imports, a.calls, Disk.temporary a.calls, a.tracked]

/-- The files are different ones. -/
def IsApart (a : Archive) (d : Disk) : Prop := (a.files.map d.place).Nodup

instance (a : Archive) (d : Disk) : Decidable (a.IsApart d) :=
  inferInstanceAs (Decidable (List.Nodup _))

variable {a : Archive} {d d' : Disk}

theorem IsApart.grows {touched : List (List String)} (h : a.IsApart d)
    (hgrows : Disk.Grows touched d d') : a.IsApart d' := by
  have hplace : d'.place = d.place := funext hgrows.place
  rw [IsApart, hplace]
  exact h

/-- No document stands where another one or its temporary file does. -/
theorem IsApart.places (h : a.IsApart d) :
    (d.place a.imports ∉ [d.place a.tracked] ∧ d.place a.calls ∉ [d.place a.tracked]) ∧
      d.place a.tracked ∉ [d.place (Disk.temporary a.imports), d.place a.imports] ∧
      d.place a.tracked ∉ [d.place (Disk.temporary a.calls), d.place a.calls] ∧
      d.place a.imports ∉ [d.place (Disk.temporary a.calls), d.place a.calls] := by
  simp only [IsApart, files, List.map_cons, List.map_nil, List.nodup_cons, List.mem_cons,
    List.not_mem_nil, or_false, not_or] at h
  obtain ⟨⟨_, hic, hic', hit⟩, ⟨_, _, hit'⟩, ⟨_, hct⟩, hct', _⟩ := h
  simp only [List.mem_cons, List.not_mem_nil, or_false, not_or]
  exact ⟨⟨hit, hct⟩, ⟨Ne.symm hit', Ne.symm hit⟩, ⟨Ne.symm hct', Ne.symm hct⟩, hic', hic⟩

/-- The disk was changed by others, who stay away from the documents. -/
structure Spares (a : Archive) (d d' : Disk) : Prop where
  current : d'.current = d.current
  stands : d'.Stands
  documents : ∀ p ∈ a.settings.documents, Disk.Holds p d d'

end Archive

namespace Workspace

/-- A workspace whose tracked files are kept in their document. -/
structure IsDrafted (a : Archive) (languages : List Language) (w : Workspace) (d : Disk) : Prop where
  stands : d.Stands
  apart : a.IsApart d
  root : a.root.absoluteFrom? d.currentPath = some w.root
  known : w.languages = languages
  imports : w.imports.IsFor .import a.imports
  calls : w.calls.IsFor .call a.calls
  path : w.tracker.path = some a.tracked
  extensions : w.tracker.extensions = Language.extensionsOf languages
  sound : w.tracker.IsSound
  tracked : w.tracker.KeptAt a.tracked d

/-- A workspace that is kept in its documents. -/
structure IsKept (a : Archive) (languages : List Language) (w : Workspace) (d : Disk) : Prop
    extends IsDrafted a languages w d where
  importsKept : w.imports.KeptAt a.imports d
  callsKept : w.calls.KeptAt a.calls d

/-- Another workspace with graphs of the same kinds and documents. -/
structure Redraws (w w' : Workspace) : Prop where
  frame : w.Frame w'
  imports : ∀ p, w.imports.IsFor .import p → w'.imports.IsFor .import p
  calls : ∀ p, w.calls.IsFor .call p → w'.calls.IsFor .call p

section

variable {a : Archive} {languages : List Language} {k : Toolkit} {w w' : Workspace} {d d' : Disk}
  {p folder : Path} {t : Tracker} {r : Report}

theorem Redraws.refl (w : Workspace) : w.Redraws w := ⟨.refl w, fun _ h => h, fun _ h => h⟩

theorem Redraws.trans {w'' : Workspace} (h : w.Redraws w') (h' : w'.Redraws w'') : w.Redraws w'' where
  frame := h.frame.trans h'.frame
  imports p hp := h'.imports p (h.imports p hp)
  calls p hp := h'.calls p (h.calls p hp)

theorem redraws_index (k : Toolkit) (d : Disk) (w : Workspace) (p : Path) :
    w.Redraws (w.index k d p).1 := by
  rw [index_fst]
  cases w.described? k d p with
  | none => exact .refl w
  | some e =>
    rw [Option.elim_some, putFragment_eq]
    exact ⟨⟨rfl, rfl, rfl, Store.put_path _ _, Store.put_path _ _⟩,
      fun p hp => (hp.removeWhere (· == e.1)).put e.2,
      fun p hp => (hp.removeWhere (· == e.1)).put e.2⟩

theorem redraws_indexAll (k : Toolkit) (d : Disk) (w : Workspace) (ps : List Path) :
    w.Redraws (w.indexAll k d ps).1 := by
  induction ps generalizing w with
  | nil => exact .refl w
  | cons p ps ih => exact (redraws_index k d w p).trans (ih (w.index k d p).1)

theorem redraws_dropFile (w : Workspace) (id : Option String) :
    w.Redraws (id.elim w w.dropFile) := by
  cases id with
  | none => exact .refl w
  | some file =>
    exact ⟨frame_dropFile w (some file), fun p hp => hp.removeWhere (· == file),
      fun p hp => hp.removeWhere (· == file)⟩

theorem redraws_dropBelow (w : Workspace) (folder : Path) : w.Redraws (w.dropBelow folder) := by
  have hdrop : ∀ id, w.Redraws (w.dropFolder id) := fun id =>
    ⟨⟨rfl, rfl, rfl, rfl, rfl⟩, fun p hp => hp.removeWhere (FileId.isWithin · id),
      fun p hp => hp.removeWhere (FileId.isWithin · id)⟩
  unfold dropBelow
  split
  · exact hdrop ""
  · cases FileId.ofPath? w.root folder with
    | none => exact .refl w
    | some id => exact hdrop id

theorem IsDrafted.redraws (h : IsDrafted a languages w d) (hw : w.Redraws w') :
    IsDrafted a languages w' d where
  stands := h.stands
  apart := h.apart
  root := by rw [hw.frame.root, h.root]
  known := by rw [hw.frame.languages, h.known]
  imports := hw.imports _ h.imports
  calls := hw.calls _ h.calls
  path := by rw [hw.frame.tracker, h.path]
  extensions := by rw [hw.frame.tracker, h.extensions]
  sound := by rw [hw.frame.tracker]; exact h.sound
  tracked := by rw [hw.frame.tracker]; exact h.tracked

/-- A change of the tracker that was saved. -/
theorem IsDrafted.track (h : IsDrafted a languages w d) (hnow : k.now.IsValid)
    (ht : w.tracker.Saves k d t d') :
    IsDrafted a languages { w with tracker := t } d' ∧ Disk.Grows [d.place a.tracked] d d' := by
  rcases ht with ⟨rfl, rfl⟩ | ⟨hrevises, hsave⟩
  · exact ⟨h, .refl _ _⟩
  · have hpath : t.path = some a.tracked := hrevises.path.trans h.path
    obtain ⟨hkept, hgrows⟩ := Tracker.save_keptAt hpath h.stands hnow hsave
    have hcurrent : d'.currentPath = d.currentPath := by
      rw [Disk.currentPath, Disk.currentPath, hgrows.current]
    refine ⟨⟨hgrows.stands h.stands, h.apart.grows hgrows, ?_, h.known, h.imports, h.calls, hpath,
      hrevises.extensions.trans h.extensions, hrevises.sound h.sound, hkept⟩, hgrows⟩
    rw [hcurrent]
    exact h.root

theorem IsKept.track (h : IsKept a languages w d) (hnow : k.now.IsValid)
    (ht : w.tracker.Saves k d t d') : IsKept a languages { w with tracker := t } d' := by
  obtain ⟨hdrafted, hgrows⟩ := h.toIsDrafted.track hnow ht
  obtain ⟨⟨himports, hcalls⟩, _⟩ := h.apart.places
  exact ⟨hdrafted, h.importsKept.holds (hgrows.holds h.stands himports),
    h.callsKept.holds (hgrows.holds h.stands hcalls)⟩

/-- A workspace is kept once its graphs are saved. -/
theorem IsDrafted.saved {α : Type} {x y : α} (h : IsDrafted a languages w d) (hnow : k.now.IsValid)
    (hsaved : w.saved k d x = (w', d', .ok y)) : IsKept a languages w' d' := by
  unfold Workspace.saved at hsaved
  split at hsaved
  · cases hsaved
  · rename_i imports mid u hsaveImports
    obtain ⟨himports, himportsKept, hgrows⟩ := Store.save_keptAt h.imports h.stands hnow hsaveImports
    have hmid := hgrows.stands h.stands
    have hapart := h.apart.grows hgrows
    split at hsaved
    · cases hsaved
    · rename_i calls after u' hsaveCalls
      obtain ⟨hcalls, hcallsKept, hgrows'⟩ := Store.save_keptAt h.calls hmid hnow hsaveCalls
      cases hsaved
      obtain ⟨_, htracked, _⟩ := h.apart.places
      obtain ⟨_, _, htracked', himports'⟩ := hapart.places
      have hcurrent : d'.currentPath = d.currentPath := by
        rw [Disk.currentPath, Disk.currentPath, hgrows'.current, hgrows.current]
      exact
        { stands := hgrows'.stands hmid
          apart := hapart.grows hgrows'
          root := by rw [hcurrent]; exact h.root
          known := h.known
          imports := himports
          calls := hcalls
          path := h.path
          extensions := h.extensions
          sound := h.sound
          tracked := (h.tracked.holds (hgrows.holds h.stands htracked)).holds
            (hgrows'.holds hmid htracked')
          importsKept := himportsKept.holds (hgrows'.holds hmid himports')
          callsKept := hcallsKept }

/-- The workspace that an archive is opened as when it has no documents. -/
theorem isKept_of_openAt (hd : d.Stands) (hapart : a.IsApart d)
    (hnew : ∀ p ∈ a.settings.documents, d.content? (d.place p) = none)
    (h : openAt k languages a.settings d = (d', .ok w)) : IsKept a languages w d' := by
  have hfiles : ∀ p ∈ a.settings.documents, d.isFile p = false := fun p hp =>
    Disk.isFile_eq_false hd (hnew p hp)
  obtain ⟨root, hroot, rfl, rfl⟩ := openAt_of_no_documents hfiles h
  have hmem : ∀ p ∈ [a.imports, a.calls, a.tracked], d'.Carries p none := hnew
  have hstore : ∀ kind p, Store.IsFor { kind, path := some p } kind p := fun kind p =>
    ⟨rfl, rfl, fun id n hn => by simp at hn, fun _ => rfl⟩
  exact
    { stands := hd
      apart := hapart
      root := hroot
      known := rfl
      imports := hstore .import a.imports
      calls := hstore .call a.calls
      path := rfl
      extensions := rfl
      sound := fun key hkey => by simp at hkey
      tracked := Or.inl ⟨hmem _ (by simp), rfl, rfl⟩
      importsKept := Or.inl ⟨hmem _ (by simp), rfl⟩
      callsKept := Or.inl ⟨hmem _ (by simp), rfl⟩ }

theorem IsKept.openAt (h : IsKept a languages w d) (himports : w.imports.LinesFit)
    (hcalls : w.calls.LinesFit) : openAt k languages a.settings d = (d, .ok w) := by
  have htracker : ({ path := some a.tracked, extensions := Language.extensionsOf languages
                     watched := w.tracker.watched, hashes := w.tracker.hashes } : Tracker) =
      w.tracker := by
    rw [← h.path, ← h.extensions]
  unfold Workspace.openAt
  simp only [Archive.settings, h.root, h.tracked.openAt h.stands h.sound,
    h.importsKept.openAt h.imports h.stands himports, h.callsKept.openAt h.calls h.stands hcalls,
    htracker]
  rw [← h.known]

theorem IsKept.spares (h : IsKept a languages w d) (hspares : a.Spares d d') :
    IsKept a languages w d' := by
  have hholds : ∀ p ∈ [a.imports, a.calls, a.tracked], Disk.Holds p d d' := hspares.documents
  have hplace : d'.place = d.place := by
    funext p
    rw [Disk.place, Disk.place, Disk.base, Disk.base, hspares.current]
  have hcurrent : d'.currentPath = d.currentPath := by
    rw [Disk.currentPath, Disk.currentPath, hspares.current]
  exact
    { stands := hspares.stands
      apart := by rw [Archive.IsApart, hplace]; exact h.apart
      root := by rw [hcurrent]; exact h.root
      known := h.known
      imports := h.imports
      calls := h.calls
      path := h.path
      extensions := h.extensions
      sound := h.sound
      tracked := h.tracked.holds (hholds _ (by simp))
      importsKept := h.importsKept.holds (hholds _ (by simp))
      callsKept := h.callsKept.holds (hholds _ (by simp)) }

/-! ## Cycles -/

/-- A cycle that changes the tracker, redraws the graphs and saves them. -/
theorem IsKept.cycle (h : IsKept a languages w d) (hnow : k.now.IsValid) {mid : Disk} {drawn : Workspace}
    {x y : Report} (ht : w.tracker.Saves k d t mid) (hdrawn : Redraws { w with tracker := t } drawn)
    (hsaved : drawn.saved k mid x = (w', d', .ok y)) : IsKept a languages w' d' :=
  ((h.toIsDrafted.track hnow ht).1.redraws hdrawn).saved hnow hsaved

theorem IsKept.addFile (h : IsKept a languages w d) (hnow : k.now.IsValid)
    (hok : w.addFile k p d = (w', d', .ok r)) : IsKept a languages w' d' := by
  unfold Workspace.addFile at hok
  dsimp only at hok
  split at hok
  · cases hok
    exact h
  · split at hok
    · cases hok
    · rename_i w₁ d₁ b htracker
      obtain ⟨t, hadd, rfl⟩ := withTracker_ok htracker
      have hsaves := Tracker.addFile_saves hadd
      split at hok
      · exact h.cycle hnow hsaves (redraws_index k d₁ _ _) hok
      · cases hok
        exact h.track hnow hsaves

theorem IsKept.addFolder (h : IsKept a languages w d) (hnow : k.now.IsValid)
    (hok : w.addFolder k folder d = (w', d', .ok r)) : IsKept a languages w' d' := by
  unfold Workspace.addFolder at hok
  split at hok
  · cases hok
  · rename_i w₁ d₁ added htracker
    obtain ⟨t, hadd, rfl⟩ := withTracker_ok htracker
    exact h.cycle hnow (Tracker.addFolder_saves hadd) (redraws_indexAll k d₁ _ added) hok

theorem IsKept.removeFile (h : IsKept a languages w d) (hnow : k.now.IsValid)
    (hok : w.removeFile k p d = (w', d', .ok r)) : IsKept a languages w' d' := by
  unfold Workspace.removeFile at hok
  dsimp only at hok
  split at hok
  · cases hok
  · rename_i w₁ d₁ b htracker
    obtain ⟨t, hremove, rfl⟩ := withTracker_ok htracker
    exact h.cycle hnow (Tracker.removeFile_saves hremove) (redraws_dropFile _ _) hok

theorem IsKept.removeFolder (h : IsKept a languages w d) (hnow : k.now.IsValid)
    (hok : w.removeFolder k folder d = (w', d', .ok r)) : IsKept a languages w' d' := by
  unfold Workspace.removeFolder at hok
  dsimp only at hok
  split at hok
  · cases hok
  · rename_i w₁ d₁ removed htracker
    obtain ⟨t, hremove, rfl⟩ := withTracker_ok htracker
    exact h.cycle hnow (Tracker.removeFolder_saves hremove) (redraws_dropBelow _ _) hok

theorem IsKept.sync (h : IsKept a languages w d) (hnow : k.now.IsValid)
    (hok : w.sync k d = (w', d', .ok r)) : IsKept a languages w' d' := by
  unfold Workspace.sync at hok
  split at hok
  · cases hok
  · rename_i w₁ d₁ htracker
    obtain ⟨t, hchanged, rfl⟩ := withTracker_ok htracker
    cases hok
    exact h.track hnow (Tracker.changedFiles_saves hchanged)
  · rename_i w₁ d₁ changed _ htracker
    obtain ⟨t, hchanged, rfl⟩ := withTracker_ok htracker
    exact h.cycle hnow (Tracker.changedFiles_saves hchanged) (redraws_indexAll k d₁ _ changed) hok

theorem IsKept.reindex (h : IsKept a languages w d) (hnow : k.now.IsValid)
    (hok : w.reindex k d = (w', d', .ok r)) : IsKept a languages w' d' := by
  have hclear : w.Redraws { w with imports := w.imports.clear, calls := w.calls.clear } :=
    ⟨frame_clear w, fun _ hp => hp.clear, fun _ hp => hp.clear⟩
  exact ((h.toIsDrafted.redraws hclear).redraws (redraws_indexAll k d _ w.tracker.files)).saved hnow hok

/-! ## Batches of changes -/

/-- The workspace is kept but for its graphs, and these too if nothing is reported. -/
def Advances (a : Archive) (languages : List Language) (w : Workspace) (d : Disk) (w' : Workspace)
    (d' : Disk) (r : Report) : Prop :=
  (IsDrafted a languages w d → IsDrafted a languages w' d') ∧
    (r.isNoop = true → IsKept a languages w d → IsKept a languages w' d')

theorem isNoop_merge (r s : Report) : (r.merge s).isNoop = (r.isNoop && s.isNoop) := by
  rw [Bool.eq_iff_iff]
  simp only [Report.isNoop, Report.merge, Bool.and_eq_true, beq_iff_eq]
  omega

theorem Advances.merge {w'' : Workspace} {d'' : Disk} {r' : Report}
    (h : Advances a languages w d w' d' r) (h' : Advances a languages w' d' w'' d'' r') :
    Advances a languages w d w'' d'' (r.merge r') := by
  refine ⟨fun hw => h'.1 (h.1 hw), fun hnoop hw => ?_⟩
  rw [isNoop_merge, Bool.and_eq_true] at hnoop
  exact h'.2 hnoop.2 (h.2 hnoop.1 hw)

/-- One file of a batch. -/
theorem advances_run (hnow : k.now.IsValid) {c : Change} (h : c.run k w d = (w', d', .ok r)) :
    Advances a languages w d w' d' r := by
  rcases Change.run_ok h with ⟨_, rfl, rfl, rfl⟩ | ⟨t, hnotice, hsave, hdraw⟩
  · exact ⟨fun hw => hw, fun _ hw => hw⟩
  · have hsaves : w.tracker.Saves k d t d' := Or.inr ⟨Change.revises_notice? hnotice, hsave⟩
    obtain rfl : w' = _ := congrArg Prod.fst hdraw
    obtain rfl : r = _ := congrArg Prod.snd hdraw
    cases c with
    | deleted p =>
      exact ⟨fun hw => (hw.track hnow hsaves).1.redraws (redraws_dropFile _ _),
        fun hnoop => by cases hnoop⟩
    | modified p =>
      refine ⟨fun hw => (hw.track hnow hsaves).1.redraws (redraws_index k d' _ _),
        fun hnoop hw => ?_⟩
      -- a file that is not counted was not described, and the graphs are as before
      simp only [Change.draw] at hnoop ⊢
      rw [Report.isNoop, Bool.and_eq_true, beq_iff_eq, indexed_index] at hnoop
      rw [index_fst]
      cases hdescribed : described? k d' { w with tracker := t }
        (absolute { w with tracker := t } p) with
      | none => exact hw.track hnow hsaves
      | some e =>
        rw [hdescribed] at hnoop
        cases hnoop.1

theorem advances_runAll (hnow : k.now.IsValid) {cs : List Change}
    (h : Change.runAll k cs w d = (w', d', .ok r)) : Advances a languages w d w' d' r := by
  induction cs generalizing w d r with
  | nil =>
    cases h
    exact ⟨fun hw => hw, fun _ hw => hw⟩
  | cons c cs ih =>
    rw [Change.runAll] at h
    split at h
    · cases h
    · rename_i hfirst
      split at h
      · cases h
      · rename_i hrest
        cases h
        exact (advances_run hnow hfirst).merge (ih hrest)

theorem IsKept.apply (h : IsKept a languages w d) (hnow : k.now.IsValid)
    {modified deleted : List Path} (hok : w.apply k modified deleted d = (w', d', .ok r)) :
    IsKept a languages w' d' := by
  rw [apply_eq] at hok
  split at hok
  · cases hok
  · rename_i w₁ d₁ total hrun
    have hadvances : Advances a languages w d w₁ d₁ total := advances_runAll hnow hrun
    split at hok
    · rename_i hnoop
      cases hok
      exact hadvances.2 hnoop h
    · exact (hadvances.1 h.toIsDrafted).saved hnow hok

/-- Every operation that succeeds keeps a workspace in its documents. -/
theorem IsKept.step (h : IsKept a languages w d) (hnow : k.now.IsValid) {op : Operation}
    (hok : op.run k w d = (w', d', .ok r)) : IsKept a languages w' d' := by
  cases op with
  | addFile p => exact h.addFile hnow hok
  | addFolder folder => exact h.addFolder hnow hok
  | removeFile p => exact h.removeFile hnow hok
  | removeFolder folder => exact h.removeFolder hnow hok
  | sync => exact h.sync hnow hok
  | apply modified deleted => exact h.apply hnow hok
  | reindex => exact h.reindex hnow hok

end

end Workspace

/-! ## Runs -/

/--
The states of a workspace that are reached by operations that succeed, each at its own time, and by
changes of the disk by others, who stay away from the documents.
-/
inductive KeptRun (k : Toolkit) (a : Archive) (w₀ : Workspace) (d₀ : Disk) :
    Workspace → Disk → Prop
  | start : KeptRun k a w₀ d₀ w₀ d₀
  | edit {w : Workspace} {d d' : Disk} (h : KeptRun k a w₀ d₀ w d) (hspares : a.Spares d d') :
      KeptRun k a w₀ d₀ w d'
  | step {w w' : Workspace} {d d' : Disk} {r : Report} (h : KeptRun k a w₀ d₀ w d) (op : Operation)
      (now : Timestamp) (hnow : now.IsValid) (hok : op.run { k with now } w d = (w', d', .ok r)) :
      KeptRun k a w₀ d₀ w' d'

theorem KeptRun.isKept {k : Toolkit} {a : Archive} {languages : List Language} {w₀ w : Workspace}
    {d₀ d : Disk} (h : KeptRun k a w₀ d₀ w d) (hstart : w₀.IsKept a languages d₀) :
    w.IsKept a languages d := by
  induction h with
  | start => exact hstart
  | edit _ hspares ih => exact ih.spares hspares
  | step _ op now hnow hok ih => exact ih.step hnow hok

theorem KeptRun.next {k : Toolkit} {a : Archive} {w₀ w : Workspace} {d₀ d : Disk}
    (h : KeptRun k a w₀ d₀ w d) (op : Operation) (hnow : k.now.IsValid)
    (hok : (op.run k w d).2.2.isOk = true) :
    KeptRun k a w₀ d₀ (op.run k w d).1 (op.run k w d).2.1 := by
  obtain ⟨r, hr⟩ := Operation.run_of_isOk hok
  exact h.step op k.now hnow hr

/-- A file that is none of the documents may be written at any time. -/
theorem Archive.spares_write {a : Archive} {d : Disk} {p : Path} (content : ByteArray)
    (hd : d.Stands) (hp : ∀ q ∈ a.settings.documents, d.place q ≠ d.place p) :
    a.Spares d (d.settle (d.write p content)).1 := by
  have hgrows : Disk.Grows [d.place p] d (d.settle (d.write p content)).1 := by
    refine Disk.grows_settle fun d' h => ?_
    obtain ⟨hsets, hfree, _⟩ := Disk.write_ok hd h
    exact hsets.grows hfree
  refine ⟨hgrows.current, hgrows.stands hd, fun q hq => hgrows.holds hd ?_⟩
  rw [List.mem_singleton]
  exact hp q hq

/-! ## Main statement -/

/--
A workspace that was opened without documents and is opened again after any run is the one that was
left: the same tracked files and digests, and the same graphs in the same order.
-/
theorem KeptRun.reopened_eq {k k' : Toolkit} {a : Archive} {languages : List Language}
    {w₀ w : Workspace} {d₀ d₁ d : Disk} (hstands : d₀.Stands) (hapart : a.IsApart d₀)
    (hnew : ∀ p ∈ a.settings.documents, d₀.content? (d₀.place p) = none)
    (hopen : Workspace.openAt k languages a.settings d₀ = (d₁, .ok w₀))
    (hrun : KeptRun k a w₀ d₁ w d) (himports : w.imports.LinesFit) (hcalls : w.calls.LinesFit) :
    Workspace.openAt k' languages a.settings d = (d, .ok w) := by
  have hstart := Workspace.isKept_of_openAt hstands hapart hnew hopen
  exact (hrun.isKept hstart).openAt himports hcalls

namespace Echo

/-- The folder with its documents in another one, which is made when they are saved. -/
def archive : Archive where
  root := ⟨"/w"⟩
  imports := ⟨"/s/import-graph.json"⟩
  calls := ⟨"/s/call-graph.json"⟩
  tracked := ⟨"/s/watch-state.json"⟩

/-- The toolkit at the start of a year. -/
def dated : Toolkit := { toolkit with now := ⟨2000, 1, 1, 0, 0, 0, 0⟩ }

def archived : Workspace where
  root := ⟨"/w"⟩
  imports := { kind := .import, path := some archive.imports }
  calls := { kind := .call, path := some archive.calls }
  tracker := { path := some archive.tracked, extensions := Language.extensionsOf Language.all }

theorem isValid_dated : dated.now.IsValid := by
  refine ⟨?_, ?_, ?_, ?_, ?_, ?_, ?_⟩ <;> decide

theorem openAt_archive :
    Workspace.openAt dated Language.all archive.settings (disk "f") = (disk "f", .ok archived) := by
  have hroot : archive.settings.root.absoluteFrom? (disk "f").currentPath = some ⟨"/w"⟩ := by
    decide +kernel
  have hnew : ∀ p ∈ archive.settings.documents, (disk "f").isFile p = false := by decide +kernel
  have himports : ∀ p ∈ archive.settings.importGraph, (disk "f").isFile p = false := by
    rintro p ⟨⟩
    exact hnew _ (by decide)
  have hcalls : ∀ p ∈ archive.settings.callGraph, (disk "f").isFile p = false := by
    rintro p ⟨⟩
    exact hnew _ (by decide)
  have htracked : (disk "f").isFile archive.tracked = false := hnew _ (by decide)
  rw [Workspace.openAt, hroot, Store.openAt_of_no_document himports,
    Store.openAt_of_no_document hcalls]
  have hwatch : archive.settings.watchState = some archive.tracked := rfl
  simp only [hwatch, Tracker.openAt_of_no_document htracked]
  rfl

end Echo

theorem KeptRun.reopened_eq_echo :
    ∃ w d, KeptRun Echo.dated Echo.archive Echo.archived (Echo.disk "f") w d ∧
      w.calls.unresolved.map (·.callee) = ["g"] ∧
      Workspace.openAt Echo.dated Language.all Echo.archive.settings d = (d, .ok w) := by
  have hstands : (Echo.disk "f").Stands := rfl
  have hapart : Echo.archive.IsApart (Echo.disk "f") := by decide +kernel
  have hnew : ∀ p ∈ Echo.archive.settings.documents,
      (Echo.disk "f").content? ((Echo.disk "f").place p) = none := by decide +kernel
  have hkept := Workspace.isKept_of_openAt hstands hapart hnew Echo.openAt_archive
  have hstart : KeptRun Echo.dated Echo.archive Echo.archived (Echo.disk "f") _ _ := .start
  have hadd := hstart.next (.addFile Echo.file) Echo.isValid_dated (by decide +kernel)
  have hspares := Archive.spares_write (a := Echo.archive) (p := Echo.file) "g".toUTF8
    (hadd.isKept hkept).stands (by decide +kernel)
  have hsync := (hadd.edit hspares).next .sync Echo.isValid_dated (by decide +kernel)
  exact ⟨_, _, hsync, by decide +kernel, KeptRun.reopened_eq hstands hapart hnew Echo.openAt_archive
    hsync (Store.linesFit_iff.mpr (by decide +kernel)) (Store.linesFit_iff.mpr (by decide +kernel))⟩

end SourceGraph
