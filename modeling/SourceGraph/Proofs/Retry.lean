import SourceGraph.Proofs.Batch
import SourceGraph.Proofs.Sources

/-!
# Calls that fail and are repeated

The tracker changes before it is saved, and it is saved before the files are described. So a call that
fails leaves a tracker that knows of all changes, and a repeated call finds nothing new. Where the
graphs could not be saved that is no loss. Where the tracker could not be saved the changes never reach
the graphs; a file that is added by itself is described again and is the exception.

* `Workspace.Cycle`: how an operation ends.
* `Retry`: a call that fails, the same call repeated, and a call that succeeds at once.
* `Retry.Completes`, `Retry.Loses`: what the repeated call makes of it.
* `Retry.addFile`, `Retry.addFolder`, `Retry.sync`: three of the operations.
-/

set_option autoImplicit false

namespace SourceGraph

/-! ## Cycles -/

namespace Workspace

variable {k : Toolkit} {d d' : Disk} {w w' : Workspace} {p folder : Path} {t : Tracker}

theorem saved_error {α : Type} {a : α} {f : WorkspaceFault}
    (h : w.saved k d a = (w', d', .error f)) : ∃ g, f = .store g := by
  unfold saved at h
  split at h
  · cases h
    exact ⟨_, rfl⟩
  · split at h
    · cases h
      exact ⟨_, rfl⟩
    · cases h

/-- A file that is described twice is described once. -/
theorem index_index (hp : Path.IsUnder w.root p) :
    ((w.index k d p).1.index k d p).1 = (w.index k d p).1 := by
  have hsame : (w.index k d p).1.described? k d p = w.described? k d p :=
    (frame_index k d w p).described?
  rw [index_fst, hsame]
  rw [index_fst]
  cases hdescribed : w.described? k d p with
  | none => rfl
  | some e =>
    have himports := isOwned_of_described? hp hdescribed .import
    have hcalls := isOwned_of_described? hp hdescribed .call
    rw [Option.elim_some, putFragment_eq, Option.elim_some, putFragment_eq]
    simp only [Store.replace_again himports, Store.replace_again hcalls]

/-- The saving of a tracker fails, or it only adds to the disk. -/
theorem saved_outcome {α : Type} (hd : d.Stands) (hpath : t.path = w.tracker.path)
    (now : Timestamp) (a : α) :
    (∃ d' f, w.withTracker (t.saved now d a) =
      ({ w with tracker := t }, d', .error (.tracker f))) ∨
    ∃ mid, Disk.Grows (w.tracker.places d) d mid ∧
      w.withTracker (t.saved now d a) = ({ w with tracker := t }, mid, .ok a) := by
  have hgrows := Tracker.grows_save hd t now
  rw [Tracker.places, hpath] at hgrows
  rw [withTracker_saved]
  cases hsave : t.save now d with
  | mk mid res =>
    rw [hsave] at hgrows
    cases res with
    | ok _ => exact Or.inr ⟨mid, hgrows, rfl⟩
    | error f => exact Or.inl ⟨mid, f, rfl⟩

/--
One cycle of an operation: the tracker changes and is saved, then some files are described and the
graphs are saved. Where nothing is to be described the graphs may be left as they are.
-/
inductive Cycle (k : Toolkit) (w : Workspace) (d : Disk) (t : Tracker) (ps : List Path) :
    Outcome Report → Prop
  | unsaved (hps : ps ≠ []) (d' : Disk) (f : SaveFault) :
      Cycle k w d t ps ({ w with tracker := t }, d', .error (.tracker f))
  | idle (hps : ps = []) : Cycle k w d t ps ({ w with tracker := t }, d, .ok {})
  | drawn (mid : Disk) (r : Report) (hgrows : Disk.Grows (w.tracker.places d) d mid) :
      Cycle k w d t ps (saved k (indexAll k mid { w with tracker := t } ps).1 mid r)

theorem addFolder_of_enumerate {ps : List Path}
    (h : d.enumerate w.tracker.extensions (w.absolute folder) = ps) :
    w.addFolder k folder d =
      match w.withTracker (match w.tracker.trackAll k.digest d ps with
        | (t, []) => (t, d, .ok [])
        | (t, added) => t.saved k.now d added) with
      | (w, d, .error f) => (w, d, .error f)
      | (w, d, .ok added) => saved k (w.indexAll k d added).1 d (w.indexAll k d added).2 := by
  subst h
  rfl

theorem addFolder_of_settled
    (h : w.tracker.trackAll k.digest d (d.enumerate w.tracker.extensions (w.absolute folder)) =
      (w.tracker, [])) : w.addFolder k folder d = w.saved k d {} := by
  simp only [addFolder_of_enumerate rfl, h, withTracker, indexAll]

theorem cycle_addFolder (hd : d.Stands) {added : List Path}
    (htrack : w.tracker.trackAll k.digest d (d.enumerate w.tracker.extensions (w.absolute folder)) =
      (t, added)) : Cycle k w d t added (w.addFolder k folder d) := by
  have hpath := (Tracker.extends_of_trackAll htrack).1.path
  unfold addFolder Tracker.addFolder
  rw [htrack]
  cases added with
  | nil => exact .drawn d {} (.refl _ d)
  | cons p ps =>
    rcases saved_outcome hd hpath k.now (p :: ps) with ⟨d', f, h⟩ | ⟨mid, hgrows, h⟩
    · simp only [h]
      exact .unsaved (List.cons_ne_nil _ _) d' f
    · simp only [h]
      exact .drawn mid _ hgrows

theorem sync_of_settled (h : w.tracker.rescan k.digest d = (w.tracker, [])) :
    w.sync k d = (w, d, .ok {}) := by
  simp only [sync, Tracker.changedFiles, h, withTracker]

theorem cycle_sync (hd : d.Stands) {changed : List Path}
    (hscan : w.tracker.rescan k.digest d = (t, changed)) :
    Cycle k w d t changed (w.sync k d) := by
  obtain ⟨_, _, hspec⟩ := Tracker.rescan_spec hscan
  unfold sync Tracker.changedFiles
  rw [hscan]
  cases changed with
  | nil => exact .idle rfl
  | cons p ps =>
    rcases saved_outcome hd hspec.path k.now (p :: ps) with ⟨d', f, h⟩ | ⟨mid, hgrows, h⟩
    · simp only [h]
      exact .unsaved (List.cons_ne_nil _ _) d' f
    · simp only [h]
      exact .drawn mid _ hgrows

theorem addFile_of_isTracked (hs : w.supports (w.absolute p) = true)
    (ht : w.tracker.isTracked (w.absolute p) = true) :
    w.addFile k p d = saved k (w.index k d (w.absolute p)).1 d (w.index k d (w.absolute p)).2 := by
  have hsame : w.tracker.addFile k (w.absolute p) d = (w.tracker, d, .ok false) := by
    rw [Tracker.addFile, Tracker.track?_of_isTracked ht]
  simp only [addFile, hs, hsame, withTracker, ht, Bool.not_true, Bool.false_eq_true, if_false,
    if_true]

theorem addFile_of_refused
    (h : w.supports (w.absolute p) = false ∨
      w.tracker.track? k.digest d (w.absolute p) = none ∧
        w.tracker.isTracked (w.absolute p) = false) :
    w.addFile k p d = (w, d, .ok { skipped := 1 }) := by
  rcases h with hs | ⟨ht, hnot⟩
  · simp [addFile, hs]
  · have hsame : w.tracker.addFile k (w.absolute p) d = (w.tracker, d, .ok false) := by
      rw [Tracker.addFile, ht]
    cases hs : w.supports (w.absolute p) with
    | false => simp [addFile, hs]
    | true =>
      simp only [addFile, hs, hsame, withTracker, hnot, Bool.not_true, Bool.false_eq_true, if_false]

/-- Only a file that is tracked in the end can make the call fail. -/
theorem addFile_error {f : WorkspaceFault} (h : w.addFile k p d = (w', d', .error f)) :
    w.supports (w.absolute p) = true ∧
      ((w.tracker.track? k.digest d (w.absolute p)).getD w.tracker).isTracked (w.absolute p) =
        true := by
  refine ⟨?_, ?_⟩
  · by_contra hnot
    rw [addFile_of_refused (Or.inl (by simpa using hnot))] at h
    cases h
  · cases htrack : w.tracker.track? k.digest d (w.absolute p) with
    | some added => exact Tracker.isTracked_of_track? htrack
    | none =>
      by_contra hnot
      rw [addFile_of_refused (Or.inr ⟨htrack, by simpa using hnot⟩)] at h
      cases h

theorem cycle_addFile (hd : d.Stands) (hs : w.supports (w.absolute p) = true)
    (ht : (w.tracker.track? k.digest d (w.absolute p)).getD w.tracker = t)
    (htracked : t.isTracked (w.absolute p) = true) :
    Cycle k w d t [w.absolute p] (w.addFile k p d) := by
  cases htrack : w.tracker.track? k.digest d (w.absolute p) with
  | none =>
    rw [htrack] at ht
    cases ht
    rw [addFile_of_isTracked hs htracked, ← indexAll_singleton]
    exact .drawn d _ (.refl _ d)
  | some added =>
    obtain rfl : added = t := by
      rw [htrack] at ht
      exact ht
    have hpath := (Tracker.extends_of_track? htrack).path
    have hadd : w.tracker.addFile k (w.absolute p) d = added.saved k.now d true := by
      rw [Tracker.addFile, htrack]
    simp only [addFile, hs, hadd, Bool.not_true, Bool.false_eq_true, if_false]
    rcases saved_outcome hd hpath k.now true with ⟨d', f, h⟩ | ⟨mid, hgrows, h⟩
    · rw [h]
      exact .unsaved (List.cons_ne_nil _ _) d' f
    · rw [h]
      dsimp only
      rw [if_pos htracked, ← indexAll_singleton]
      exact .drawn mid _ hgrows

/-- A cycle that fails leaves the graphs as they were, or drawn and not saved. -/
theorem Cycle.failed {ps : List Path} {f : WorkspaceFault}
    (h : Cycle k w d t ps (w', d', .error f)) :
    (∃ g, f = .tracker g) ∧ ps ≠ [] ∧ w' = { w with tracker := t } ∨
      (∃ g, f = .store g) ∧ ∃ mid, Disk.Grows (w.tracker.places d) d mid ∧
        Restamps (indexAll k mid { w with tracker := t } ps).1 w' := by
  generalize ho : (w', d', Except.error f) = o at h
  cases h with
  | unsaved hps after g =>
    cases ho
    exact Or.inl ⟨⟨g, rfl⟩, hps, rfl⟩
  | idle hps => cases ho
  | drawn mid r hgrows =>
    have hstamps := restamps_saved k (indexAll k mid { w with tracker := t } ps).1 mid r
    rw [← ho] at hstamps
    exact Or.inr ⟨saved_error ho.symm, mid, hgrows, hstamps⟩

theorem Cycle.succeeded {ps : List Path} {r : Report} (h : Cycle k w d t ps (w', d', .ok r)) :
    ∃ mid, Disk.Grows (w.tracker.places d) d mid ∧
      Restamps (indexAll k mid { w with tracker := t } ps).1 w' := by
  generalize ho : (w', d', Except.ok r) = o at h
  cases h with
  | unsaved hps after g => cases ho
  | idle hps =>
    cases ho
    subst hps
    exact ⟨d, .refl _ d, .refl _⟩
  | drawn mid s hgrows =>
    have hstamps := restamps_saved k (indexAll k mid { w with tracker := t } ps).1 mid s
    rw [← ho] at hstamps
    exact ⟨mid, hgrows, hstamps⟩

end Workspace

/-! ## Calls that fail and are repeated -/

/-- The files that an operation may read. -/
def Operation.sources (w : Workspace) (d : Disk) : Operation → List Path
  | addFile p => [w.absolute p]
  | addFolder folder => d.enumerate w.tracker.extensions (w.absolute folder)
  | sync | reindex => w.tracker.files
  | apply modified _ => modified.map w.absolute
  | removeFile _ | removeFolder _ => []

/--
An operation that fails, is repeated when it can succeed, and for comparison succeeds at once. The
sources are the same all the time; each call has a time of its own.
-/
structure Retry (k : Toolkit) (op : Operation) where
  before : Workspace
  disk : Disk
  fault : WorkspaceFault
  /-- The workspace after the call that failed. -/
  failed : Workspace
  /-- The disk when the call is repeated. -/
  later : Disk
  /-- The workspace after the repeated call. -/
  again : Workspace
  after : Disk
  /-- The workspace after a single call that succeeds. -/
  once : Workspace
  failing : ∃ now d, op.run { k with now } before disk = (failed, d, .error fault)
  repeating : ∃ now r, op.run { k with now } failed later = (again, after, .ok r)
  succeeding : ∃ now d r, op.run { k with now } before later = (once, d, .ok r)
  stands : disk.Stands
  laterStands : later.Stands
  current : later.current = disk.current
  sources : ∀ p ∈ op.sources before disk, before.IsSource disk p ∧ disk.Alike later p
  listed : ∀ folder, op = .addFolder folder →
    later.enumerate before.tracker.extensions (before.absolute folder) =
      disk.enumerate before.tracker.extensions (before.absolute folder)

namespace Retry

variable {k : Toolkit} {op : Operation} {p folder : Path}

/-- All is as after the single call, but for times of saving. -/
def Completes (r : Retry k op) : Prop := r.once.Restamps r.again

/--
The tracker knows of changes that the graphs do not show: it is as after the single call, and the
graphs are as before both calls.
-/
structure Loses (r : Retry k op) : Prop where
  noticed : ∃ key, r.again.tracker.entry key ≠ r.before.tracker.entry key
  graphs : Workspace.Restamps { r.before with tracker := r.once.tracker } r.again

/-- The documents of the graphs are written, and nothing else is. -/
structure WritesGraphs (r : Retry k op) : Prop where
  elsewhere : Disk.Grows (r.before.graphPlaces r.later) r.later r.after
  written : r.before.GraphsApart r.later → r.again.IsWritten r.after

theorem place_later (r : Retry k op) : r.later.place = r.disk.place := by
  funext p
  rw [Disk.place, Disk.place, Disk.base, Disk.base, r.current]

theorem places_later (r : Retry k op) (t : Tracker) : t.places r.later = t.places r.disk := by
  rw [Tracker.places, Tracker.places, r.place_later]

/-- Sources read the same whatever was saved by either call. -/
theorem alike (r : Retry k op) {mid mid' : Disk} (hp : p ∈ op.sources r.before r.disk)
    (hmid : Disk.Grows (r.before.tracker.places r.disk) r.disk mid)
    (hmid' : Disk.Grows (r.before.tracker.places r.later) r.later mid') : mid.Alike mid' p := by
  obtain ⟨hsource, hsame⟩ := r.sources p hp
  have hlater : r.before.IsSource r.later p :=
    ⟨hsource.direct, by rw [r.places_later, r.place_later]; exact hsource.apart⟩
  exact ((hsource.alike hmid).symm.trans hsame).trans (hlater.alike hmid')

/-- What the failed call leaves, compared with a call that succeeds at once. -/
theorem compare (r : Retry k op) {k₁ k₂ : Toolkit} {t : Tracker} {ps : List Path} {d d' : Disk}
    {s : Report} (hps : ∀ p ∈ ps, p ∈ op.sources r.before r.disk)
    (hfail : Workspace.Cycle k₁ r.before r.disk t ps (r.failed, d, .error r.fault))
    (honce : Workspace.Cycle k₂ r.before r.later t ps (r.once, d', .ok s))
    (hk : k₂.grammars = k₁.grammars) :
    Workspace.Frame { r.before with tracker := t } r.failed ∧
      ((∃ g, r.fault = .store g) ∧ r.once.Restamps r.failed ∨
        (∃ g, r.fault = .tracker g) ∧ ps ≠ [] ∧
          r.failed = { r.before with tracker := r.once.tracker }) := by
  obtain ⟨mid', hgrows', honce⟩ := honce.succeeded
  have honceFrame := (Workspace.frame_indexAll k₂ mid' { r.before with tracker := t } ps).trans
    honce.frame
  rcases hfail.failed with ⟨hfault, hne, hfailed⟩ | ⟨hfault, mid, hgrows, hfailed⟩
  · refine ⟨by rw [hfailed]; exact .refl _, Or.inr ⟨hfault, hne, ?_⟩⟩
    rw [hfailed, honceFrame.tracker]
  · refine ⟨(Workspace.frame_indexAll k₁ mid _ ps).trans hfailed.frame, Or.inl ⟨hfault, ?_⟩⟩
    refine (honce.symm.trans ?_).trans hfailed
    refine (Workspace.Restamps.refl _).indexAll hk fun p hp => ?_
    exact (r.alike (hps p hp) hgrows hgrows').symm

theorem writes_of_saved {α : Type} {a b : α} (r : Retry k op) {k' : Toolkit} {w : Workspace}
    {t : Tracker} (hframe : Workspace.Frame { r.before with tracker := t } w)
    (h : w.saved k' r.later a = (r.again, r.after, .ok b)) :
    w.Restamps r.again ∧ r.WritesGraphs := by
  have hstamps := Workspace.restamps_saved k' w r.later a
  have hgrows := Workspace.grows_saved r.laterStands k' w a
  rw [h] at hstamps hgrows
  rw [hframe.graphPlaces] at hgrows
  refine ⟨hstamps, hgrows, fun hapart => Workspace.written_of_saved r.laterStands ?_ h⟩
  intro p hp
  rw [Store.places, hframe.callsPath]
  exact hapart p (hframe.importsPath.symm.trans hp)

theorem addFolder (r : Retry k (.addFolder folder)) :
    ((∃ g, r.fault = .store g) ∧ r.Completes ∨ (∃ g, r.fault = .tracker g) ∧ r.Loses) ∧
      r.WritesGraphs := by
  obtain ⟨now, d, hfail⟩ := r.failing
  obtain ⟨now', s, hagain⟩ := r.repeating
  obtain ⟨now'', d'', s'', honce⟩ := r.succeeding
  have hlisted := r.listed folder rfl
  have hsame : ∀ p ∈ r.disk.enumerate r.before.tracker.extensions (r.before.absolute folder),
      r.disk.Alike r.later p := fun p hp => (r.sources p hp).2
  cases htrack : r.before.tracker.trackAll k.digest r.disk
    (r.disk.enumerate r.before.tracker.extensions (r.before.absolute folder)) with
  | mk t added =>
    have hrevises := (Tracker.revises_trackAll k.digest r.disk r.before.tracker
      (r.disk.enumerate r.before.tracker.extensions (r.before.absolute folder))).1
    rw [htrack] at hrevises
    have htrack' : r.before.tracker.trackAll k.digest r.later
        (r.later.enumerate r.before.tracker.extensions (r.before.absolute folder)) = (t, added) := by
      rw [hlisted, ← Tracker.trackAll_congr hsame, htrack]
    have hcycle : Workspace.Cycle { k with now := now } r.before r.disk t added
        (r.before.addFolder { k with now := now } folder r.disk) :=
      Workspace.cycle_addFolder r.stands htrack
    have hcycle' : Workspace.Cycle { k with now := now'' } r.before r.later t added
        (r.before.addFolder { k with now := now'' } folder r.later) :=
      Workspace.cycle_addFolder r.laterStands htrack'
    change r.before.addFolder _ folder r.disk = _ at hfail
    change r.before.addFolder _ folder r.later = _ at honce
    rw [hfail] at hcycle
    rw [honce] at hcycle'
    obtain ⟨hframe, hcompared⟩ :=
      r.compare (Tracker.extends_of_trackAll htrack).2 hcycle hcycle' rfl
    -- the second call finds nothing new, whatever became of the first
    have hsettled : r.failed.addFolder { k with now := now' } folder r.later =
        r.failed.saved { k with now := now' } r.later {} := by
      refine Workspace.addFolder_of_settled ?_
      have habsolute : r.failed.absolute folder = r.before.absolute folder := by
        rw [Workspace.absolute, Workspace.absolute, hframe.root]
      rw [habsolute, hframe.tracker]
      refine Tracker.trackAll_eq_nil fun p hp => ?_
      rw [hrevises.extensions, hlisted] at hp
      rw [← Tracker.track?_congr (hsame p hp)]
      exact Tracker.trackAll_again htrack p hp
    change r.failed.addFolder _ folder r.later = _ at hagain
    rw [hsettled] at hagain
    obtain ⟨hstamps, hwrites⟩ := r.writes_of_saved hframe hagain
    refine ⟨?_, hwrites⟩
    rcases hcompared with ⟨hfault, honce⟩ | ⟨hfault, hne, hfailed⟩
    · exact Or.inl ⟨hfault, honce.trans hstamps⟩
    · have htracker : r.again.tracker = t := hstamps.frame.tracker.trans hframe.tracker
      rw [hfailed] at hstamps
      refine Or.inr ⟨hfault, ?_, hstamps⟩
      rw [htracker]
      exact (Tracker.extends_of_trackAll htrack).1.noticed hne

theorem sync (r : Retry k .sync) :
    ((∃ g, r.fault = .store g) ∧ r.Completes ∨ (∃ g, r.fault = .tracker g) ∧ r.Loses) ∧
      r.after = r.later := by
  obtain ⟨now, d, hfail⟩ := r.failing
  obtain ⟨now', s, hagain⟩ := r.repeating
  obtain ⟨now'', d'', s'', honce⟩ := r.succeeding
  have hsame : ∀ p ∈ r.before.tracker.files, r.disk.Alike r.later p := fun p hp =>
    (r.sources p hp).2
  cases hscan : r.before.tracker.rescan k.digest r.disk with
  | mk t changed =>
    obtain ⟨keys, hkeys, hspec⟩ := Tracker.rescan_spec hscan
    have hscan' : r.before.tracker.rescan k.digest r.later = (t, changed) := by
      rw [← Tracker.rescan_congr hsame, hscan]
    have hcycle : Workspace.Cycle { k with now := now } r.before r.disk t changed
        (r.before.sync { k with now := now } r.disk) := Workspace.cycle_sync r.stands hscan
    have hcycle' : Workspace.Cycle { k with now := now'' } r.before r.later t changed
        (r.before.sync { k with now := now'' } r.later) := Workspace.cycle_sync r.laterStands hscan'
    change r.before.sync _ r.disk = _ at hfail
    change r.before.sync _ r.later = _ at honce
    rw [hfail] at hcycle
    rw [honce] at hcycle'
    have hchanged : ∀ p ∈ changed, p ∈ r.before.tracker.files := by
      rw [hkeys]
      intro p hp
      obtain ⟨key, hkey, rfl⟩ := List.mem_map.mp hp
      exact Tracker.mk_mem_files.mpr ((hspec.mem_changed key).mp hkey).1
    obtain ⟨hframe, hcompared⟩ := r.compare hchanged hcycle hcycle' rfl
    -- the second call finds all digests current, and saves nothing
    have hsettled : r.failed.sync { k with now := now' } r.later = (r.failed, r.later, .ok {}) := by
      refine Workspace.sync_of_settled ?_
      rw [hframe.tracker]
      exact Tracker.rescan_again hscan'
    change r.failed.sync _ r.later = _ at hagain
    rw [hsettled, Prod.mk.injEq, Prod.mk.injEq] at hagain
    obtain ⟨hagain, hafter, _⟩ := hagain
    refine ⟨?_, hafter.symm⟩
    rcases hcompared with ⟨hfault, honce⟩ | ⟨hfault, hne, hfailed⟩
    · refine Or.inl ⟨hfault, ?_⟩
      rw [Completes, ← hagain]
      exact honce
    · refine Or.inr ⟨hfault, ?_, ?_⟩
      · rw [← hagain, hframe.tracker]
        exact hspec.noticed fun hnil => hne (by rw [hkeys, hnil]; rfl)
      · rw [← hfailed, ← hagain]
        exact .refl _

theorem addFile (r : Retry k (.addFile p)) (hp : Path.IsUnder r.before.root p) :
    r.Completes ∧ r.WritesGraphs := by
  obtain ⟨now, d, hfail⟩ := r.failing
  obtain ⟨now', s, hagain⟩ := r.repeating
  obtain ⟨now'', d'', s'', honce⟩ := r.succeeding
  have hsource : r.before.absolute p ∈ (Operation.addFile p).sources r.before r.disk :=
    List.mem_cons_self
  have hsame := (r.sources _ hsource).2
  have habsolute : r.before.absolute p = p := Workspace.absolute_of_isUnder hp
  change r.before.addFile _ p r.disk = _ at hfail
  change r.failed.addFile _ p r.later = _ at hagain
  change r.before.addFile _ p r.later = _ at honce
  obtain ⟨t, ht⟩ : ∃ t, (r.before.tracker.track? k.digest r.disk (r.before.absolute p)).getD
      r.before.tracker = t := ⟨_, rfl⟩
  obtain ⟨hs, htracked⟩ := Workspace.addFile_error hfail
  change ((r.before.tracker.track? k.digest r.disk (r.before.absolute p)).getD
    r.before.tracker).isTracked (r.before.absolute p) = true at htracked
  rw [ht] at htracked
  have ht' : (r.before.tracker.track? k.digest r.later (r.before.absolute p)).getD
      r.before.tracker = t := by rw [← Tracker.track?_congr hsame, ht]
  have hcycle : Workspace.Cycle { k with now := now } r.before r.disk t [r.before.absolute p]
      (r.before.addFile { k with now := now } p r.disk) :=
    Workspace.cycle_addFile r.stands hs ht htracked
  have hcycle' : Workspace.Cycle { k with now := now'' } r.before r.later t [r.before.absolute p]
      (r.before.addFile { k with now := now'' } p r.later) :=
    Workspace.cycle_addFile r.laterStands hs ht' htracked
  rw [hfail] at hcycle
  rw [honce] at hcycle'
  obtain ⟨hframe, hcompared⟩ := r.compare (by simpa using hsource) hcycle hcycle' rfl
  obtain ⟨mid, hgrows, hdrawn⟩ := hcycle'.succeeded
  rw [Workspace.indexAll_singleton] at hdrawn
  -- the second call describes the file again
  have hroot : r.failed.absolute p = r.before.absolute p := by
    rw [Workspace.absolute, Workspace.absolute, hframe.root]
  have hsupports : r.failed.supports (r.failed.absolute p) = true := by
    rw [hroot, Workspace.supports, hframe.languages]
    exact hs
  have hknown : r.failed.tracker.isTracked (r.failed.absolute p) = true := by
    rw [hroot, hframe.tracker]
    exact htracked
  rw [Workspace.addFile_of_isTracked hsupports hknown, hroot] at hagain
  have hdescribed : Workspace.Frame { r.before with tracker := t }
      (r.failed.index { k with now := now' } r.later (r.before.absolute p)).1 :=
    hframe.trans (Workspace.frame_index { k with now := now' } r.later r.failed _)
  obtain ⟨hstamps, hwrites⟩ := r.writes_of_saved hdescribed hagain
  refine ⟨?_, hwrites⟩
  refine (hdrawn.symm.trans ?_).trans hstamps
  have hmid : mid.Alike r.later (r.before.absolute p) :=
    (r.alike hsource (.refl _ _) hgrows).symm.trans hsame
  rcases hcompared with ⟨_, honce⟩ | ⟨_, _, hfailed⟩
  · -- described twice is described once
    have htwice : Workspace.Restamps
        ((Workspace.index { k with now := now'' } mid { r.before with tracker := t }
          (r.before.absolute p)).1.index { k with now := now'' } mid (r.before.absolute p)).1
        (r.failed.index { k with now := now' } r.later (r.before.absolute p)).1 :=
      (hdrawn.trans honce).index rfl hmid
    rw [Workspace.index_index (habsolute.symm ▸ hp)] at htwice
    exact htwice
  · have htracker : r.once.tracker = t := by
      have hsame := hframe.tracker
      rw [hfailed] at hsame
      exact hsame
    rw [htracker] at hfailed
    rw [hfailed]
    exact (Workspace.Restamps.refl _).index rfl hmid

end Retry

end SourceGraph
