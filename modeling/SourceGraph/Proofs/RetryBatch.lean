import SourceGraph.Proofs.Reopen
import SourceGraph.Proofs.Retry

/-!
# Batches that fail and are repeated

A batch saves the tracker after each change that it notices. When that fails, the changes before are
done, the one at hand is noticed and not drawn, and a repeated batch goes on behind it. So one change is
lost, and the rest is as if nothing had failed.

* `Workspace.LagsAt`: graphs that agree but for the slices of one file.
* `Change.passAll_of_runAll`, `Change.passAll_of_runAll_error`: batches that succeed and that fail.
* `Retry.Misses`, `Retry.apply`: the change that is lost.
* `Retry.completes_unless_tracker_unsaved`: all operations together.
-/

set_option autoImplicit false

namespace SourceGraph

/-! ## Slices that lag behind -/

/-- The graphs are those of another workspace, but for the slices of one file. -/
structure Workspace.LagsAt (file : String) (i c : Slice) (w w' : Workspace) : Prop where
  imports : w.imports.AgreesOff file i w'.imports
  calls : w.calls.AgreesOff file c w'.calls

namespace Workspace.LagsAt

variable {k : Toolkit} {d : Disk} {w w' v v' : Workspace} {file : String} {i s : Slice}
  {c : Change}

theorem restamps (h : LagsAt file i s w w') (hw : w.Restamps v) (hw' : w'.Restamps v') :
    LagsAt file i s v v' := by
  obtain ⟨x, y, rfl⟩ := hw
  obtain ⟨x', y', rfl⟩ := hw'
  obtain ⟨⟨imports, himports', himports⟩, ⟨calls, hcalls', hcalls⟩⟩ := h
  exact
    { imports := ⟨imports, ⟨himports'.owned, himports'.nodes, himports'.edges, himports'.unresolved⟩,
        ⟨himports.owned, himports.nodes, himports.edges, himports.unresolved⟩⟩
      calls := ⟨calls, ⟨hcalls'.owned, hcalls'.nodes, hcalls'.edges, hcalls'.unresolved⟩,
        ⟨hcalls.owned, hcalls.nodes, hcalls.edges, hcalls.unresolved⟩⟩ }

/-- A change to another file is drawn in both. -/
theorem draw (h : LagsAt file i s w w') (hframe : w.Frame w') (hc : Path.IsUnder w.root c.path)
    (hne : FileId.ofPath? w.root c.path ≠ some file) :
    LagsAt file i s (c.draw k d w).1 (c.draw k d w').1 := by
  have habsolute : w.absolute c.path = c.path := absolute_of_isUnder hc
  have habsolute' : w'.absolute c.path = c.path := by
    rw [absolute, hframe.root]
    exact habsolute
  cases c with
  | deleted p =>
    rw [Change.path] at habsolute habsolute' hne
    rw [Change.draw, Change.draw, habsolute, habsolute', hframe.root]
    cases hid : FileId.ofPath? w.root p with
    | none => exact h
    | some other =>
      have hother : other ≠ file := fun e => hne (e ▸ hid)
      exact ⟨h.imports.removeFile hother, h.calls.removeFile hother⟩
  | modified p =>
    rw [Change.path] at habsolute habsolute' hne hc
    rw [Change.draw, Change.draw, habsolute, habsolute', index_fst, index_fst, hframe.described?]
    cases hdescribed : w.described? k d p with
    | none => exact h
    | some e =>
      obtain ⟨other, f⟩ := e
      have hid := (described?_eq_some.mp hdescribed).1
      have hother : other ≠ file := fun e => hne (e ▸ hid)
      rw [Option.elim_some, Option.elim_some, putFragment_eq, putFragment_eq]
      exact ⟨h.imports.replace hother (isOwned_of_described? hc hdescribed .import),
        h.calls.replace hother (isOwned_of_described? hc hdescribed .call)⟩

/-- A change to the file is drawn in the other workspace only. -/
theorem of_draw (h : LagsAt file i s w w') (hc : Path.IsUnder w'.root c.path)
    (hfile : FileId.ofPath? w'.root c.path = some file) :
    LagsAt file i s w (c.draw k d w').1 := by
  have habsolute : w'.absolute c.path = c.path := absolute_of_isUnder hc
  cases c with
  | deleted p =>
    rw [Change.path] at habsolute hfile
    rw [Change.draw, habsolute, hfile, Option.elim_some]
    exact ⟨h.imports.of_removeFile, h.calls.of_removeFile⟩
  | modified p =>
    rw [Change.path] at habsolute hfile hc
    rw [Change.draw, habsolute, index_fst]
    cases hdescribed : w'.described? k d p with
    | none => exact h
    | some e =>
      obtain ⟨other, f⟩ := e
      have hid := (described?_eq_some.mp hdescribed).1
      obtain rfl : other = file := Option.some.inj (hid.symm.trans hfile)
      rw [Option.elim_some, putFragment_eq]
      exact ⟨h.imports.of_replace (isOwned_of_described? hc hdescribed .import),
        h.calls.of_replace (isOwned_of_described? hc hdescribed .call)⟩

end Workspace.LagsAt

namespace Change

variable {k k' : Toolkit} {digest : ByteArray → String} {d d' : Disk} {w w' : Workspace}
  {c c' : Change} {cs rest : List Change} {t : Tracker}

theorem entry_passAll (h : AreOrderly cs w) (hc : c ∈ cs) (hrest : ∀ c' ∈ rest, c' ∈ cs)
    (hskip : c.IsKnown k.digest d w ∨ c ∉ rest) :
    (passAll k d w rest).tracker.entry c.path.normalized =
      w.tracker.entry c.path.normalized := by
  refine passAll_others (motive := fun v _ =>
    v.tracker.entry c.path.normalized = w.tracker.entry c.path.normalized) ?_ h (.refl w) hc hrest
    hskip rfl
  intro v _ c' horderly _ hc' hne hsame
  rw [pass]
  split
  · exact hsame
  · rename_i t hnotice
    have hkey : c.path.normalized ≠ c'.key v := by
      have hkeys := horderly.key_ne hc hc' (Ne.symm hne)
      rw [key, horderly.absolute hc] at hkeys
      exact hkeys
    rw [(frame_draw k d _ c').tracker]
    exact (entry_of_ne hnotice hkey).trans hsame

theorem lagsAt_passAll {file : String} {i s : Slice} (h : AreOrderly cs w) (hframe : w.Frame w')
    (hc : c ∈ cs) (hrest : ∀ c' ∈ rest, c' ∈ cs) (hskip : c.IsKnown k.digest d w ∨ c ∉ rest)
    (hfile : FileId.ofPath? w.root c.path = some file) (hlags : Workspace.LagsAt file i s w w') :
    Workspace.LagsAt file i s (passAll k d w rest) (passAll k d w' rest) := by
  refine (passAll_others (motive := fun v v' =>
    FileId.ofPath? v.root c.path = some file ∧ Workspace.LagsAt file i s v v') ?_ h hframe hc hrest
    hskip ⟨hfile, hlags⟩).2
  intro v v' c' horderly hframe hc' hne ⟨hfile, hlags⟩
  rw [pass, pass, notice?_of_frame hframe]
  cases hnotice : c'.notice? k.digest d v with
  | none => exact ⟨hfile, hlags⟩
  | some t =>
    have hunder := horderly.under c' hc'
    have hother : FileId.ofPath? v.root c'.path ≠ some file := by
      intro hid
      have hpath := hunder.eq_of_fileId (horderly.under c hc) hid hfile
      exact hne (horderly.once c' hc' c hc hpath)
    have hnoticed : Workspace.Frame { v with tracker := t } { v' with tracker := t } :=
      ⟨hframe.root, hframe.languages, rfl, hframe.importsPath, hframe.callsPath⟩
    have hstart : Workspace.LagsAt file i s { v with tracker := t } { v' with tracker := t } :=
      ⟨hlags.imports, hlags.calls⟩
    refine ⟨?_, hstart.draw hnoticed hunder hother⟩
    rw [(frame_draw k d { v with tracker := t } c').root]
    exact hfile

/-! ## The change that is lost -/

section

variable {front back : List Change}

/-- What the tracker knows of the change does not go back to what it was. -/
theorem AreOrderly.entry_ne (h : AreOrderly (front ++ c :: back) w)
    (hnotice : c.notice? k.digest d (Change.passAll k d w front) = some t)
    (hw' : w' = { Change.passAll k d w front with tracker := t }) :
    (Change.passAll k d w' back).tracker.entry c.path.normalized ≠
      w.tracker.entry c.path.normalized := by
  have hc : c ∈ front ++ c :: back := by simp
  obtain ⟨hstart, hknown, _⟩ := h.passAll_again hnotice hw'
  have hbefore : (Change.passAll k d w front).tracker.entry c.path.normalized =
      w.tracker.entry c.path.normalized :=
    entry_passAll h hc (fun _ hmem => List.mem_append_left _ hmem)
      (Or.inr (h.not_mem_of_notice? hnotice))
  have hlast : (Change.passAll k d w' back).tracker.entry c.path.normalized =
      w'.tracker.entry c.path.normalized :=
    entry_passAll hstart hc (fun c' hmem => by simp [hmem]) (Or.inl hknown)
  have hkey : c.key (Change.passAll k d w front) = c.path.normalized := by
    rw [key, Workspace.absolute_of_isUnder ((passAll_fixed k d w front).root ▸ h.under c hc)]
  rw [hlast, ← hbefore, hw', ← hkey]
  exact Change.entry_ne hnotice

/-- The graphs hold of its file what they held, and the rest as if the change were drawn. -/
theorem AreOrderly.lagsAt (h : AreOrderly (front ++ c :: back) w)
    (hnotice : c.notice? k.digest d (Change.passAll k d w front) = some t)
    (hw' : w' = { Change.passAll k d w front with tracker := t }) {file : String}
    {imports calls : String → Slice} (hfile : FileId.ofPath? w.root c.path = some file)
    (himports : w.imports.Mirrors imports) (hcalls : w.calls.Mirrors calls) :
    Workspace.LagsAt file (imports file) (calls file) (Change.passAll k d w' back)
      (Change.passAll k d (c.draw k d w').1 back) := by
  have hc : c ∈ front ++ c :: back := by simp
  obtain ⟨hstart, hknown, _⟩ := h.passAll_again hnotice hw'
  -- a workspace lags behind itself when its slices of the file are the given ones
  have hmid : Workspace.LagsAt file (imports file) (calls file) (Change.passAll k d w front)
      (Change.passAll k d w front) :=
    lagsAt_passAll h (.refl w) hc (fun _ hmem => List.mem_append_left _ hmem)
      (Or.inr (h.not_mem_of_notice? hnotice)) hfile ⟨himports.agreesOff file, hcalls.agreesOff file⟩
  have hnoticed : Workspace.LagsAt file (imports file) (calls file) w' w' := by
    rw [hw']
    exact ⟨hmid.imports, hmid.calls⟩
  have hid : FileId.ofPath? w'.root c.path = some file := by
    rw [hw']
    exact (passAll_fixed k d w front).root ▸ hfile
  exact lagsAt_passAll hstart (frame_draw k d w' c) hc (fun c' hmem => by simp [hmem])
    (Or.inl hknown) hid (hnoticed.of_draw (hstart.under c hc) hid)

end

/-! ## Runs of a batch -/

/-- What is read for some changes are sources, and they read as on another disk. -/
def AreSources (cs : List Change) (w : Workspace) (d d₀ : Disk) : Prop :=
  ∀ p, modified p ∈ cs → w.IsSource d (w.absolute p) ∧ d.Alike d₀ (w.absolute p)

variable {d₀ d₁ : Disk} {w₁ : Workspace} {r : Report}

theorem AreSources.grows (h : AreSources cs w d d₀) (hgrows : Disk.Grows (w.tracker.places d) d d₁)
    (hroot : w₁.root = w.root) (hpath : w₁.tracker.path = w.tracker.path) :
    AreSources cs w₁ d₁ d₀ := by
  intro p hp
  have habsolute : w₁.absolute p = w.absolute p := by
    rw [Workspace.absolute, Workspace.absolute, hroot]
  obtain ⟨hsource, halike⟩ := h p hp
  have hplaces : w₁.tracker.places d₁ = w.tracker.places d := by
    rw [Tracker.places, Tracker.places, hpath, funext hgrows.place]
  rw [habsolute]
  refine ⟨⟨hsource.direct, ?_⟩, (hsource.alike hgrows).symm.trans halike⟩
  rw [hplaces, hgrows.place]
  exact hsource.apart

theorem notice?_congr (h : AreSources [c] w d d₀) :
    c.notice? digest d w = c.notice? digest d₀ w := by
  cases c with
  | deleted p => rfl
  | modified p =>
    have halike := (h p List.mem_cons_self).2
    rw [notice?, notice?, Tracker.refresh?_congr halike, Tracker.track?_congr halike]

/-- A change that succeeds is passed, and nothing but the document of the tracker is written. -/
theorem pass_of_run (hd : d.Stands) (hs : AreSources [c] w d d₀)
    (h : c.run k' w d = (w₁, d₁, .ok r)) (hdigest : k'.digest = k.digest)
    (hgrammars : k'.grammars = k.grammars) :
    w₁ = pass k d₀ w c ∧ Disk.Grows (w.tracker.places d) d d₁ := by
  rw [pass, ← notice?_congr hs, ← hdigest]
  rcases run_ok h with ⟨hnone, rfl, rfl, _⟩ | ⟨t, hsome, hsave, hdraw⟩
  · rw [hnone]
    exact ⟨rfl, .refl _ _⟩
  · have hpath := (revises_notice? hsome).path
    have hgrows := Tracker.grows_save hd t k'.now
    rw [hsave, Tracker.places, hpath] at hgrows
    refine ⟨?_, hgrows⟩
    rw [hsome]
    have hw₁ : w₁ = (c.draw k' d₁ { w with tracker := t }).1 := congrArg Prod.fst hdraw
    rw [hw₁]
    cases c with
    | deleted p => rfl
    | modified p =>
      obtain ⟨hsource, halike⟩ := hs p List.mem_cons_self
      have hsame : d₁.Alike d₀ (w.absolute p) := (hsource.alike hgrows).symm.trans halike
      change (Workspace.index k' d₁ { w with tracker := t } (w.absolute p)).1 =
        (Workspace.index k d₀ { w with tracker := t } (w.absolute p)).1
      rw [Workspace.index_fst, Workspace.index_fst, hsame.described? hgrammars]

theorem AreSources.pass (h : AreSources (c :: cs) w d d₀)
    (hgrows : Disk.Grows (w.tracker.places d) d d₁) :
    AreSources cs (pass k d₀ w c) d₁ d₀ ∧
      (Change.pass k d₀ w c).tracker.places d₁ = w.tracker.places d := by
  have hrest : AreSources cs w d d₀ := fun p hp => h p (List.mem_cons_of_mem _ hp)
  obtain ⟨hroot, _, hpath, _⟩ := pass_fixed k d₀ w c
  refine ⟨hrest.grows hgrows hroot hpath, ?_⟩
  rw [Tracker.places, Tracker.places, hpath, funext hgrows.place]

/-- A batch that succeeds is passed, and nothing but the document of the tracker is written. -/
theorem passAll_of_runAll (hd : d.Stands) (hs : AreSources cs w d d₀)
    (h : runAll k' cs w d = (w₁, d₁, .ok r)) (hdigest : k'.digest = k.digest)
    (hgrammars : k'.grammars = k.grammars) :
    w₁ = passAll k d₀ w cs ∧ Disk.Grows (w.tracker.places d) d d₁ := by
  induction cs generalizing w d r with
  | nil =>
    cases h
    exact ⟨rfl, .refl _ _⟩
  | cons c cs ih =>
    rw [runAll] at h
    split at h
    · cases h
    · rename_i w₂ d₂ r₂ hfirst
      have hsource : AreSources [c] w d d₀ := fun p hp => hs p (by simp_all)
      obtain ⟨rfl, hgrows⟩ := pass_of_run hd hsource hfirst hdigest hgrammars
      obtain ⟨hrest, hplaces⟩ := hs.pass hgrows
      split at h
      · cases h
      · rename_i w₃ d₃ r₃ hlast
        cases h
        obtain ⟨hpassed, hgrows'⟩ := ih (hgrows.stands hd) hrest hlast
        rw [hplaces] at hgrows'
        exact ⟨hpassed, hgrows.trans hgrows'⟩

/-- A batch that fails is passed up to a change that is noticed and cannot be saved. -/
theorem passAll_of_runAll_error {f : WorkspaceFault} (hd : d.Stands) (hs : AreSources cs w d d₀)
    (h : runAll k' cs w d = (w₁, d₁, .error f)) (hdigest : k'.digest = k.digest)
    (hgrammars : k'.grammars = k.grammars) :
    ∃ front c back t g, cs = front ++ c :: back ∧
      c.notice? k.digest d₀ (passAll k d₀ w front) = some t ∧
      w₁ = { passAll k d₀ w front with tracker := t } ∧ f = .tracker g := by
  induction cs generalizing w d with
  | nil => cases h
  | cons c cs ih =>
    have hsource : AreSources [c] w d d₀ := fun p hp => hs p (by simp_all)
    rw [runAll] at h
    split at h
    · rename_i hfirst
      cases h
      obtain ⟨t, g, hnotice, rfl, rfl, _⟩ := run_error hfirst
      rw [notice?_congr hsource, hdigest] at hnotice
      exact ⟨[], c, cs, t, g, rfl, hnotice, rfl, rfl⟩
    · rename_i w₂ d₂ r₂ hfirst
      obtain ⟨rfl, hgrows⟩ := pass_of_run hd hsource hfirst hdigest hgrammars
      obtain ⟨hrest, _⟩ := hs.pass hgrows
      split at h
      · rename_i hlast
        cases h
        obtain ⟨front, c', back, t, g, rfl, hnotice, hw₁, hf⟩ := ih (hgrows.stands hd) hrest hlast
        exact ⟨c :: front, c', back, t, g, rfl, hnotice, hw₁, hf⟩
      · cases h

theorem runAll_of_isKnown (h : ∀ c ∈ cs, c.IsKnown k.digest d w) :
    runAll k cs w d = (w, d, .ok {}) := by
  induction cs with
  | nil => rfl
  | cons c cs ih =>
    have hfirst : c.run k w d = (w, d, .ok {}) := by
      rw [run, notice?_eq_none_iff.mpr (h c List.mem_cons_self)]
    rw [runAll, hfirst]
    dsimp only
    rw [ih fun c hc => h c (List.mem_cons_of_mem _ hc)]
    rfl

end Change

/-- A batch that succeeds leaves the workspace as it is passed, but for times of saving. -/
theorem Workspace.restamps_of_apply {k k' : Toolkit} {modified deleted : List Path}
    {w w' : Workspace} {d d' d₀ : Disk} {r : Report} (hd : d.Stands)
    (hs : Change.AreSources (Change.ofBatch modified deleted) w d d₀)
    (h : w.apply k' modified deleted d = (w', d', .ok r)) (hdigest : k'.digest = k.digest)
    (hgrammars : k'.grammars = k.grammars) :
    (Change.passAll k d₀ w (Change.ofBatch modified deleted)).Restamps w' := by
  rw [apply_eq] at h
  split at h
  · cases h
  · rename_i w₁ d₁ total hrun
    obtain ⟨rfl, _⟩ := Change.passAll_of_runAll hd hs hrun hdigest hgrammars
    split at h
    · cases h
      exact .refl _
    · have hstamps := restamps_saved k' (Change.passAll k d₀ w (Change.ofBatch modified deleted))
        d₁ total
      rw [h] at hstamps
      exact hstamps

namespace Retry

variable {k : Toolkit} {op : Operation} {modified deleted : List Path}

/--
The tracker knows of a change that the graphs do not show: what they hold for the file is as before
both calls, and all else is as after the single call.
-/
structure Misses (r : Retry k op) (c : Change) : Prop where
  noticed : r.again.tracker.entry c.path.normalized ≠ r.before.tracker.entry c.path.normalized
  graphs : ∀ file imports calls, FileId.ofPath? r.before.root c.path = some file →
    r.before.imports.Mirrors imports → r.before.calls.Mirrors calls →
    Workspace.LagsAt file (imports file) (calls file) r.again r.once

theorem areSources (r : Retry k (.apply modified deleted)) :
    Change.AreSources (Change.ofBatch modified deleted) r.before r.disk r.later := by
  intro p hp
  have hmem : r.before.absolute p ∈
      (Operation.apply modified deleted).sources r.before r.disk :=
    List.mem_map_of_mem (Change.modified_mem_ofBatch.mp hp)
  exact r.sources _ hmem

theorem areSources_later (r : Retry k (.apply modified deleted)) {w : Workspace}
    (hroot : w.root = r.before.root) (hpath : w.tracker.path = r.before.tracker.path) :
    Change.AreSources (Change.ofBatch modified deleted) w r.later r.later := by
  have hbefore : Change.AreSources (Change.ofBatch modified deleted) r.before r.later r.later := by
    intro p hp
    obtain ⟨hsource, _⟩ := r.areSources p hp
    refine ⟨⟨hsource.direct, ?_⟩, .refl _ _⟩
    rw [r.places_later, r.place_later]
    exact hsource.apart
  exact hbefore.grows (.refl _ _) hroot hpath

/-- A batch fails at the end, or at a change that it noticed. -/
theorem apply_failed (r : Retry k (.apply modified deleted)) :
    (∃ g, r.fault = .store g) ∧
      (Change.passAll k r.later r.before (Change.ofBatch modified deleted)).Restamps r.failed ∨
    (∃ g, r.fault = .tracker g) ∧ ∃ front c back t,
      Change.ofBatch modified deleted = front ++ c :: back ∧
      c.notice? k.digest r.later (Change.passAll k r.later r.before front) = some t ∧
      r.failed = { Change.passAll k r.later r.before front with tracker := t } := by
  obtain ⟨now, d, hfail⟩ := r.failing
  change r.before.apply _ modified deleted r.disk = _ at hfail
  rw [Workspace.apply_eq] at hfail
  split at hfail
  · rename_i w₁ d₁ f hrun
    obtain ⟨front, c, back, t, g, hbatch, hnotice, hw₁, hf⟩ :=
      Change.passAll_of_runAll_error r.stands r.areSources hrun (k := k) rfl rfl
    rw [Prod.mk.injEq, Prod.mk.injEq, Except.error.injEq] at hfail
    obtain ⟨hfailed, _, hfault⟩ := hfail
    exact Or.inr ⟨⟨g, hfault.symm.trans hf⟩, front, c, back, t, hbatch, hnotice,
      hfailed.symm.trans hw₁⟩
  · rename_i w₁ d₁ total hrun
    obtain ⟨rfl, _⟩ := Change.passAll_of_runAll r.stands r.areSources hrun (k := k) rfl rfl
    split at hfail
    · simp at hfail
    · have hstamps := Workspace.restamps_saved { k with now := now }
        (Change.passAll k r.later r.before (Change.ofBatch modified deleted)) d₁ total
      rw [hfail] at hstamps
      exact Or.inl ⟨Workspace.saved_error hfail, hstamps⟩

theorem apply_once (r : Retry k (.apply modified deleted)) :
    (Change.passAll k r.later r.before (Change.ofBatch modified deleted)).Restamps r.once := by
  obtain ⟨now, d, s, honce⟩ := r.succeeding
  change r.before.apply _ modified deleted r.later = _ at honce
  exact Workspace.restamps_of_apply r.laterStands (r.areSources_later rfl rfl) honce rfl rfl

/-- When only the graphs could not be saved, the repeated batch finds nothing to do. -/
theorem apply_settled (r : Retry k (.apply modified deleted))
    (horderly : Change.AreOrderly (Change.ofBatch modified deleted) r.before)
    (hfailed : (Change.passAll k r.later r.before (Change.ofBatch modified deleted)).Restamps
      r.failed) : r.again = r.failed ∧ r.after = r.later := by
  obtain ⟨now, s, hagain⟩ := r.repeating
  change r.failed.apply _ modified deleted r.later = _ at hagain
  have hknown : ∀ c ∈ Change.ofBatch modified deleted, c.IsKnown k.digest r.later r.failed := by
    intro c hc
    rw [Change.isKnown_of_frame hfailed.frame]
    exact (horderly.passAll (fun _ h => h) k r.later).2 c hc (Or.inr hc)
  have hrun : Change.runAll { k with now := now } (Change.ofBatch modified deleted) r.failed r.later =
      (r.failed, r.later, .ok {}) := Change.runAll_of_isKnown hknown
  rw [Workspace.apply_eq, hrun] at hagain
  have hnoop : (r.failed, r.later, Except.ok ({} : Report)) = (r.again, r.after, .ok s) := hagain
  rw [Prod.mk.injEq, Prod.mk.injEq] at hnoop
  exact ⟨hnoop.1.symm, hnoop.2.1.symm⟩

/-- When the tracker could not be saved at a change, the repeated batch leaves the change out. -/
theorem apply_misses (r : Retry k (.apply modified deleted))
    (horderly : Change.AreOrderly (Change.ofBatch modified deleted) r.before)
    {front back : List Change} {c : Change} {t : Tracker}
    (hbatch : Change.ofBatch modified deleted = front ++ c :: back)
    (hnotice : c.notice? k.digest r.later (Change.passAll k r.later r.before front) = some t)
    (hfailed : r.failed = { Change.passAll k r.later r.before front with tracker := t }) :
    r.again.tracker = r.once.tracker ∧ r.Misses c := by
  rw [hbatch] at horderly
  obtain ⟨_, _, hskips⟩ := horderly.passAll_again hnotice hfailed
  have honce := r.apply_once
  rw [hbatch, Change.passAll_of_notice? hnotice hfailed] at honce
  -- the repeated batch starts where the failed one stopped, with the change already noticed
  obtain ⟨hroot, _, hpath, _⟩ := Change.passAll_fixed k r.later r.before front
  have hsources := r.areSources_later (w := r.failed) (by rw [hfailed]; exact hroot)
    (by rw [hfailed]; exact (Change.revises_notice? hnotice).path.trans hpath)
  obtain ⟨now, s, hrepeat⟩ := r.repeating
  change r.failed.apply _ modified deleted r.later = _ at hrepeat
  have hagain := Workspace.restamps_of_apply r.laterStands hsources hrepeat (k := k) rfl rfl
  rw [hbatch, hskips] at hagain
  refine ⟨?_, ?_, ?_⟩
  · have hdrawn := Change.frame_draw k r.later r.failed c
    rw [hagain.frame.tracker, honce.frame.tracker,
      (Change.frame_passAll hdrawn k r.later back).tracker]
  · rw [hagain.frame.tracker]
    exact horderly.entry_ne hnotice hfailed
  · intro file imports calls hfile himports hcalls
    exact (horderly.lagsAt hnotice hfailed hfile himports hcalls).restamps hagain honce

theorem apply (r : Retry k (.apply modified deleted))
    (horderly : Change.AreOrderly (Change.ofBatch modified deleted) r.before) :
    (∃ g, r.fault = .store g) ∧ r.Completes ∧ r.after = r.later ∨
    (∃ g, r.fault = .tracker g) ∧ r.again.tracker = r.once.tracker ∧
      ∃ c ∈ Change.ofBatch modified deleted, r.Misses c := by
  rcases r.apply_failed with ⟨hfault, hfailed⟩ | ⟨hfault, front, c, back, t, hbatch, hnotice, hfailed⟩
  · obtain ⟨hagain, hafter⟩ := r.apply_settled horderly hfailed
    refine Or.inl ⟨hfault, ?_, hafter⟩
    rw [Completes, hagain]
    exact r.apply_once.symm.trans hfailed
  · obtain ⟨htracker, hmisses⟩ := r.apply_misses horderly hbatch hnotice hfailed
    exact Or.inr ⟨hfault, htracker, c, by simp [hbatch], hmisses⟩

/-! ## Main statement -/

/--
A repeated call completes what a failed one began, unless it was the tracker that could not be saved.
Then the changes of a folder and those that a sync finds are lost, and of a batch the change at which
it failed; the tracker knows of them, so that no later call makes up for it. A file that is added by
itself is never lost. What could not be written is not always written the second time: files and
folders write the graphs only, a sync writes nothing, and a batch that loses nothing does not either.
-/
theorem completes_unless_tracker_unsaved (k : Toolkit) :
    (∀ p (r : Retry k (.addFile p)), Path.IsUnder r.before.root p →
      r.Completes ∧ r.WritesGraphs) ∧
    (∀ folder (r : Retry k (.addFolder folder)),
      ((∃ g, r.fault = .store g) ∧ r.Completes ∨ (∃ g, r.fault = .tracker g) ∧ r.Loses) ∧
        r.WritesGraphs) ∧
    (∀ r : Retry k .sync,
      ((∃ g, r.fault = .store g) ∧ r.Completes ∨ (∃ g, r.fault = .tracker g) ∧ r.Loses) ∧
        r.after = r.later) ∧
    ∀ modified deleted (r : Retry k (.apply modified deleted)),
      Change.AreOrderly (Change.ofBatch modified deleted) r.before →
      (∃ g, r.fault = .store g) ∧ r.Completes ∧ r.after = r.later ∨
        (∃ g, r.fault = .tracker g) ∧ r.again.tracker = r.once.tracker ∧
          ∃ c ∈ Change.ofBatch modified deleted, r.Misses c :=
  ⟨fun _ r => r.addFile, fun _ r => r.addFolder, fun r => r.sync, fun _ _ r => r.apply⟩

end Retry

namespace Echo

/-- The folder, and another folder where the document of the tracker should be. -/
def blocked : Disk where
  top := .folder "s" (.folder "watch-state.json" .nil .nil)
    (.folder "w" (.file "a.ts" "f".toUTF8 .nil) .nil)
  current := []

/-- The workspace when files with one extension are picked up. -/
def narrow : Workspace :=
  { archived with tracker := { path := some archive.tracked, extensions := ["ts"] } }

/-- The same when the file is tracked and has no digest. -/
def unread : Workspace :=
  { narrow with tracker := { narrow.tracker with watched := {file.text} } }

theorem alike_blocked : blocked.Alike (disk "f") file := by
  have hread : blocked.read file = (disk "f").read file := by decide +kernel
  intro content
  rw [hread]

/-- An operation that reads the file, first with the folder in its way and then without. -/
def retry (op : Operation) (before : Workspace)
    (hpath : before.tracker.path = some archive.tracked)
    (hsources : ∀ p ∈ op.sources before blocked, p = file)
    (hlisted : ∀ folder, op = .addFolder folder →
      (disk "f").enumerate before.tracker.extensions (before.absolute folder) =
        blocked.enumerate before.tracker.extensions (before.absolute folder))
    (hfail : (op.run dated before blocked).2.2 = .error (.tracker ⟨archive.tracked, .isFolder⟩))
    (hagain : (op.run dated (op.run dated before blocked).1 (disk "f")).2.2.isOk = true)
    (honce : (op.run dated before (disk "f")).2.2.isOk = true) : Retry dated op where
  before := before
  disk := blocked
  fault := .tracker ⟨archive.tracked, .isFolder⟩
  failed := (op.run dated before blocked).1
  later := disk "f"
  again := (op.run dated (op.run dated before blocked).1 (disk "f")).1
  after := (op.run dated (op.run dated before blocked).1 (disk "f")).2.1
  once := (op.run dated before (disk "f")).1
  failing := ⟨dated.now, _, Prod.ext rfl (Prod.ext rfl hfail)⟩
  repeating := ⟨dated.now, Operation.run_of_isOk hagain⟩
  succeeding := ⟨dated.now, _, Operation.run_of_isOk honce⟩
  stands := rfl
  laterStands := rfl
  current := rfl
  sources p hp := by
    rw [hsources p hp]
    refine ⟨⟨by decide +kernel, ?_⟩, alike_blocked⟩
    rw [Tracker.places, hpath]
    decide +kernel
  listed := hlisted

/-- One file needs no sorting. -/
theorem enumerate_sole {d : Disk} {steps : List String} {inside : Listing}
    (hfind : d.find ⟨"/w"⟩ = .ok (.folder steps inside))
    (hfiles : inside.filesBelow ["ts"] ⟨"/w"⟩ = [file]) : d.enumerate ["ts"] ⟨"/w"⟩ = [file] := by
  simp only [Disk.enumerate, hfind, hfiles, List.mergeSort_singleton]

theorem enumerate_blocked : blocked.enumerate ["ts"] ⟨"/w"⟩ = [file] :=
  enumerate_sole rfl (by decide +kernel)

theorem enumerate_disk : (disk "f").enumerate ["ts"] ⟨"/w"⟩ = [file] :=
  enumerate_sole rfl (by decide +kernel)

/-- What is left when the folder cannot be added. -/
def unsaved : Workspace := ((Operation.addFolder ⟨"/w"⟩).run dated narrow blocked).1

theorem enumerate_unsaved :
    (disk "f").enumerate unsaved.tracker.extensions (unsaved.absolute ⟨"/w"⟩) = [file] := by
  have hkept : unsaved.tracker.extensions = ["ts"] ∧ unsaved.absolute ⟨"/w"⟩ = ⟨"/w"⟩ := by
    rw [unsaved, Operation.run, Workspace.addFolder_of_enumerate enumerate_blocked]
    decide +kernel
  rw [hkept.1, hkept.2, enumerate_disk]

theorem addFolder_blocked : ((Operation.addFolder ⟨"/w"⟩).run dated narrow blocked).2.2 =
    .error (.tracker ⟨archive.tracked, .isFolder⟩) := by
  rw [Operation.run, Workspace.addFolder_of_enumerate enumerate_blocked]
  decide +kernel

theorem addFolder_unsaved :
    ((Operation.addFolder ⟨"/w"⟩).run dated unsaved (disk "f")).2.2.isOk = true := by
  rw [Operation.run, Workspace.addFolder_of_enumerate enumerate_unsaved, unsaved, Operation.run,
    Workspace.addFolder_of_enumerate enumerate_blocked]
  decide +kernel

theorem addFolder_disk :
    ((Operation.addFolder ⟨"/w"⟩).run dated narrow (disk "f")).2.2.isOk = true := by
  rw [Operation.run, Workspace.addFolder_of_enumerate enumerate_disk]
  decide +kernel

theorem areOrderly : Change.AreOrderly (Change.ofBatch [file] []) unread where
  under c hc := by
    rw [List.mem_singleton.mp hc]
    exact isUnder_file
  once c hc c' hc' _ := (List.mem_singleton.mp hc).trans (List.mem_singleton.mp hc').symm
  files p hp key hkey := by
    have hp : p = file := by simpa [Change.ofBatch] using hp
    have hkey : key = file.text := by
      rcases hkey with hkey | ⟨q, hq, rfl⟩
      · have hmem : compare file.text key = .eq := by simpa [unread, eq_comm] using hkey
        exact (Std.compare_eq_iff_eq.mp hmem).symm
      · have hq : q = file := by simpa [Change.ofBatch] using hq
        rw [hq]
        decide +kernel
    rw [hp, hkey]
    decide +kernel

end Echo

theorem Retry.completes_unless_tracker_unsaved_echo :
    (∃ r : Retry Echo.dated (.addFile Echo.file), (∃ g, r.fault = .tracker g) ∧ r.Completes ∧
      r.again.calls.unresolved.map (·.callee) = ["f"]) ∧
    (∃ r : Retry Echo.dated (.addFolder ⟨"/w"⟩), r.Loses ∧
      r.once.calls.unresolved.map (·.callee) = ["f"] ∧ r.again.calls.unresolved = []) ∧
    (∃ r : Retry Echo.dated .sync, r.Loses ∧
      r.once.calls.unresolved.map (·.callee) = ["f"] ∧ r.again.calls.unresolved = []) ∧
    ∃ r : Retry Echo.dated (.apply [Echo.file] []), r.Misses (.modified Echo.file) ∧
      r.once.calls.unresolved.map (·.callee) = ["f"] ∧ r.again.calls.unresolved = [] := by
  obtain ⟨hfile, hfolder, hsync, hbatch⟩ := Retry.completes_unless_tracker_unsaved Echo.dated
  refine ⟨?_, ?_, ?_, ?_⟩
  · let r := Echo.retry (.addFile Echo.file) Echo.narrow rfl (by decide +kernel) nofun
      (by decide +kernel) (by decide +kernel) (by decide +kernel)
    exact ⟨r, ⟨_, rfl⟩, (hfile _ r Echo.isUnder_file).1, by decide +kernel⟩
  · have hsources : ∀ p ∈ (Operation.addFolder ⟨"/w"⟩).sources Echo.narrow Echo.blocked,
        p = Echo.file := by
      intro p hp
      exact List.mem_singleton.mp (Echo.enumerate_blocked ▸ hp)
    have hlisted : ∀ folder, Operation.addFolder ⟨"/w"⟩ = .addFolder folder →
        (Echo.disk "f").enumerate Echo.narrow.tracker.extensions
            (Echo.narrow.absolute folder) =
          Echo.blocked.enumerate Echo.narrow.tracker.extensions
            (Echo.narrow.absolute folder) := by
      rintro folder ⟨⟩
      exact Echo.enumerate_disk.trans Echo.enumerate_blocked.symm
    let r := Echo.retry (.addFolder ⟨"/w"⟩) Echo.narrow rfl hsources hlisted
      Echo.addFolder_blocked Echo.addFolder_unsaved Echo.addFolder_disk
    rcases (hfolder _ r).1 with ⟨⟨g, hg⟩, _⟩ | ⟨_, hloses⟩
    · cases hg
    · refine ⟨r, hloses, ?_, ?_⟩
      · change (Workspace.addFolder _ _ _ _).1.calls.unresolved.map _ = _
        rw [Workspace.addFolder_of_enumerate Echo.enumerate_disk]
        decide +kernel
      · obtain ⟨x, y, hagain⟩ := hloses.graphs
        rw [hagain]
        rfl
  · let r := Echo.retry .sync Echo.unread rfl (by decide +kernel) nofun (by decide +kernel)
      (by decide +kernel) (by decide +kernel)
    rcases (hsync r).1 with ⟨⟨g, hg⟩, _⟩ | ⟨_, hloses⟩
    · cases hg
    · exact ⟨r, hloses, by decide +kernel, by decide +kernel⟩
  · let r := Echo.retry (.apply [Echo.file] []) Echo.unread rfl (by decide +kernel) nofun
      (by decide +kernel) (by decide +kernel) (by decide +kernel)
    rcases hbatch _ _ r Echo.areOrderly with ⟨⟨g, hg⟩, _⟩ | ⟨_, _, c, hc, hmisses⟩
    · cases hg
    · rw [List.mem_singleton.mp hc] at hmisses
      exact ⟨r, hmisses, by decide +kernel, by decide +kernel⟩

end SourceGraph
