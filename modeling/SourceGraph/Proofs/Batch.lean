import SourceGraph.Proofs.Cycle

/-!
# Batches, file by file

A batch of changes is one list of files, each of which is deleted or modified. For each file the
tracker notices the change, is saved, and then the graphs are redrawn. A change is noticed once: in an
orderly batch it stays known, whatever other changes follow.

* `Change`: one file of a batch.
* `Change.notice?`: the tracker that knows of the change, if there is one to know of.
* `Change.run`, `Change.runAll`: what becomes of a workspace.
* `Workspace.apply_eq`: a batch is its deleted files, then its modified ones.
* `Change.IsKnown`, `Change.AreOrderly`: changes that are known, and batches in which they stay so.
* `Change.passAll`: a batch without its saving.
* `Change.AreOrderly.passAll_again`: a batch that stopped at a change goes on behind it.
-/

set_option autoImplicit false

namespace SourceGraph

/-- One file of a batch. -/
inductive Change where
  | deleted (p : Path)
  | modified (p : Path)

namespace Change

def path : Change → Path
  | deleted p | modified p => p

/-- The tracker that knows of the change, unless it did before. -/
def notice? (digest : ByteArray → String) (d : Disk) (w : Workspace) : Change → Option Tracker
  | deleted p =>
    if w.tracker.isTracked (w.absolute p) then some (w.tracker.erase (w.absolute p).normalized)
    else none
  | modified p =>
    if w.tracker.isTracked (w.absolute p) then w.tracker.refresh? digest d (w.absolute p)
    else if w.isWelcome (w.absolute p) then w.tracker.track? digest d (w.absolute p)
    else none

/-- The workspace with the change in its graphs. -/
def draw (k : Toolkit) (d : Disk) (w : Workspace) : Change → Workspace × Report
  | deleted p => ((FileId.ofPath? w.root (w.absolute p)).elim w w.dropFile, { removed := 1 })
  | modified p => w.index k d (w.absolute p)

/-- A change is noticed, then saved, then drawn. -/
def run (k : Toolkit) (c : Change) (w : Workspace) (d : Disk) : Workspace.Outcome Report :=
  match c.notice? k.digest d w with
  | none => (w, d, .ok {})
  | some t =>
    match t.save k.now d with
    | (d, .ok _) =>
      let (w, r) := c.draw k d { w with tracker := t }
      (w, d, .ok r)
    | (d, .error f) => ({ w with tracker := t }, d, .error (.tracker f))

/-- Some changes, up to the first that fails. -/
def runAll (k : Toolkit) : List Change → Workspace → Disk → Workspace.Outcome Report
  | [], w, d => (w, d, .ok {})
  | c :: cs, w, d =>
    match c.run k w d with
    | (w, d, .error f) => (w, d, .error f)
    | (w, d, .ok r) =>
      match runAll k cs w d with
      | (w, d, .error f) => (w, d, .error f)
      | (w, d, .ok rest) => (w, d, .ok (r.merge rest))

end Change

namespace Workspace

variable {k : Toolkit} {d d' : Disk} {w w' : Workspace} {r : Report}

theorem withTracker_saved {α : Type} (w : Workspace) (t : Tracker) (now : Timestamp) (d : Disk)
    (a : α) : w.withTracker (t.saved now d a) =
      match t.save now d with
      | (d, .ok _) => ({ w with tracker := t }, d, .ok a)
      | (d, .error f) => ({ w with tracker := t }, d, .error (.tracker f)) := by
  unfold Tracker.saved
  cases t.save now d with
  | mk d res => cases res <;> rfl

theorem applyDeleted_eq (k : Toolkit) (p : Path) (w : Workspace) (d : Disk) :
    w.applyDeleted k p d = (Change.deleted p).run k w d := by
  unfold applyDeleted Change.run Change.notice? Tracker.removeFile
  dsimp only
  cases htracked : w.tracker.isTracked (w.absolute p) with
  | false => rfl
  | true =>
    simp only [↓reduceIte, withTracker_saved]
    cases Tracker.save _ k.now d with
    | mk d res => cases res <;> rfl

theorem applyModified_eq (k : Toolkit) (p : Path) (w : Workspace) (d : Disk) :
    w.applyModified k p d = (Change.modified p).run k w d := by
  have hnoticed : (if w.tracker.isTracked (w.absolute p) then w.tracker.refreshFile k (w.absolute p) d
      else if w.isWelcome (w.absolute p) then w.tracker.addFile k (w.absolute p) d
      else (w.tracker, d, .ok false)) =
      match (Change.modified p).notice? k.digest d w with
      | none => (w.tracker, d, .ok false)
      | some t => t.saved k.now d true := by
    unfold Change.notice?
    dsimp only
    split
    · rfl
    · split
      · rfl
      · rfl
  unfold applyModified Change.run
  dsimp only
  rw [hnoticed]
  cases (Change.modified p).notice? k.digest d w with
  | none => rfl
  | some t =>
    simp only [withTracker_saved]
    cases t.save k.now d with
    | mk d res => cases res <;> rfl

theorem forEach_eq {op : Path → Workspace → Disk → Outcome Report} {change : Path → Change}
    (hop : ∀ p w d, op p w d = (change p).run k w d) (ps : List Path) (w : Workspace) (d : Disk) :
    forEach op ps w d = Change.runAll k (ps.map change) w d := by
  induction ps generalizing w d with
  | nil => rfl
  | cons p ps ih =>
    have hrest : forEach op ps = Change.runAll k (ps.map change) := funext₂ ih
    rw [forEach, List.map_cons, Change.runAll, hop]
    generalize forEach op ps = rest at hrest ⊢
    subst hrest
    rfl

theorem runAll_append (k : Toolkit) (cs more : List Change) (w : Workspace) (d : Disk) :
    Change.runAll k (cs ++ more) w d =
      match Change.runAll k cs w d with
      | (w, d, .error f) => (w, d, .error f)
      | (w, d, .ok r) =>
        match Change.runAll k more w d with
        | (w, d, .error f) => (w, d, .error f)
        | (w, d, .ok s) => (w, d, .ok (r.merge s)) := by
  induction cs generalizing w d with
  | nil =>
    rw [List.nil_append, Change.runAll]
    dsimp only
    cases Change.runAll k more w d with
    | mk w' rest =>
      obtain ⟨d', res⟩ := rest
      cases res with
      | error f => rfl
      | ok s => simp [Report.merge]
  | cons c cs ih =>
    rw [List.cons_append, Change.runAll, Change.runAll]
    cases c.run k w d with
    | mk w₁ rest =>
      obtain ⟨d₁, res⟩ := rest
      cases res with
      | error f => rfl
      | ok r =>
        simp only [ih]
        cases Change.runAll k cs w₁ d₁ with
        | mk w₂ rest =>
          obtain ⟨d₂, res⟩ := rest
          cases res with
          | error f => rfl
          | ok r₂ =>
            dsimp only
            cases Change.runAll k more w₂ d₂ with
            | mk w₃ rest =>
              obtain ⟨d₃, res⟩ := rest
              cases res with
              | error f => rfl
              | ok s => simp [Report.merge, Nat.add_assoc]

end Workspace

/-- The changes of a batch: the deleted files first. -/
def Change.ofBatch (modified deleted : List Path) : List Change :=
  deleted.map .deleted ++ modified.map .modified

theorem Workspace.apply_eq (k : Toolkit) (modified deleted : List Path) (w : Workspace) (d : Disk) :
    w.apply k modified deleted d =
      match Change.runAll k (Change.ofBatch modified deleted) w d with
      | (w, d, .error f) => (w, d, .error f)
      | (w, d, .ok total) => if total.isNoop then (w, d, .ok total) else w.saved k d total := by
  unfold apply Change.ofBatch
  rw [runAll_append, forEach_eq (applyDeleted_eq k)]
  cases Change.runAll k (deleted.map .deleted) w d with
  | mk w₁ rest =>
    obtain ⟨d₁, res⟩ := rest
    cases res with
    | error f => rfl
    | ok r =>
      dsimp only
      rw [forEach_eq (applyModified_eq k)]
      cases Change.runAll k (modified.map .modified) w₁ d₁ with
      | mk w₂ rest =>
        obtain ⟨d₂, res⟩ := rest
        cases res <;> rfl

/-- The same root, languages, extensions and documents. -/
structure Workspace.SameSetting (w w' : Workspace) : Prop where
  root : w'.root = w.root
  languages : w'.languages = w.languages
  path : w'.tracker.path = w.tracker.path
  extensions : w'.tracker.extensions = w.tracker.extensions
  importsPath : w'.imports.path = w.imports.path
  callsPath : w'.calls.path = w.calls.path

theorem Workspace.SameSetting.refl (w : Workspace) : w.SameSetting w := ⟨rfl, rfl, rfl, rfl, rfl, rfl⟩

theorem Workspace.SameSetting.trans {w w' w'' : Workspace} (h : w.SameSetting w')
    (h' : w'.SameSetting w'') : w.SameSetting w'' :=
  ⟨h'.root.trans h.root, h'.languages.trans h.languages, h'.path.trans h.path,
    h'.extensions.trans h.extensions, h'.importsPath.trans h.importsPath,
    h'.callsPath.trans h.callsPath⟩

namespace Change

variable {k : Toolkit} {d d' : Disk} {w w' : Workspace} {r : Report} {c : Change}
  {cs : List Change}

theorem run_ok (h : c.run k w d = (w', d', .ok r)) :
    c.notice? k.digest d w = none ∧ w' = w ∧ d' = d ∧ r = {} ∨
      ∃ t, c.notice? k.digest d w = some t ∧ t.save k.now d = (d', .ok ()) ∧
        (w', r) = c.draw k d' { w with tracker := t } := by
  unfold run at h
  split at h
  · rename_i hnone
    cases h
    exact Or.inl ⟨hnone, rfl, rfl, rfl⟩
  · rename_i t hsome
    split at h
    · rename_i mid u hsave
      cases h
      exact Or.inr ⟨t, hsome, hsave, rfl⟩
    · cases h

theorem run_error {f : WorkspaceFault} (h : c.run k w d = (w', d', .error f)) :
    ∃ t g, c.notice? k.digest d w = some t ∧ w' = { w with tracker := t } ∧ f = .tracker g ∧
      t.save k.now d = (d', .error g) := by
  unfold run at h
  split at h
  · cases h
  · rename_i t hsome
    split at h
    · cases h
    · rename_i mid g hsave
      cases h
      exact ⟨t, g, hsome, rfl, rfl, hsave⟩

theorem modified_mem_ofBatch {p : Path} {changed gone : List Path} :
    modified p ∈ ofBatch changed gone ↔ p ∈ changed := by
  simp [ofBatch]

end Change

/-! ## What a change does to a tracker -/

namespace Change

variable {k : Toolkit} {digest : ByteArray → String} {d : Disk} {w w' : Workspace}
  {c c' : Change} {cs : List Change} {t : Tracker}

/-- The key under which a change is noticed. -/
def key (w : Workspace) (c : Change) : String := (w.absolute c.path).normalized

theorem notice?_cases (h : c.notice? digest d w = some t) :
    (∃ p, c = deleted p ∧ w.tracker.isTracked (w.absolute p) = true ∧
      t = w.tracker.erase (c.key w)) ∨
    ∃ p hash, c = modified p ∧ Tracker.hashOf? digest d (w.absolute p) = some hash ∧
      (w.tracker.isTracked (w.absolute p) = true ∧ w.tracker.hashes[c.key w]? ≠ some hash ∧
          t = { w.tracker with hashes := w.tracker.hashes.insert (c.key w) hash } ∨
        w.tracker.isTracked (w.absolute p) = false ∧ w.isWelcome (w.absolute p) = true ∧
          t = w.tracker.insert (c.key w) hash) := by
  cases c with
  | deleted p =>
    rw [notice?] at h
    split at h
    · rename_i htracked
      cases h
      exact Or.inl ⟨p, rfl, htracked, rfl⟩
    · cases h
  | modified p =>
    rw [notice?] at h
    split at h
    · rename_i htracked
      rw [Tracker.refresh?, if_pos htracked] at h
      split at h
      · rename_i hash hhash
        split at h
        · cases h
        · rename_i hne
          cases h
          exact Or.inr ⟨p, hash, rfl, hhash, Or.inl ⟨htracked, hne, rfl⟩⟩
      · cases h
    · rename_i htracked
      split at h
      · rename_i hwelcome
        rw [Tracker.track?, if_neg htracked] at h
        obtain ⟨hash, hhash, rfl⟩ := Option.map_eq_some_iff.mp h
        exact Or.inr ⟨p, hash, rfl, hhash, Or.inr ⟨by simpa using htracked, hwelcome, rfl⟩⟩
      · cases h

theorem revises_notice? (h : c.notice? digest d w = some t) : w.tracker.Revises t := by
  cases c with
  | deleted p =>
    rw [notice?] at h
    split at h
    · cases h
      exact Tracker.revises_erase _ _
    · cases h
  | modified p =>
    rw [notice?] at h
    split at h
    · exact Tracker.revises_refresh? h
    · split at h
      · exact Tracker.revises_track? h
      · cases h

theorem entry_of_ne (h : c.notice? digest d w = some t) {key : String} (hkey : key ≠ c.key w) :
    t.entry key = w.tracker.entry key := by
  have hne : ¬ c.key w = key := fun e => hkey e.symm
  rcases notice?_cases h with ⟨p, _, _, rfl⟩ | ⟨p, hash, _, _, ⟨_, _, rfl⟩ | ⟨_, _, rfl⟩⟩
  · simp [Tracker.entry, Tracker.erase, Std.ExtTreeMap.getElem?_erase, hne]
  · simp [Tracker.entry, Std.ExtTreeMap.getElem?_insert, hne]
  · simp [Tracker.entry, Tracker.insert, Std.ExtTreeMap.getElem?_insert, hne]

theorem entry_ne (h : c.notice? digest d w = some t) :
    t.entry (c.key w) ≠ w.tracker.entry (c.key w) := by
  intro hsame
  rcases notice?_cases h with ⟨p, rfl, htracked, rfl⟩ |
    ⟨p, hash, rfl, _, ⟨_, hne, rfl⟩ | ⟨htracked, _, rfl⟩⟩
  · have hold : (w.tracker.entry ((deleted p).key w)).1 = true := htracked
    rw [← hsame] at hold
    simp [Tracker.entry, Tracker.erase] at hold
  · have hhash := congrArg Prod.snd hsame
    simp [Tracker.entry] at hhash
    exact hne hhash.symm
  · have hold : (w.tracker.entry ((modified p).key w)).1 = false := htracked
    rw [← hsame] at hold
    simp [Tracker.entry, Tracker.insert] at hold

/-- There is nothing to notice, or it was noticed before. -/
def IsKnown (digest : ByteArray → String) (d : Disk) (w : Workspace) : Change → Prop
  | deleted p => w.tracker.isTracked (w.absolute p) = false
  | modified p =>
    (w.tracker.isTracked (w.absolute p) = true → ∀ hash,
      Tracker.hashOf? digest d (w.absolute p) = some hash →
        w.tracker.hashes[(w.absolute p).normalized]? = some hash) ∧
    (w.tracker.isTracked (w.absolute p) = false → w.isWelcome (w.absolute p) = true →
      Tracker.hashOf? digest d (w.absolute p) = none)

theorem notice?_eq_none_iff : c.notice? digest d w = none ↔ c.IsKnown digest d w := by
  cases c with
  | deleted p =>
    rw [notice?, IsKnown]
    cases w.tracker.isTracked (w.absolute p) <;> simp
  | modified p =>
    rw [notice?, IsKnown, Tracker.refresh?, Tracker.track?]
    cases w.tracker.isTracked (w.absolute p) with
    | false => cases w.isWelcome (w.absolute p) <;> simp
    | true => cases Tracker.hashOf? digest d (w.absolute p) <;> simp

/-- A change is noticed once. -/
theorem isKnown_of_notice? (h : c.notice? digest d w = some t) :
    c.IsKnown digest d { w with tracker := t } := by
  rcases notice?_cases h with ⟨p, rfl, htracked, rfl⟩ | ⟨p, hash, rfl, hhash, hcases⟩
  · change (w.tracker.erase (w.absolute p).normalized).isTracked (w.absolute p) = false
    simp [Tracker.isTracked, Tracker.erase]
  · have htracked : t.isTracked (w.absolute p) = true := by
      rcases hcases with ⟨htracked, _, rfl⟩ | ⟨_, _, rfl⟩
      · exact htracked
      · simp [Tracker.isTracked, Tracker.insert, key, path]
    have hcurrent : t.hashes[(w.absolute p).normalized]? = some hash := by
      rcases hcases with ⟨_, _, rfl⟩ | ⟨_, _, rfl⟩
      · simp [key, path]
      · simp [Tracker.insert, key, path]
    refine ⟨fun _ other hother => ?_, fun hnot => ?_⟩
    · have hsame : hash = other := Option.some.inj (hhash.symm.trans hother)
      rw [← hsame]
      exact hcurrent
    · have hclash : t.isTracked (w.absolute p) = false := hnot
      rw [htracked] at hclash
      cases hclash

/-- What is known stays known while the tracker keeps its entry and covers no more. -/
theorem IsKnown.of_entry (h : c.IsKnown digest d w)
    (hentry : t.entry (c.key w) = w.tracker.entry (c.key w))
    (hwelcome : Workspace.isWelcome { w with tracker := t } (w.absolute c.path) = true →
      w.isWelcome (w.absolute c.path) = true) :
    c.IsKnown digest d { w with tracker := t } := by
  have htracked : t.isTracked (w.absolute c.path) = w.tracker.isTracked (w.absolute c.path) :=
    congrArg Prod.fst hentry
  have hhash : t.hashes[(w.absolute c.path).normalized]? =
      w.tracker.hashes[(w.absolute c.path).normalized]? := congrArg Prod.snd hentry
  cases c with
  | deleted p => exact htracked.trans h
  | modified p =>
    refine ⟨fun hyes hash hread => ?_, fun hno hnew => ?_⟩
    · exact hhash.trans (h.1 (htracked.symm.trans hyes) hash hread)
    · exact h.2 (htracked.symm.trans hno) (hwelcome hnew)

end Change

/-! ## Orderly batches -/

/--
Each file has one change, and no changed file stands where another file has its folder. A file in the
place of a folder would bring the folder above it into scope, with files that were passed over before.
-/
structure Change.AreOrderly (cs : List Change) (w : Workspace) : Prop where
  under : ∀ c ∈ cs, Path.IsUnder w.root c.path
  once : ∀ c ∈ cs, ∀ c' ∈ cs, c.path = c'.path → c = c'
  files : ∀ p, modified p ∈ cs → ∀ key,
    key ∈ w.tracker.watched ∨ (∃ q, modified q ∈ cs ∧ key = q.normalized) →
      Path.trimSeparators (FileId.parent key) ≠ p.normalized

namespace Change

variable {k k' : Toolkit} {digest : ByteArray → String} {d d' : Disk} {w w' : Workspace}
  {c c' : Change} {cs : List Change} {t : Tracker}

theorem AreOrderly.absolute (h : AreOrderly cs w) (hc : c ∈ cs) : w.absolute c.path = c.path :=
  Workspace.absolute_of_isUnder (h.under c hc)

theorem AreOrderly.key_ne (h : AreOrderly cs w) (hc : c ∈ cs) (hc' : c' ∈ cs) (hne : c ≠ c') :
    c.key w ≠ c'.key w := by
  rw [key, key, h.absolute hc, h.absolute hc']
  intro hkey
  exact hne (h.once c hc c' hc' ((h.under c hc).eq_of_key (h.under c' hc') hkey))

/-- A file that was not covered is not covered by files that were. -/
theorem covers_of_notice? (h : AreOrderly cs w) (hc : c ∈ cs)
    (hnotice : c.notice? digest d w = some t) {p : Path} (hp : t.covers p = true) :
    w.tracker.covers p = true := by
  rw [Tracker.covers_iff] at hp ⊢
  obtain ⟨file, hfile, hparent, hwithin⟩ := hp
  rcases notice?_cases hnotice with ⟨q, _, _, rfl⟩ |
    ⟨q, hash, rfl, _, ⟨_, _, rfl⟩ | ⟨_, hwelcome, rfl⟩⟩
  · exact ⟨file, Std.ExtTreeSet.mem_of_mem_erase hfile, hparent, hwithin⟩
  · exact ⟨file, hfile, hparent, hwithin⟩
  · rw [Tracker.insert, Std.ExtTreeSet.mem_insert, Std.compare_eq_iff_eq] at hfile
    rcases hfile with rfl | hfile
    · -- the new file is in a folder that was covered, and so is what its own folder holds
      rw [Workspace.isWelcome, Bool.and_eq_true, Bool.and_eq_true, Tracker.covers_iff] at hwelcome
      obtain ⟨⟨⟨other, hother, hne, hcovered⟩, _⟩, _⟩ := hwelcome
      have hfolder : Path.trimSeparators (FileId.parent other) ≠ (w.absolute q).normalized := by
        have habsolute : w.absolute q = q := h.absolute (c := modified q) hc
        rw [habsolute]
        exact h.files q hc other (Or.inl hother)
      exact ⟨other, hother, hne, FileId.isWithin_of_parent hcovered hfolder hparent hwithin⟩
    · exact ⟨file, hfile, hparent, hwithin⟩

theorem IsKnown.notice (h : AreOrderly cs w) (hc : c ∈ cs) (hc' : c' ∈ cs)
    (hknown : c.IsKnown digest d w ∨ c = c') (hnotice : c'.notice? digest d w = some t) :
    c.IsKnown digest d { w with tracker := t } := by
  by_cases heq : c = c'
  · rw [heq]
    exact isKnown_of_notice? hnotice
  · have hbefore := hknown.resolve_right heq
    refine hbefore.of_entry (entry_of_ne hnotice (h.key_ne hc hc' heq)) fun hwelcome => ?_
    rw [Workspace.isWelcome, Bool.and_eq_true, Bool.and_eq_true] at hwelcome ⊢
    obtain ⟨⟨hcovers, hsupports⟩, hcandidate⟩ := hwelcome
    refine ⟨⟨covers_of_notice? h hc' hnotice hcovers, hsupports⟩, ?_⟩
    rw [← (revises_notice? hnotice).extensions]
    exact hcandidate

theorem AreOrderly.notice (h : AreOrderly cs w) (hc : c ∈ cs)
    (hnotice : c.notice? digest d w = some t) : AreOrderly cs { w with tracker := t } where
  under := h.under
  once := h.once
  files p hp key hkey := by
    rcases hkey with hkey | hkey
    · have hkey : key ∈ t.watched := hkey
      rcases notice?_cases hnotice with ⟨q, _, _, rfl⟩ |
        ⟨q, hash, rfl, _, ⟨_, _, rfl⟩ | ⟨_, _, rfl⟩⟩
      · exact h.files p hp key (Or.inl (Std.ExtTreeSet.mem_of_mem_erase hkey))
      · exact h.files p hp key (Or.inl hkey)
      · rw [Tracker.insert, Std.ExtTreeSet.mem_insert, Std.compare_eq_iff_eq] at hkey
        rcases hkey with rfl | hkey
        · refine h.files p hp _ (Or.inr ⟨q, hc, ?_⟩)
          rw [Change.key, h.absolute hc]
          rfl
        · exact h.files p hp key (Or.inl hkey)
    · exact h.files p hp key (Or.inr hkey)

/-! ## Batches without their saving -/

/-- A change without its saving. -/
def pass (k : Toolkit) (d : Disk) (w : Workspace) (c : Change) : Workspace :=
  match c.notice? k.digest d w with
  | none => w
  | some t => (c.draw k d { w with tracker := t }).1

/-- Some changes without their saving. -/
def passAll (k : Toolkit) (d : Disk) (w : Workspace) (cs : List Change) : Workspace :=
  cs.foldl (pass k d) w

theorem frame_draw (k : Toolkit) (d : Disk) (w : Workspace) (c : Change) :
    w.Frame (c.draw k d w).1 := by
  cases c with
  | deleted p => exact Workspace.frame_dropFile w _
  | modified p => exact Workspace.frame_index k d w (w.absolute p)

theorem notice?_of_frame (h : w.Frame w') : c.notice? digest d w' = c.notice? digest d w := by
  have habsolute : ∀ p, w'.absolute p = w.absolute p := fun p => by
    rw [Workspace.absolute, Workspace.absolute, h.root]
  cases c with
  | deleted p => rw [notice?, notice?, habsolute, h.tracker]
  | modified p =>
    have hwelcome : w'.isWelcome (w.absolute p) = w.isWelcome (w.absolute p) := by
      rw [Workspace.isWelcome, Workspace.isWelcome, Workspace.supports, Workspace.supports,
        h.tracker, h.root, h.languages]
    rw [notice?, notice?, habsolute, h.tracker, hwelcome]

theorem isKnown_of_frame (h : w.Frame w') : c.IsKnown digest d w' ↔ c.IsKnown digest d w := by
  rw [← notice?_eq_none_iff, ← notice?_eq_none_iff, notice?_of_frame h]

theorem pass_of_isKnown (h : c.IsKnown k.digest d w) : pass k d w c = w := by
  rw [pass, notice?_eq_none_iff.mpr h]

theorem passAll_of_isKnown (h : ∀ c ∈ cs, c.IsKnown k.digest d w) : passAll k d w cs = w := by
  induction cs with
  | nil => rfl
  | cons c cs ih =>
    have hfirst : pass k d w c = w := pass_of_isKnown (h c List.mem_cons_self)
    rw [passAll, List.foldl_cons, hfirst]
    exact ih fun c hc => h c (List.mem_cons_of_mem _ hc)

theorem AreOrderly.pass (h : AreOrderly cs w) (hc : c ∈ cs) (k : Toolkit) (d : Disk) :
    AreOrderly cs (pass k d w c) := by
  unfold Change.pass
  split
  · exact h
  · rename_i t hnotice
    have hframe := frame_draw k d { w with tracker := t } c
    obtain ⟨hunder, honce, hfiles⟩ := h.notice hc hnotice
    refine ⟨?_, honce, ?_⟩
    · rw [hframe.root]
      exact hunder
    · rw [hframe.tracker]
      exact hfiles

theorem IsKnown.pass (h : AreOrderly cs w) (hc : c ∈ cs) (hc' : c' ∈ cs)
    (hknown : c.IsKnown k.digest d w ∨ c = c') :
    c.IsKnown k.digest d (pass k d w c') := by
  unfold Change.pass
  split
  · rename_i hnone
    rcases hknown with hknown | rfl
    · exact hknown
    · exact notice?_eq_none_iff.mp hnone
  · rename_i t hnotice
    rw [isKnown_of_frame (frame_draw k d { w with tracker := t } c')]
    exact IsKnown.notice h hc hc' hknown hnotice

/-- The changes that were passed are known. -/
theorem AreOrderly.passAll (h : AreOrderly cs w) {front : List Change}
    (hfront : ∀ c ∈ front, c ∈ cs) (k : Toolkit) (d : Disk) :
    AreOrderly cs (passAll k d w front) ∧ ∀ c ∈ cs,
      c.IsKnown k.digest d w ∨ c ∈ front → c.IsKnown k.digest d (passAll k d w front) := by
  induction front generalizing w with
  | nil => exact ⟨h, fun c _ hknown => hknown.resolve_right List.not_mem_nil⟩
  | cons c' front ih =>
    have hc' := hfront c' List.mem_cons_self
    obtain ⟨horderly, hrest⟩ :=
      ih (h.pass hc' k d) fun c hc => hfront c (List.mem_cons_of_mem _ hc)
    refine ⟨horderly, fun c hc hknown => hrest c hc ?_⟩
    rw [List.mem_cons, ← or_assoc] at hknown
    exact hknown.imp_left fun hknown => IsKnown.pass h hc hc' hknown

theorem frame_pass (h : w.Frame w') (k : Toolkit) (d : Disk) (c : Change) :
    (pass k d w c).Frame (pass k d w' c) := by
  unfold pass
  rw [notice?_of_frame h]
  cases c.notice? k.digest d w with
  | none => exact h
  | some t =>
    have hnoticed : Workspace.Frame { w with tracker := t } { w' with tracker := t } :=
      ⟨h.root, h.languages, rfl, h.importsPath, h.callsPath⟩
    exact ((frame_draw k d _ c).symm.trans hnoticed).trans (frame_draw k d _ c)

/--
What the other changes keep is kept by a batch in which a change is known or does not occur. Two
workspaces with one tracker go the same way.
-/
theorem passAll_others {motive : Workspace → Workspace → Prop}
    (hstep : ∀ w w' c', AreOrderly cs w → w.Frame w' → c' ∈ cs → c' ≠ c → motive w w' →
      motive (pass k d w c') (pass k d w' c'))
    (h : AreOrderly cs w) (hframe : w.Frame w') (hc : c ∈ cs) {rest : List Change}
    (hrest : ∀ c' ∈ rest, c' ∈ cs) (hskip : c.IsKnown k.digest d w ∨ c ∉ rest)
    (hstart : motive w w') : motive (passAll k d w rest) (passAll k d w' rest) := by
  induction rest generalizing w w' with
  | nil => exact hstart
  | cons c' rest ih =>
    have hc' := hrest c' List.mem_cons_self
    refine ih (h.pass hc' k d) (frame_pass hframe k d c')
      (fun c hc => hrest c (List.mem_cons_of_mem _ hc)) ?_ ?_
    · rcases hskip with hknown | hnot
      · exact Or.inl (IsKnown.pass h hc hc' (Or.inl hknown))
      · exact Or.inr fun hmem => hnot (List.mem_cons_of_mem _ hmem)
    · by_cases heq : c' = c
      -- the change itself occurs only when it is known, and then both workspaces pass it over
      · have hknown : c.IsKnown k.digest d w :=
          hskip.resolve_right fun hnot => hnot (heq ▸ List.mem_cons_self)
        rw [heq, pass_of_isKnown hknown, pass_of_isKnown ((isKnown_of_frame hframe).mpr hknown)]
        exact hstart
      · exact hstep w w' c' h hframe hc' heq hstart

theorem frame_passAll (h : w.Frame w') (k : Toolkit) (d : Disk) (cs : List Change) :
    (passAll k d w cs).Frame (passAll k d w' cs) := by
  induction cs generalizing w w' with
  | nil => exact h
  | cons c cs ih => exact ih (frame_pass h k d c)

theorem pass_fixed (k : Toolkit) (d : Disk) (w : Workspace) (c : Change) :
    w.SameSetting (pass k d w c) := by
  unfold pass
  split
  · exact .refl w
  · rename_i t hnotice
    have hframe := frame_draw k d { w with tracker := t } c
    have hrevises := revises_notice? hnotice
    refine ⟨hframe.root, hframe.languages, ?_, ?_, hframe.importsPath, hframe.callsPath⟩
    · rw [hframe.tracker]
      exact hrevises.path
    · rw [hframe.tracker]
      exact hrevises.extensions

theorem passAll_fixed (k : Toolkit) (d : Disk) (w : Workspace) (cs : List Change) :
    w.SameSetting (passAll k d w cs) := by
  induction cs generalizing w with
  | nil => exact .refl w
  | cons c cs ih => exact (pass_fixed k d w c).trans (ih (pass k d w c))

/-! ## A change that is noticed and not drawn -/

section

variable {front back : List Change}

/-- A change that is noticed did not come before. -/
theorem AreOrderly.not_mem_of_notice? (h : AreOrderly (front ++ c :: back) w)
    (hnotice : c.notice? k.digest d (Change.passAll k d w front) = some t) : c ∉ front := by
  intro hmem
  have hsettled := (h.passAll (fun c' hc' => List.mem_append_left _ hc') k d).2 c (by simp)
    (Or.inr hmem)
  rw [notice?_eq_none_iff.mpr hsettled] at hnotice
  cases hnotice

/-- When the batch is repeated, it goes on behind the change. -/
theorem AreOrderly.passAll_again (h : AreOrderly (front ++ c :: back) w)
    (hnotice : c.notice? k.digest d (Change.passAll k d w front) = some t)
    (hw' : w' = { Change.passAll k d w front with tracker := t }) :
    AreOrderly (front ++ c :: back) w' ∧ c.IsKnown k.digest d w' ∧
      Change.passAll k d w' (front ++ c :: back) = Change.passAll k d w' back := by
  have hfront : ∀ c' ∈ front, c' ∈ front ++ c :: back := fun c' hc' => List.mem_append_left _ hc'
  have hc : c ∈ front ++ c :: back := by simp
  obtain ⟨hmid, hsettled⟩ := h.passAll hfront k d
  subst hw'
  have hknown := isKnown_of_notice? hnotice
  have hpassed : ∀ c' ∈ front,
      c'.IsKnown k.digest d { Change.passAll k d w front with tracker := t } := fun c' hc' =>
    IsKnown.notice hmid (hfront c' hc') hc (Or.inl (hsettled c' (hfront c' hc') (Or.inr hc')))
      hnotice
  refine ⟨hmid.notice hc hnotice, hknown, ?_⟩
  have hsplit : ∀ v, Change.passAll k d v (front ++ c :: back) =
      Change.passAll k d (Change.pass k d (Change.passAll k d v front) c) back := fun v => by
    simp [Change.passAll]
  rw [hsplit, passAll_of_isKnown hpassed, pass_of_isKnown hknown]

/-- When it succeeds at once, the change is drawn. -/
theorem passAll_of_notice? (hnotice : c.notice? k.digest d (passAll k d w front) = some t)
    (hw' : w' = { passAll k d w front with tracker := t }) :
    passAll k d w (front ++ c :: back) = passAll k d (c.draw k d w').1 back := by
  have hdrawn : pass k d (passAll k d w front) c = (c.draw k d w').1 := by
    rw [pass, hnotice, hw']
  rw [← hdrawn]
  simp [passAll]

end

end Change

end SourceGraph
