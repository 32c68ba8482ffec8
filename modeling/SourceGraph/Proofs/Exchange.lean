import SourceGraph.Proofs.Batch
import SourceGraph.Proofs.Freshness

/-!
# Changes in another order

A change notes one key in the tracker and replaces the slices of one file in the graphs. What is noted
and what replaces the slices is decided before, from the entry of the key, the covered region and the
disk. So two changes of different files may be exchanged as long as neither of them decides the other.

* `Workspace.Matches`: the same tracked files and digests, and graphs in another order.
* `Change.news?`, `Change.redraw?`: what a change decides.
* `Workspace.install`, `Change.pass_eq`: what follows from that.
* `Change.advance`, `Workspace.apply_of_isInMemory`: batches in memory, with what they report.
* `Change.advance_comm`: changes of different files that do not decide each other.
* `Interchanges`: steps in any order, and more than once.
-/

set_option autoImplicit false

namespace SourceGraph

/-! ## Steps in any order -/

/--
Steps that can be taken in any order and more than once, up to a relation. A state to which that
applies is related to itself.
-/
structure Interchanges {σ α : Type} (R : σ → σ → Prop) (f : σ → α → σ) (steps : α → Prop) :
    Prop where
  symm : ∀ {s t : σ}, R s t → R t s
  trans : ∀ {s t u : σ}, R s t → R t u → R s u
  congr : ∀ {s t : σ} {a : α}, steps a → R s t → R (f s a) (f t a)
  swap : ∀ {s : σ} {a b : α}, steps a → steps b → R s s → R (f (f s a) b) (f (f s b) a)
  again : ∀ {s : σ} {a : α}, steps a → R s s → R (f (f s a) a) (f s a)

namespace Interchanges

variable {σ α : Type} {R : σ → σ → Prop} {f : σ → α → σ} {steps : α → Prop} {s t : σ}
  {l l' : List α}

theorem foldl_congr (h : Interchanges R f steps) (hl : ∀ a ∈ l, steps a) (hst : R s t) :
    R (l.foldl f s) (l.foldl f t) := by
  induction l generalizing s t with
  | nil => exact hst
  | cons a l ih =>
    exact ih (fun b hb => hl b (List.mem_cons_of_mem _ hb)) (h.congr (hl a List.mem_cons_self) hst)

theorem foldl_perm (h : Interchanges R f steps) (hperm : l.Perm l') (hl : ∀ a ∈ l, steps a)
    (hs : R s s) : R (l.foldl f s) (l'.foldl f s) := by
  induction hperm generalizing s with
  | nil => exact hs
  | cons a _ ih =>
    exact ih (fun b hb => hl b (List.mem_cons_of_mem _ hb)) (h.congr (hl a List.mem_cons_self) hs)
  | swap a b l =>
    have hb : steps b := hl b (by simp)
    have ha : steps a := hl a (by simp)
    exact h.foldl_congr (fun c hc => hl c (by simp [hc])) (h.swap hb ha hs)
  | trans hfirst _ ih ih' =>
    exact h.trans (ih hl hs) (ih' (fun a ha => hl a (hfirst.mem_iff.mpr ha)) hs)

/-- A step that was taken before adds nothing. -/
theorem foldl_concat [DecidableEq α] (h : Interchanges R f steps) (hl : ∀ a ∈ l, steps a) {a : α}
    (ha : a ∈ l) (hs : R s s) : R ((l ++ [a]).foldl f s) (l.foldl f s) := by
  -- the earlier one is moved to the end
  have hperm : l.Perm (l.erase a ++ [a]) :=
    (List.perm_cons_erase ha).trans (List.perm_append_singleton a (l.erase a)).symm
  have hrest : ∀ b ∈ l.erase a, steps b := fun b hb => hl b (List.mem_of_mem_erase hb)
  have hlast := h.foldl_congr (l := [a]) (by simpa using hl a ha) (h.foldl_perm hperm hl hs)
  have hmid : R ((l.erase a).foldl f s) ((l.erase a).foldl f s) := h.foldl_congr hrest hs
  have hagain := h.again (hl a ha) hmid
  rw [List.foldl_append] at hlast ⊢
  refine h.trans hlast (h.trans hagain ?_)
  have hback := h.symm (h.foldl_perm hperm hl hs)
  rwa [List.foldl_append] at hback

theorem foldl_append_of_subset [DecidableEq α] (h : Interchanges R f steps)
    (hl : ∀ a ∈ l, steps a) (hsub : ∀ a ∈ l', a ∈ l) (hs : R s s) :
    R ((l ++ l').foldl f s) (l.foldl f s) := by
  induction l' using List.reverseRecOn with
  | nil =>
    rw [List.append_nil]
    exact h.foldl_congr hl hs
  | append_singleton front a ih =>
    have hfront := ih fun b hb => hsub b (List.mem_append_left _ hb)
    have hall : ∀ b ∈ l ++ front, steps b := by
      intro b hb
      rcases List.mem_append.mp hb with hb | hb
      · exact hl b hb
      · exact hl b (hsub b (List.mem_append_left _ hb))
    rw [← List.append_assoc]
    have ha : a ∈ l ++ front := List.mem_append_left _ (hsub a (by simp))
    exact h.trans (h.foldl_concat hall ha hs) hfront

/-- Which steps are taken counts, and not in what order or how often. -/
theorem foldl_of_same [DecidableEq α] (h : Interchanges R f steps) (hl : ∀ a ∈ l, steps a)
    (hsame : ∀ a, a ∈ l ↔ a ∈ l') (hs : R s s) : R (l.foldl f s) (l'.foldl f s) := by
  have hl' : ∀ a ∈ l', steps a := fun a ha => hl a ((hsame a).mpr ha)
  have hall : ∀ a ∈ l ++ l', steps a := by
    intro a ha
    rcases List.mem_append.mp ha with ha | ha
    · exact hl a ha
    · exact hl' a ha
  have hfirst := h.symm (h.foldl_append_of_subset hl (fun a ha => (hsame a).mpr ha) hs)
  have hswap := h.foldl_perm List.perm_append_comm hall hs
  have hsecond := h.foldl_append_of_subset hl' (fun a ha => (hsame a).mp ha) hs
  exact h.trans hfirst (h.trans hswap hsecond)

end Interchanges

/-! ## Slices in another order -/

namespace Store

variable {s s' s'' : Store} {file other : String} {t u : Slice}

/-- The store with another slice of a file. -/
def replace (s : Store) (file : String) (t : Slice) : Store := (s.removeFile file).put t

theorem put_empty (s : Store) : s.put {} = s := by
  simp [put, addNodes, addEdges, addUnresolved]

theorem replace_nodes (s : Store) (file : String) (t : Slice) (id : String) :
    (s.replace file t).nodes[id]? =
      (t.node? id).or (s.nodes[id]?.filter fun n => !(n.fileId == file)) := by
  rw [← getElem?_removeFile]
  exact addNodes_nodes _ t.nodes id

theorem replace_edges (s : Store) (file : String) (t : Slice) :
    (s.replace file t).edges = s.edges.filter (fun e => !(e.sourceFile == file)) ++ t.edges :=
  put_edges _ t

theorem replace_unresolved (s : Store) (file : String) (t : Slice) :
    (s.replace file t).unresolved =
      s.unresolved.filter (fun u => !(u.sourceFile == file)) ++ t.unresolved :=
  put_unresolved _ t

theorem replace_path (s : Store) (file : String) (t : Slice) : (s.replace file t).path = s.path :=
  put_path _ t

theorem Similar.refl (s : Store) : s.Similar s := ⟨rfl, .refl _, .refl _⟩

theorem Similar.symm (h : s.Similar s') : s'.Similar s :=
  ⟨h.nodes.symm, h.edges.symm, h.unresolved.symm⟩

theorem Similar.trans (h : s.Similar s') (h' : s'.Similar s'') : s.Similar s'' :=
  ⟨h.nodes.trans h'.nodes, h.edges.trans h'.edges, h.unresolved.trans h'.unresolved⟩

theorem Similar.replace (h : s.Similar s') (file : String) (t : Slice) :
    (s.replace file t).Similar (s'.replace file t) where
  nodes := Std.ExtTreeMap.ext_getElem? fun id => by rw [replace_nodes, replace_nodes, h.nodes]
  edges := by
    rw [replace_edges, replace_edges]
    exact (h.edges.filter _).append_right _
  unresolved := by
    rw [replace_unresolved, replace_unresolved]
    exact (h.unresolved.filter _).append_right _

theorem fileId_of_node? (h : t.IsOwned file) {id : String} {n : Node} (hn : t.node? id = some n) :
    n.fileId = file ∧ owningFile id = file := by
  rw [Slice.node?, List.findRev?_eq_find?_reverse] at hn
  have hmem := List.mem_reverse.mp (List.mem_of_find?_eq_some hn)
  have hid : n.id = id := by simpa using List.find?_some hn
  rw [← hid]
  exact h.nodes n hmem

theorem filter_owner_swap {α : Type} {owner : α → String} (l : List α) {xs ys : List α}
    (hne : file ≠ other) (hxs : ∀ x ∈ xs, owner x = file) (hys : ∀ y ∈ ys, owner y = other) :
    ((l.filter (fun x => !(owner x == file)) ++ xs).filter (fun x => !(owner x == other)) ++ ys).Perm
      ((l.filter (fun x => !(owner x == other)) ++ ys).filter (fun x => !(owner x == file)) ++ xs) := by
  have hkeep : ∀ {zs : List α} {f g : String}, f ≠ g → (∀ z ∈ zs, owner z = f) →
      zs.filter (fun x => !(owner x == g)) = zs := by
    intro zs f g hfg hzs
    rw [List.filter_eq_self]
    intro z hz
    simp [hzs z hz, hfg]
  have hrest : (l.filter fun x => !(owner x == file)).filter (fun x => !(owner x == other)) =
      (l.filter fun x => !(owner x == other)).filter fun x => !(owner x == file) := by
    rw [List.filter_filter, List.filter_filter]
    simp only [Bool.and_comm]
  rw [List.filter_append, List.filter_append, hkeep hne hxs, hkeep hne.symm hys, hrest,
    List.append_assoc, List.append_assoc]
  exact List.perm_append_comm.append_left _

/-- Slices of different files may be replaced in any order. -/
theorem replace_comm (hne : file ≠ other) (ht : t.IsOwned file) (hu : u.IsOwned other) :
    ((s.replace file t).replace other u).Similar ((s.replace other u).replace file t) where
  nodes := by
    apply Std.ExtTreeMap.ext_getElem?
    intro id
    simp only [replace_nodes]
    cases hnode : t.node? id with
    | some n =>
      obtain ⟨hfile, howner⟩ := fileId_of_node? ht hnode
      have hnone : u.node? id = none := by
        cases hnode' : u.node? id with
        | none => rfl
        | some m => exact absurd (howner.symm.trans (fileId_of_node? hu hnode').2) hne
      simp [hnone, hfile, hne, Option.filter]
    | none =>
      cases hnode' : u.node? id with
      | some m =>
        have hfile := (fileId_of_node? hu hnode').1
        simp [hfile, Ne.symm hne, Option.filter]
      | none =>
        simp only [Option.none_or, Option.filter_filter]
        congr 1
        funext n
        rw [Bool.and_comm]
  edges := by
    simp only [replace_edges]
    exact filter_owner_swap s.edges hne ht.edges hu.edges
  unresolved := by
    simp only [replace_unresolved]
    exact filter_owner_swap s.unresolved hne ht.unresolved hu.unresolved

end Store

/-! ## Trackers in another order -/

namespace Tracker

variable {t t' : Tracker}

/-- The tracker with a digest under a key, or without the key. -/
def note (t : Tracker) (key : String) : Option String → Tracker
  | none => t.erase key
  | some hash => t.insert key hash

theorem eq_of_entry (hpath : t'.path = t.path) (hextensions : t'.extensions = t.extensions)
    (hentry : ∀ key, t'.entry key = t.entry key) : t' = t := by
  have hwatched : t'.watched = t.watched := Std.ExtTreeSet.ext_mem fun key => by
    rw [← Std.ExtTreeSet.contains_iff_mem, ← Std.ExtTreeSet.contains_iff_mem,
      show t'.watched.contains key = t.watched.contains key from congrArg Prod.fst (hentry key)]
  have hhashes : t'.hashes = t.hashes := Std.ExtTreeMap.ext_getElem? fun key =>
    congrArg Prod.snd (hentry key)
  obtain ⟨path, extensions, watched, hashes⟩ := t
  obtain ⟨path', extensions', watched', hashes'⟩ := t'
  simp only at hpath hextensions hwatched hhashes
  rw [hpath, hextensions, hwatched, hhashes]

theorem entry_note (t : Tracker) (key : String) (n : Option String) (other : String) :
    (t.note key n).entry other = if other = key then (n.isSome, n) else t.entry other := by
  cases n with
  | none =>
    by_cases h : other = key
    · simp [note, entry, erase, h]
    · simp [note, entry, erase, h, Std.ExtTreeMap.getElem?_erase, Ne.symm h]
  | some hash =>
    by_cases h : other = key
    · simp [note, entry, insert, h]
    · simp [note, entry, insert, h, Std.ExtTreeMap.getElem?_insert, Ne.symm h]

theorem note_path (t : Tracker) (key : String) (n : Option String) :
    (t.note key n).path = t.path := by
  cases n <;> rfl

theorem note_extensions (t : Tracker) (key : String) (n : Option String) :
    (t.note key n).extensions = t.extensions := by
  cases n <;> rfl

theorem note_comm {a b : String} (hne : a ≠ b) (m n : Option String) :
    (t.note a m).note b n = (t.note b n).note a m := by
  refine eq_of_entry ?_ ?_ fun key => ?_
  · simp only [note_path]
  · simp only [note_extensions]
  · simp only [entry_note]
    by_cases hb : key = b
    · simp [hb, Ne.symm hne]
    · simp [hb]

/-- A new digest is noted as a new file is. -/
theorem insert_hash {key : String} (h : t.watched.contains key = true) (hash : String) :
    { t with hashes := t.hashes.insert key hash } = t.note key (some hash) := by
  refine eq_of_entry rfl rfl fun other => ?_
  rw [entry_note]
  by_cases hother : other = key
  · simp [hother, entry, h]
  · simp [hother, entry, Std.ExtTreeMap.getElem?_insert, Ne.symm hother]

end Tracker

/-! ## Workspaces in another order -/

namespace Workspace

variable {w w' w'' : Workspace}

/-- The same tracked files and digests, and the same graphs up to the order of edges and calls. -/
structure Matches (w w' : Workspace) : Prop where
  frame : w.Frame w'
  imports : w.imports.Similar w'.imports
  calls : w.calls.Similar w'.calls

theorem Matches.refl (w : Workspace) : w.Matches w := ⟨.refl w, .refl _, .refl _⟩

theorem Matches.symm (h : w.Matches w') : w'.Matches w :=
  ⟨h.frame.symm, h.imports.symm, h.calls.symm⟩

theorem Matches.trans (h : w.Matches w') (h' : w'.Matches w'') : w.Matches w'' :=
  ⟨h.frame.trans h'.frame, h.imports.trans h'.imports, h.calls.trans h'.calls⟩

/-- The slices of a file, one for each graph. -/
abbrev Slices := String × (StoreKind → Slice)

/-- The workspace with a key noted and with other slices of a file. -/
def install (w : Workspace) (key : String) (n : Option String) (e : Option Slices) : Workspace :=
  { w with
    imports := e.elim w.imports fun e => w.imports.replace e.1 (e.2 .import)
    calls := e.elim w.calls fun e => w.calls.replace e.1 (e.2 .call)
    tracker := w.tracker.note key n }

theorem Matches.install (h : w.Matches w') (key : String) (n : Option String) (e : Option Slices) :
    (w.install key n e).Matches (w'.install key n e) := by
  have htracker : w'.tracker.note key n = w.tracker.note key n := by rw [h.frame.tracker]
  cases e with
  | none =>
    exact ⟨⟨h.frame.root, h.frame.languages, htracker, h.frame.importsPath, h.frame.callsPath⟩,
      h.imports, h.calls⟩
  | some e =>
    refine ⟨⟨h.frame.root, h.frame.languages, htracker, ?_, ?_⟩, h.imports.replace _ _,
      h.calls.replace _ _⟩
    · exact (Store.replace_path _ _ _).trans
        (h.frame.importsPath.trans (Store.replace_path _ _ _).symm)
    · exact (Store.replace_path _ _ _).trans
        (h.frame.callsPath.trans (Store.replace_path _ _ _).symm)

/-- Different keys may be noted, and slices of different files replaced, in any order. -/
theorem install_comm {a b : String} (hne : a ≠ b) (m n : Option String) {e e' : Option Slices}
    (he : ∀ x ∈ e, ∀ kind, (x.2 kind).IsOwned x.1) (he' : ∀ x ∈ e', ∀ kind, (x.2 kind).IsOwned x.1)
    (hfiles : ∀ x ∈ e, ∀ y ∈ e', x.1 ≠ y.1) :
    ((w.install a m e).install b n e').Matches ((w.install b n e').install a m e) := by
  have hframe : ((w.install a m e).install b n e').Frame ((w.install b n e').install a m e) := by
    refine ⟨rfl, rfl, (Tracker.note_comm hne m n).symm, ?_, ?_⟩ <;>
      cases e <;> cases e' <;> simp [install, Store.replace_path]
  cases e with
  | none => exact ⟨hframe, .refl _, .refl _⟩
  | some x =>
    cases e' with
    | none => exact ⟨hframe, .refl _, .refl _⟩
    | some y =>
      have hne' : x.1 ≠ y.1 := hfiles x rfl y rfl
      exact ⟨hframe, Store.replace_comm hne' (he x rfl .import) (he' y rfl .import),
        Store.replace_comm hne' (he x rfl .call) (he' y rfl .call)⟩

end Workspace

/-! ## What a change decides -/

namespace Change

variable {k : Toolkit} {digest : ByteArray → String} {d : Disk} {w w' : Workspace} {c c' : Change}

/-- What is noted for a change: a digest, or that there is no file; nothing if it is known. -/
def news? (digest : ByteArray → String) (d : Disk) (w : Workspace) : Change → Option (Option String)
  | deleted p => if w.tracker.isTracked (w.absolute p) then some none else none
  | modified p =>
    if w.tracker.isTracked (w.absolute p) then
      ((Tracker.hashOf? digest d (w.absolute p)).filter fun hash =>
        w.tracker.hashes[(w.absolute p).normalized]? ≠ some hash).map some
    else if w.isWelcome (w.absolute p) then (Tracker.hashOf? digest d (w.absolute p)).map some
    else none

/-- The file whose slices are replaced for a change, with the new ones. -/
def redraw? (k : Toolkit) (d : Disk) (w : Workspace) : Change → Option Workspace.Slices
  | deleted p => (FileId.ofPath? w.root (w.absolute p)).map fun file => (file, fun _ => {})
  | modified p => (w.described? k d (w.absolute p)).map fun e => (e.1, e.2.slice)

theorem notice?_eq : c.notice? digest d w =
    (c.news? digest d w).map (w.tracker.note (c.key w)) := by
  cases c with
  | deleted p =>
    rw [notice?, news?]
    split
    · rfl
    · rfl
  | modified p =>
    rw [notice?, news?]
    split
    · rename_i htracked
      rw [Tracker.refresh?, if_pos htracked]
      cases Tracker.hashOf? digest d (w.absolute p) with
      | none => rfl
      | some hash =>
        by_cases hhash : w.tracker.hashes[(w.absolute p).normalized]? = some hash
        · simp [hhash, Option.filter]
        · simp only [hhash, if_false, Option.filter, ne_eq, not_false_eq_true, decide_true, if_true,
            Option.map_some]
          rw [key, path, Tracker.insert_hash htracked]
    · rename_i htracked
      split
      · rw [Tracker.track?, if_neg htracked, Option.map_map]
        rfl
      · rfl

theorem draw_fst {t : Tracker} {n : Option String} (ht : t = w.tracker.note (c.key w) n) :
    (c.draw k d { w with tracker := t }).1 = w.install (c.key w) n (c.redraw? k d w) := by
  subst ht
  cases c with
  | deleted p =>
    rw [draw, redraw?]
    change (Option.elim (FileId.ofPath? w.root (w.absolute p)) _ _) = _
    cases FileId.ofPath? w.root (w.absolute p) with
    | none => rfl
    | some file =>
      simp only [Option.elim_some, Option.map_some, Workspace.dropFile, Workspace.install,
        Store.replace, Store.put_empty]
  | modified p =>
    rw [draw, redraw?, Workspace.index_fst]
    change (Option.elim (w.described? k d (w.absolute p)) _ _) = _
    cases w.described? k d (w.absolute p) with
    | none => rfl
    | some e =>
      simp only [Option.elim_some, Option.map_some, Workspace.putFragment_eq, Workspace.install,
        Store.replace]

/-- A change takes place as it was decided. -/
theorem pass_eq : pass k d w c =
    (c.news? k.digest d w).elim w fun n => w.install (c.key w) n (c.redraw? k d w) := by
  rw [pass, notice?_eq]
  cases hnews : c.news? k.digest d w with
  | none => rfl
  | some n => exact draw_fst rfl

/-- A change leaves what is noted under other keys. -/
theorem entry_pass {key : String} (hkey : key ≠ c.key w) :
    (pass k d w c).tracker.entry key = w.tracker.entry key := by
  rw [pass_eq]
  cases c.news? k.digest d w with
  | none => rfl
  | some n => exact (Tracker.entry_note _ _ _ _).trans (if_neg hkey)

/-! ## Batches in memory -/

/-- What is reported for a change. -/
def tell (k : Toolkit) (d : Disk) (w : Workspace) (c : Change) : Report :=
  (c.news? k.digest d w).elim {} fun _ => (c.draw k d w).2

/-- A change without its saving, and what is reported up to then. -/
def advance (k : Toolkit) (d : Disk) (s : Workspace × Report) (c : Change) : Workspace × Report :=
  (pass k d s.1 c, s.2.merge (c.tell k d s.1))

theorem merge_empty (r : Report) : r.merge {} = r := by simp [Report.merge]

theorem empty_merge (r : Report) : Report.merge {} r = r := by simp [Report.merge]

theorem merge_assoc (r s t : Report) : (r.merge s).merge t = r.merge (s.merge t) := by
  simp [Report.merge, Nat.add_assoc]

theorem merge_right_comm (r s t : Report) : (r.merge s).merge t = (r.merge t).merge s := by
  simp [Report.merge, Nat.add_right_comm]

/-- What was reported before a batch does not matter to it. -/
theorem foldl_advance (k : Toolkit) (d : Disk) (w : Workspace) (r : Report) (cs : List Change) :
    cs.foldl (advance k d) (w, r) =
      (passAll k d w cs, r.merge (cs.foldl (advance k d) (w, {})).2) := by
  induction cs generalizing w r with
  | nil => exact Prod.ext rfl (merge_empty r).symm
  | cons c cs ih =>
    have hstep : ∀ r : Report, (c :: cs).foldl (advance k d) (w, r) =
        (passAll k d (pass k d w c) cs,
          (r.merge (c.tell k d w)).merge (cs.foldl (advance k d) (pass k d w c, {})).2) :=
      fun r => ih (pass k d w c) (r.merge (c.tell k d w))
    rw [hstep r, hstep {}, empty_merge, merge_assoc]
    rfl

theorem foldl_advance_fst (k : Toolkit) (d : Disk) (s : Workspace × Report) (cs : List Change) :
    (cs.foldl (advance k d) s).1 = passAll k d s.1 cs :=
  congrArg Prod.fst (foldl_advance k d s.1 s.2 cs)

/-- What is reported depends on the root and the languages of the workspace only. -/
theorem draw_snd (hroot : w'.root = w.root) (hlanguages : w'.languages = w.languages) :
    (c.draw k d w').2 = (c.draw k d w).2 := by
  cases c with
  | deleted p => rfl
  | modified p =>
    have habsolute : w'.absolute p = w.absolute p := by
      rw [Workspace.absolute, Workspace.absolute, hroot]
    have hdescribe : w'.describe k d (w.absolute p) = w.describe k d (w.absolute p) := by
      rw [Workspace.describe, Workspace.describe, hroot, hlanguages]
    rw [draw, draw, habsolute, Workspace.index, Workspace.index, hroot, hdescribe]
    cases FileId.ofPath? w.root (w.absolute p) with
    | none => rfl
    | some file =>
      cases w.describe k d (w.absolute p) with
      | ok found => cases found <;> rfl
      | error fault => cases fault <;> rfl

theorem run_of_isInMemory (h : w.IsInMemory) :
    c.run k w d = (pass k d w c, d, .ok (c.tell k d w)) := by
  rw [run, pass, tell, notice?_eq]
  cases c.news? k.digest d w with
  | none => rfl
  | some n =>
    have hsave : (w.tracker.note (c.key w) n).save k.now d = (d, .ok ()) := by
      rw [Tracker.save, Tracker.note_path, h.tracker]
    have hdraw : (c.draw k d { w with tracker := w.tracker.note (c.key w) n }).2 =
        (c.draw k d w).2 := draw_snd rfl rfl
    simp only [Option.map_some, hsave, hdraw, Option.elim_some]

theorem isInMemory_pass (h : w.IsInMemory) (k : Toolkit) (d : Disk) (c : Change) :
    (pass k d w c).IsInMemory := by
  obtain ⟨_, _, htracker, _, himports, hcalls⟩ := pass_fixed k d w c
  exact ⟨himports.trans h.imports, hcalls.trans h.calls, htracker.trans h.tracker⟩

theorem isInMemory_passAll (h : w.IsInMemory) (k : Toolkit) (d : Disk) (cs : List Change) :
    (passAll k d w cs).IsInMemory := by
  induction cs generalizing w with
  | nil => exact h
  | cons c cs ih => exact ih (isInMemory_pass h k d c)

theorem runAll_of_isInMemory (h : w.IsInMemory) (cs : List Change) :
    runAll k cs w d = (passAll k d w cs, d, .ok (cs.foldl (advance k d) (w, {})).2) := by
  induction cs generalizing w with
  | nil => rfl
  | cons c cs ih =>
    rw [runAll, run_of_isInMemory h]
    have htotal : ((c :: cs).foldl (advance k d) (w, {})).2 =
        (c.tell k d w).merge (cs.foldl (advance k d) (pass k d w c, {})).2 := by
      change (cs.foldl (advance k d) (pass k d w c, Report.merge {} (c.tell k d w))).2 = _
      rw [foldl_advance, empty_merge]
    simp only [ih (isInMemory_pass h k d c), htotal]
    rfl

end Change

/-- A batch in memory is its changes, one after the other. -/
theorem Workspace.apply_of_isInMemory {k : Toolkit} {d : Disk} {w : Workspace} (h : w.IsInMemory)
    (changed gone : List Path) :
    w.apply k changed gone d =
      (Change.passAll k d w (Change.ofBatch changed gone), d,
        .ok ((Change.ofBatch changed gone).foldl (Change.advance k d) (w, {})).2) := by
  rw [apply_eq, Change.runAll_of_isInMemory h]
  simp only [saved_of_isInMemory (Change.isInMemory_passAll h k d _), ite_self]

/-! ## Changes of different files -/

namespace Change

variable {k : Toolkit} {digest : ByteArray → String} {d : Disk} {w w' : Workspace} {c c' : Change}

theorem key_of_root (hroot : w'.root = w.root) : c.key w' = c.key w := by
  rw [key, key, Workspace.absolute, Workspace.absolute, hroot]

theorem key_eq (hc : c.path.IsClean) : c.key w = c.path.normalized := by
  rw [key, Workspace.absolute_of_isAbsolute hc.isAbsolute]

theorem redraw?_of_root (hroot : w'.root = w.root) (hlanguages : w'.languages = w.languages) :
    c.redraw? k d w' = c.redraw? k d w := by
  cases c with
  | deleted p => rw [redraw?, redraw?, Workspace.absolute, Workspace.absolute, hroot]
  | modified p =>
    rw [redraw?, redraw?, Workspace.absolute, Workspace.absolute, Workspace.described?,
      Workspace.described?, Workspace.describe, Workspace.describe, hroot, hlanguages]

/-- The slices that replace others are those of the file of the change. -/
theorem redraw?_eq_some (hroot : w.root.isAbsolute = true) (hc : c.path.IsClean)
    {x : Workspace.Slices} (h : c.redraw? k d w = some x) :
    FileId.ofPath? w.root c.path = some x.1 ∧ ∀ kind, (x.2 kind).IsOwned x.1 := by
  have habsolute : w.absolute c.path = c.path := Workspace.absolute_of_isAbsolute hc.isAbsolute
  cases c with
  | deleted p =>
    obtain ⟨file, hfile, rfl⟩ := Option.map_eq_some_iff.mp h
    exact ⟨habsolute ▸ hfile, fun _ => Slice.isOwned_empty file⟩
  | modified p =>
    obtain ⟨⟨file, f⟩, hdescribed, rfl⟩ := Option.map_eq_some_iff.mp h
    have hpath : w.absolute p = p := habsolute
    rw [hpath] at hdescribed
    have hid := (Workspace.described?_eq_some.mp hdescribed).1
    exact ⟨hid, Workspace.isOwned_of_described? (hc.isUnder_of_fileId hroot hid) hdescribed⟩

theorem key_ne (hc : c.path.IsClean) (hc' : c'.path.IsClean) (hne : c.path ≠ c'.path) :
    c.key w ≠ c'.key w := by
  rw [key_eq hc, key_eq hc']
  exact fun hkey => hne (hc.eq_of_key hc' hkey)

/-- A change is decided by the entry of its key, and a new file by whether it is welcome. -/
theorem news?_congr (hroot : w'.root = w.root)
    (hentry : w'.tracker.entry (c.key w) = w.tracker.entry (c.key w))
    (hwelcome : ∀ p, c = modified p → w.tracker.isTracked (w.absolute p) = false →
      Tracker.hashOf? digest d (w.absolute p) ≠ none →
        w'.isWelcome (w.absolute p) = w.isWelcome (w.absolute p)) :
    c.news? digest d w' = c.news? digest d w := by
  have habsolute : ∀ p, w'.absolute p = w.absolute p := fun p => by
    rw [Workspace.absolute, Workspace.absolute, hroot]
  have htracked : w'.tracker.isTracked (w.absolute c.path) =
      w.tracker.isTracked (w.absolute c.path) := congrArg Prod.fst hentry
  have hhash : w'.tracker.hashes[(w.absolute c.path).normalized]? =
      w.tracker.hashes[(w.absolute c.path).normalized]? := congrArg Prod.snd hentry
  cases c with
  | deleted p =>
    simp only [path] at htracked
    rw [news?, news?, habsolute, htracked]
  | modified p =>
    simp only [path] at htracked hhash
    simp only [news?, habsolute, htracked, hhash]
    cases hknown : w.tracker.isTracked (w.absolute p) with
    | true => rfl
    | false =>
      cases hread : Tracker.hashOf? digest d (w.absolute p) with
      | none => simp
      | some hash => rw [hwelcome p rfl hknown (by simp [hread])]

/-- What was noted is known. -/
theorem news?_pass_self : c.news? k.digest d (pass k d w c) = none := by
  have hnotice : c.notice? k.digest d (pass k d w c) = none := by
    unfold pass
    cases hnotice : c.notice? k.digest d w with
    | none => exact hnotice
    | some t =>
      rw [notice?_eq_none_iff, isKnown_of_frame (frame_draw k d { w with tracker := t } c)]
      exact isKnown_of_notice? hnotice
  rw [notice?_eq] at hnotice
  exact Option.map_eq_none_iff.mp hnotice

/-- A change that took place adds nothing when it is repeated. -/
theorem advance_again (s : Workspace × Report) :
    advance k d (advance k d s c) c = advance k d s c := by
  have hknown : c.news? k.digest d (advance k d s c).1 = none := news?_pass_self
  have htell : c.tell k d (advance k d s c).1 = {} := by rw [tell, hknown]; rfl
  have hpass : pass k d (advance k d s c).1 c = (advance k d s c).1 := by
    rw [pass_eq, hknown]
    rfl
  refine Prod.ext hpass ?_
  change (advance k d s c).2.merge (c.tell k d (advance k d s c).1) = _
  rw [htell, merge_empty]

/-- The same tracked files and graphs, up to order, and the same report. -/
def Agree (s t : Workspace × Report) : Prop := s.1.Matches t.1 ∧ s.2 = t.2

theorem Agree.symm {s t : Workspace × Report} (h : Agree s t) : Agree t s :=
  ⟨h.1.symm, h.2.symm⟩

theorem Agree.trans {s t u : Workspace × Report} (h : Agree s t) (h' : Agree t u) : Agree s u :=
  ⟨h.1.trans h'.1, h.2.trans h'.2⟩

/-- Workspaces that match decide in the same way. -/
theorem Agree.advance {s t : Workspace × Report} (h : Agree s t) (k : Toolkit) (d : Disk)
    (c : Change) : Agree (advance k d s c) (advance k d t c) := by
  obtain ⟨hmatches, hreport⟩ := h
  have hframe := hmatches.frame
  have hnews : c.news? k.digest d t.1 = c.news? k.digest d s.1 := by
    refine news?_congr hframe.root (by rw [hframe.tracker]) fun p _ _ _ => ?_
    rw [Workspace.isWelcome, Workspace.isWelcome, Workspace.supports, Workspace.supports,
      hframe.tracker, hframe.root, hframe.languages]
  refine ⟨?_, ?_⟩
  · rw [Change.advance, Change.advance, pass_eq, pass_eq, hnews, key_of_root hframe.root,
      redraw?_of_root hframe.root hframe.languages]
    cases c.news? k.digest d s.1 with
    | none => exact hmatches
    | some n => exact hmatches.install _ _ _
  · rw [Change.advance, Change.advance, tell, tell, hnews,
      draw_snd hframe.root hframe.languages, hreport]

theorem Agree.advanceAll {s t : Workspace × Report} (h : Agree s t) (k : Toolkit) (d : Disk)
    (cs : List Change) : Agree (cs.foldl (Change.advance k d) s) (cs.foldl (Change.advance k d) t) := by
  induction cs generalizing s t with
  | nil => exact h
  | cons c cs ih => exact ih (h.advance k d c)

/-- Changes of different files that do not decide each other may be exchanged. -/
theorem advance_comm {s : Workspace × Report} (hroot : s.1.root.isAbsolute = true)
    (hc : c.path.IsClean) (hc' : c'.path.IsClean) (hne : c.path ≠ c'.path)
    (hnews : c.news? k.digest d (pass k d s.1 c') = c.news? k.digest d s.1)
    (hnews' : c'.news? k.digest d (pass k d s.1 c) = c'.news? k.digest d s.1) :
    Agree (advance k d (advance k d s c) c') (advance k d (advance k d s c') c) := by
  obtain ⟨hr, hl, _⟩ := pass_fixed k d s.1 c
  obtain ⟨hr', hl', _⟩ := pass_fixed k d s.1 c'
  have htell : c.tell k d (pass k d s.1 c') = c.tell k d s.1 := by
    rw [tell, tell, hnews, draw_snd hr' hl']
  have htell' : c'.tell k d (pass k d s.1 c) = c'.tell k d s.1 := by
    rw [tell, tell, hnews', draw_snd hr hl]
  refine ⟨?_, ?_⟩
  · have hfirst : pass k d (pass k d s.1 c) c' = (c'.news? k.digest d s.1).elim (pass k d s.1 c)
        fun n => (pass k d s.1 c).install (c'.key s.1) n (c'.redraw? k d s.1) := by
      rw [pass_eq, hnews', key_of_root hr, redraw?_of_root hr hl]
    have hsecond : pass k d (pass k d s.1 c') c = (c.news? k.digest d s.1).elim (pass k d s.1 c')
        fun n => (pass k d s.1 c').install (c.key s.1) n (c.redraw? k d s.1) := by
      rw [pass_eq, hnews, key_of_root hr', redraw?_of_root hr' hl']
    change (pass k d (pass k d s.1 c) c').Matches (pass k d (pass k d s.1 c') c)
    rw [hfirst, hsecond, pass_eq, pass_eq]
    cases c.news? k.digest d s.1 with
    | none => exact .refl _
    | some m =>
      cases c'.news? k.digest d s.1 with
      | none => exact .refl _
      | some n =>
        refine Workspace.install_comm (key_ne hc hc' hne) m n
          (fun x hx => (redraw?_eq_some hroot hc hx).2)
          (fun x hx => (redraw?_eq_some hroot hc' hx).2) fun x hx y hy hfile => hne ?_
        have hid := (redraw?_eq_some hroot hc hx).1
        have hid' := (redraw?_eq_some hroot hc' hy).1
        exact hc.eq_of_fileId hc' hroot hid (hfile ▸ hid')
  · simp only [advance, htell, htell', merge_right_comm]

end Change

end SourceGraph
