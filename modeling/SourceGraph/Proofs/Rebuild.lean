import Mathlib.Data.List.Nodup
import SourceGraph.Proofs.Freshness
import SourceGraph.Proofs.Holdings
import SourceGraph.Proofs.Linking

/-!
# What a rebuild counts

A rebuild clears both graphs and describes every tracked file. The counts of its report are taken
from the fragments, those of the graphs from what is there at the end. The two agree as far as no
fragment takes away what another one added: files have ids of their own, so a fragment meets nothing
that it would remove, and only entities of one file that share an id become one node.

* `Report.Sums`: the counts of a report are those of some fragments.
* `Workspace.sums_indexAll`: what the description of some files reports.
* `Workspace.indexAll_of_new`: files that are new to the graphs are added one after the other.
* `size_byId`: how many nodes are left when each id has one.
* `Workspace.reindex_balance`: the report of a rebuild against the graphs after it.
-/

set_option autoImplicit false

namespace SourceGraph

/-! ## Reports -/

/-- The report is about a number of files, and its counts are those of their fragments. -/
structure Report.Sums (r : Report) (files : Nat) (fs : List Fragment) : Prop where
  files : r.indexed + r.skipped + r.failed = files
  indexed : r.indexed = fs.length
  nodes : r.nodes = (fs.flatMap (·.fileNodes)).length + (fs.flatMap (·.entityNodes)).length
  edges : r.edges = (fs.flatMap (·.importEdges)).length + (fs.flatMap (·.callEdges)).length
  unresolved : r.unresolved = (fs.flatMap (·.unresolved)).length

theorem Fragment.length_nodes (f : Fragment) :
    f.nodes.length = f.fileNodes.length + f.entityNodes.length := by
  rw [fileNodes, entityNodes]
  exact List.length_eq_length_filter_add _

namespace Report.Sums

theorem empty : ({} : Report).Sums 0 [] := ⟨rfl, rfl, rfl, rfl, rfl⟩

theorem ofFragment (f : Fragment) : (Report.ofFragment f).Sums 1 [f] := by
  refine ⟨rfl, rfl, ?_, ?_, ?_⟩
  · simp [Report.ofFragment, f.length_nodes]
  · simp [Report.ofFragment]
  · simp [Report.ofFragment]

theorem merge {r s : Report} {m n : Nat} {fs gs : List Fragment} (hr : r.Sums m fs)
    (hs : s.Sums n gs) : (r.merge s).Sums (m + n) (fs ++ gs) := by
  obtain ⟨hfiles, hindexed, hnodes, hedges, hunresolved⟩ := hr
  obtain ⟨hfiles', hindexed', hnodes', hedges', hunresolved'⟩ := hs
  constructor <;> simp only [Report.merge, List.flatMap_append, List.length_append] <;> omega

end Report.Sums

namespace Workspace

variable {k : Toolkit} {d : Disk} {w : Workspace} {p : Path} {ps : List Path} {file : String}

/-- The fragments of the files that can be described, with their ids. -/
def descriptions (k : Toolkit) (d : Disk) (w : Workspace) (ps : List Path) :
    List (String × Fragment) :=
  ps.filterMap (w.described? k d)

theorem descriptions_cons (k : Toolkit) (d : Disk) (w : Workspace) (p : Path) (ps : List Path) :
    w.descriptions k d (p :: ps) = (w.described? k d p).toList ++ w.descriptions k d ps := by
  rw [descriptions, descriptions, List.filterMap_cons]
  cases w.described? k d p <;> rfl

theorem Frame.descriptions {w' : Workspace} (h : w.Frame w') :
    w'.descriptions k d ps = w.descriptions k d ps :=
  List.filterMap_congr fun _ _ => h.described?

/-- A file without a description counts as skipped or as failed, and for nothing else. -/
theorem sums_index (k : Toolkit) (d : Disk) (w : Workspace) (p : Path) :
    (w.index k d p).2.Sums 1 ((w.described? k d p).toList.map (·.2)) := by
  have hskipped : ({ skipped := 1 } : Report).Sums 1 [] := ⟨rfl, rfl, rfl, rfl, rfl⟩
  have hfailed : ({ failed := 1 } : Report).Sums 1 [] := ⟨rfl, rfl, rfl, rfl, rfl⟩
  unfold index described?
  cases FileId.ofPath? w.root p with
  | none => exact hskipped
  | some file =>
    cases w.describe k d p with
    | ok o =>
      cases o with
      | none => exact hskipped
      | some a => exact .ofFragment _
    | error f =>
      cases f with
      | unsupported _ => exact hskipped
      | unreadable _ _ => exact hfailed
      | outsideRoot _ => exact hfailed

theorem sums_indexAll (k : Toolkit) (d : Disk) (w : Workspace) (ps : List Path) :
    (w.indexAll k d ps).2.Sums ps.length ((w.descriptions k d ps).map (·.2)) := by
  induction ps generalizing w with
  | nil => exact .empty
  | cons p ps ih =>
    have hrest := ih (w.index k d p).1
    rw [(frame_index k d w p).descriptions] at hrest
    rw [descriptions_cons, List.map_append, List.length_cons, Nat.add_comm]
    exact (sums_index k d w p).merge hrest

end Workspace

/-! ## Files that are new to the graphs -/

namespace Store

variable {s : Store} {file : String}

theorem removeFile_of_not_holds (h : ¬ s.Holds file) : s.removeFile file = s := by
  have hnone : ∀ other, s.Holds other → (other == file) = false := by
    intro other hother
    rw [beq_eq_false_iff_ne]
    rintro rfl
    exact h hother
  rw [removeFile, removeWhere_congr hnone, removeWhere_false]

end Store

namespace Workspace

variable {k : Toolkit} {d : Disk} {w : Workspace} {p : Path} {ps : List Path} {file : String}

/-- The workspace with some fragments added to its graphs, in order. -/
def addFragments (w : Workspace) (fs : List Fragment) : Workspace :=
  { w with
    imports := w.imports.putAll (fs.map (·.slice .import))
    calls := w.calls.putAll (fs.map (·.slice .call)) }

theorem addFragments_append (w : Workspace) (fs gs : List Fragment) :
    w.addFragments (fs ++ gs) = (w.addFragments fs).addFragments gs := by
  simp [addFragments, Store.putAll]

/-- The fragment of a file of which the graphs hold nothing replaces nothing. -/
theorem index_of_new (hnew : ∀ file, FileId.ofPath? w.root p = some file → ¬ w.HoldsFile file) :
    (w.index k d p).1 = w.addFragments ((w.described? k d p).toList.map (·.2)) := by
  rw [index_fst]
  cases hdescribed : w.described? k d p with
  | none => rfl
  | some e =>
    have hfree := hnew e.1 (described?_eq_some.mp hdescribed).1
    have himports := Store.removeFile_of_not_holds fun h => hfree (Or.inl h)
    have hcalls := Store.removeFile_of_not_holds fun h => hfree (Or.inr h)
    rw [Option.elim_some, putFragment_eq, himports, hcalls]
    rfl

/-- Files that are new to the graphs are added one after the other. -/
theorem indexAll_of_new (hunder : ∀ p ∈ ps, Path.IsUnder w.root p) (hnodup : ps.Nodup)
    (hnew : ∀ p ∈ ps, ∀ file, FileId.ofPath? w.root p = some file → ¬ w.HoldsFile file) :
    (w.indexAll k d ps).1 = w.addFragments ((w.descriptions k d ps).map (·.2)) := by
  induction ps generalizing w with
  | nil => rfl
  | cons p ps ih =>
    have hcons : (w.indexAll k d (p :: ps)).1 = ((w.index k d p).1.indexAll k d ps).1 := rfl
    have hframe := frame_index k d w p
    obtain ⟨hp, hps⟩ := List.forall_mem_cons.mp hunder
    obtain ⟨hnot, hnodup⟩ := List.nodup_cons.mp hnodup
    -- the file that was just added has an id that no later file has
    have hlater : ∀ q ∈ ps, ∀ file, FileId.ofPath? (w.index k d p).1.root q = some file →
        ¬ (w.index k d p).1.HoldsFile file := by
      rw [hframe.root]
      intro q hq file hid hheld
      rcases holdsFile_of_index (fun _ _ => hp) hheld with hsame | hheld
      · exact hnot ((hps q hq).eq_of_fileId hp hid hsame ▸ hq)
      · exact hnew q (List.mem_cons_of_mem _ hq) file hid hheld
    rw [hcons, ih (by rw [hframe.root]; exact hps) hnodup hlater, hframe.descriptions,
      index_of_new (hnew p List.mem_cons_self), descriptions_cons, List.map_append,
      addFragments_append]

end Workspace

/-! ## Nodes by id -/

theorem byId_concat (ns : List Node) (n : Node) :
    byId (ns ++ [n]) = (byId ns).insert n.id n := by
  rw [byId, byId, List.foldl_concat]

theorem mem_byId {ns : List Node} {id : String} : id ∈ byId ns ↔ id ∈ ns.map (·.id) := by
  induction ns using List.reverseRecOn with
  | nil => simp [byId]
  | append_singleton ns n ih =>
    rw [byId_concat, Std.ExtTreeMap.mem_insert, ih, Std.compare_eq_iff_eq, List.map_append,
      List.mem_append, or_comm, List.map_singleton, List.mem_singleton, eq_comm]

/-- Each id has one node, so nodes are lost if and only if some of them share an id. -/
theorem size_byId (ns : List Node) :
    (byId ns).size ≤ ns.length ∧ ((byId ns).size = ns.length ↔ (ns.map (·.id)).Nodup) := by
  induction ns using List.reverseRecOn with
  | nil => simp [byId]
  | append_singleton ns n ih =>
    obtain ⟨hle, hnodup⟩ := ih
    have hlast : ((ns ++ [n]).map (·.id)).Nodup ↔
        n.id ∉ ns.map (·.id) ∧ (ns.map (·.id)).Nodup := by
      rw [List.map_append, List.map_singleton, List.nodup_append_comm, List.singleton_append,
        List.nodup_cons]
    rw [hlast, byId_concat, Std.ExtTreeMap.size_insert, List.length_append, List.length_singleton]
    have hmem : (byId ns).contains n.id = true ↔ n.id ∈ ns.map (·.id) :=
      Std.ExtTreeMap.mem_iff_contains.symm.trans mem_byId
    by_cases hid : (byId ns).contains n.id = true
    · rw [if_pos hid]
      exact ⟨by omega, iff_of_false (by omega) fun h => h.1 (hmem.mp hid)⟩
    · rw [if_neg hid, Nat.add_right_cancel_iff, hnodup]
      exact ⟨by omega, (and_iff_right fun h => hid (hmem.mpr h)).symm⟩

/-- What a store holds after slices were added to it when it was empty. -/
theorem Store.counts_putAll_clear (s : Store) (ts : List Slice) :
    (s.clear.putAll ts).counts =
      ⟨(byId (ts.flatMap (·.nodes))).size, (ts.flatMap (·.edges)).length,
        (ts.flatMap (·.unresolved)).length⟩ := by
  obtain ⟨hnodes, hedges, hunresolved⟩ := s.clear.putAll_contents ts
  rw [counts, hnodes, hedges, hunresolved]
  rfl

theorem Tracker.nodup_files (t : Tracker) : t.files.Nodup := by
  have hkeys : t.watched.toList.Nodup := t.watched.distinct_toList.imp fun h he => by simp [he] at h
  exact hkeys.map fun _ _ h => congrArg Path.text h

theorem Artifact.ids_entityNodes (a : Artifact) (file : String) :
    (a.fragment file).entityNodes.map (·.id) = a.entityIds.map (nodeId file) := by
  have hids : (a.entityIds.zip a.entities).map (·.1) = a.entityIds :=
    List.map_fst_zip (Nat.le_of_eq a.length_entityIds)
  rw [← hids, entityNodes_fragment, List.map_map, List.map_map]
  exact List.map_congr_left fun ie _ => id_entityNode file ie.1 ie.2

namespace Workspace

variable {k : Toolkit} {d : Disk} {w : Workspace} {p : Path} {ps : List Path} {file : String}

/-- A file that is described has an id. -/
theorem exists_id_of_describe {a : Artifact} (h : w.describe k d p = .ok (some a)) :
    ∃ file, FileId.ofPath? w.root p = some file := by
  cases hid : FileId.ofPath? w.root p with
  | some file => exact ⟨file, rfl⟩
  | none =>
    obtain ⟨l, hl⟩ := Option.isSome_iff_exists.mp (supports_of_describe h)
    simp [describe, extract, identify, hl, hid, bind, Except.bind] at h

theorem mem_descriptions {e : String × Fragment} : e ∈ w.descriptions k d ps ↔
    ∃ p ∈ ps, FileId.ofPath? w.root p = some e.1 ∧
      ∃ a, w.describe k d p = .ok (some a) ∧ e.2 = a.fragment e.1 := by
  rw [descriptions, List.mem_filterMap]
  exact exists_congr fun p => and_congr_right fun _ => described?_eq_some

/-- The ids of described files differ. -/
theorem nodup_descriptions (hunder : ∀ p ∈ ps, Path.IsUnder w.root p) (hnodup : ps.Nodup) :
    ((w.descriptions k d ps).map (·.1)).Nodup := by
  refine List.pairwise_map.mpr (List.pairwise_filterMap.mpr ?_)
  refine hnodup.imp_of_mem fun {p q} hp hq hne e he e' he' hid => hne ?_
  have hpid := (described?_eq_some.mp he).1
  have hqid := (described?_eq_some.mp he').1
  exact (hunder p hp).eq_of_fileId (hunder q hq) (hid ▸ hpid) hqid

/-- Described files have one node each. -/
theorem fileNodes_descriptions (k : Toolkit) (d : Disk) (w : Workspace) (ps : List Path) :
    ((w.descriptions k d ps).map (·.2)).flatMap (·.fileNodes) =
      (w.descriptions k d ps).map fun e => Node.file e.1 := by
  rw [List.flatMap_map, List.map_eq_flatMap]
  refine List.flatMap_congr fun e he => ?_
  obtain ⟨p, _, _, a, _, hfragment⟩ := mem_descriptions.mp he
  rw [hfragment, Artifact.fileNodes_fragment]

/-- The nodes of entities have different ids if and only if those of each file have. -/
theorem nodup_entityNodes_iff (hunder : ∀ p ∈ ps, Path.IsUnder w.root p) (hnodup : ps.Nodup) :
    ((((w.descriptions k d ps).map (·.2)).flatMap (·.entityNodes)).map (·.id)).Nodup ↔
      ∀ p ∈ ps, ∀ a, w.describe k d p = .ok (some a) → a.entityIds.Nodup := by
  have hids : ∀ (a : Artifact) file,
      ((a.fragment file).entityNodes.map (·.id)).Nodup ↔ a.entityIds.Nodup := by
    intro a file
    rw [a.ids_entityNodes]
    exact List.nodup_map_iff fun _ _ h => Artifact.nodeId_inj h
  -- ids of different files differ, because the file can be read off an id
  have hdisjoint : (w.descriptions k d ps).Pairwise fun e e' =>
      List.Disjoint (e.2.entityNodes.map (·.id)) (e'.2.entityNodes.map (·.id)) := by
    have howner : ∀ e ∈ w.descriptions k d ps, ∀ id ∈ e.2.entityNodes.map (·.id),
        owningFile id = e.1 := by
      intro e he id hid
      obtain ⟨p, hp, hdescribed⟩ := List.mem_filterMap.mp he
      obtain ⟨n, hn, rfl⟩ := List.mem_map.mp hid
      exact ((isOwned_of_described? (hunder p hp) hdescribed .call).nodes n hn).2
    refine (List.pairwise_map.mp (nodup_descriptions hunder hnodup)).imp_of_mem ?_
    intro e e' he he' hne
    refine List.disjoint_left.mpr fun id hid hid' => hne ?_
    rw [← howner e he id hid, howner e' he' id hid']
  rw [List.flatMap_map, List.map_flatMap, List.nodup_flatMap, and_iff_left hdisjoint]
  constructor
  · intro h p hp a ha
    obtain ⟨file, hid⟩ := exists_id_of_describe ha
    have hmem := mem_descriptions (e := (file, a.fragment file)).mpr ⟨p, hp, hid, a, ha, rfl⟩
    exact (hids a file).mp (h _ hmem)
  · intro h e he
    obtain ⟨p, hp, _, a, ha, hfragment⟩ := mem_descriptions.mp he
    rw [hfragment]
    exact (hids a e.1).mpr (h p hp a ha)

/-! ## Rebuilds -/

/-- The workspace with empty graphs. -/
def cleared (w : Workspace) : Workspace :=
  { w with imports := w.imports.clear, calls := w.calls.clear }

/-- A rebuild in memory adds the fragments of the tracked files to empty graphs. -/
theorem reindex_of_isInMemory (k : Toolkit) (d : Disk) (hmemory : w.IsInMemory)
    (hclean : ∀ q ∈ w.tracker.files, Path.IsUnder w.root q) :
    ∃ r, r.Sums w.tracker.files.length ((w.descriptions k d w.tracker.files).map (·.2)) ∧
      w.reindex k d =
        (w.cleared.addFragments ((w.descriptions k d w.tracker.files).map (·.2)), d, .ok r) := by
  have hclear : w.Frame w.cleared := frame_clear w
  have hmemory' := hmemory.frame rfl (hclear.trans (frame_indexAll k d w.cleared w.tracker.files))
  have hreindex : w.reindex k d = saved k (w.cleared.indexAll k d w.tracker.files).1 d
      (w.cleared.indexAll k d w.tracker.files).2 := rfl
  have hnew : ∀ file, ¬ w.cleared.HoldsFile file := fun _ hheld =>
    hheld.elim Store.not_holds_clear Store.not_holds_clear
  have hadded := indexAll_of_new (k := k) (d := d) (w := w.cleared) hclean w.tracker.nodup_files
    fun _ _ file _ => hnew file
  have hsums := sums_indexAll k d w.cleared w.tracker.files
  rw [hclear.descriptions] at hadded hsums
  rw [saved_of_isInMemory hmemory', hadded] at hreindex
  exact ⟨_, hsums, hreindex⟩

/-- What fragments leave in graphs that were empty. -/
theorem counts_addFragments (w : Workspace) (fs : List Fragment) :
    (w.cleared.addFragments fs).imports.counts =
        ⟨(byId (fs.flatMap (·.fileNodes))).size, (fs.flatMap (·.importEdges)).length, 0⟩ ∧
      (w.cleared.addFragments fs).calls.counts =
        ⟨(byId (fs.flatMap (·.entityNodes))).size, (fs.flatMap (·.callEdges)).length,
          (fs.flatMap (·.unresolved)).length⟩ := by
  have himports := w.imports.counts_putAll_clear (fs.map (Fragment.slice · .import))
  have hcalls := w.calls.counts_putAll_clear (fs.map (Fragment.slice · .call))
  rw [List.flatMap_map, List.flatMap_map, List.flatMap_map] at himports hcalls
  have hnone : fs.flatMap (fun f => (f.slice .import).unresolved) = [] :=
    List.flatMap_eq_nil_iff.mpr fun _ _ => rfl
  rw [hnone] at himports
  exact ⟨himports, hcalls⟩

end Workspace

namespace Roster

/-- A text as functions on one line, each of them with a letter as its name. -/
def tree (text : String) : SyntaxTree :=
  ⟨"program", true, none, 0, text.length, (List.range text.length).map fun i =>
    ⟨"function_declaration", true, none, i, i + 1,
      [⟨"identifier", true, some "name", i, i + 1, []⟩]⟩⟩

def toolkit : Toolkit := { Echo.toolkit with grammars := fun _ text => some (tree text) }

/-- Two files in a folder, one of them with a name that is there three times. -/
def disk : Disk where
  top := .folder "w" (.file "a.ts" "fg".toUTF8 (.file "b.ts" "fff".toUTF8 .nil)) .nil
  current := []

/-- The folder as a workspace in which the two files are tracked, and one that is not there. -/
def workspace : Workspace :=
  { Echo.workspace with
    tracker := ["/w/a.ts", "/w/b.ts", "/w/c.ts"].foldl (·.insert · "") Echo.workspace.tracker }

theorem files_workspace :
    workspace.tracker.files = [⟨"/w/a.ts"⟩, ⟨"/w/b.ts"⟩, ⟨"/w/c.ts"⟩] := by
  decide +kernel

theorem isUnder_files : ∀ q ∈ workspace.tracker.files, Path.IsUnder workspace.root q := by
  have hroot : Path.Follows ⟨"/w"⟩ ["w"] := ⟨by decide +kernel, by decide +kernel⟩
  rw [files_workspace]
  simp only [List.mem_cons, List.not_mem_nil, or_false]
  rintro q (rfl | rfl | rfl)
  · exact ⟨["a.ts"], by decide +kernel, ["w"], hroot, by decide +kernel⟩
  · exact ⟨["b.ts"], by decide +kernel, ["w"], hroot, by decide +kernel⟩
  · exact ⟨["c.ts"], by decide +kernel, ["w"], hroot, by decide +kernel⟩

end Roster

/--
A rebuild of a workspace in memory whose tracked files have clean paths below the root. Each tracked
file is indexed, skipped or failed, and as many are indexed as can be described. The import graph
has a node for each indexed file, the two graphs have the edges and the call graph has the
unresolved calls that are reported. All reported nodes are there if and only if no file that is
described has two entities with one id, otherwise there are fewer.
-/
theorem Workspace.reindex_balance {w : Workspace} (k : Toolkit) (d : Disk) (hmemory : w.IsInMemory)
    (hclean : ∀ q ∈ w.tracker.files, Path.IsUnder w.root q) :
    ∃ v r, w.reindex k d = (v, d, .ok r) ∧ v.tracker = w.tracker ∧
      r.indexed + r.skipped + r.failed = w.tracker.files.length ∧
      r.indexed = (w.tracker.files.filter fun q => (w.described? k d q).isSome).length ∧
      v.imports.counts.nodes = r.indexed ∧
      v.imports.counts.edges + v.calls.counts.edges = r.edges ∧
      v.calls.counts.unresolved = r.unresolved ∧
      (v.imports.counts.nodes + v.calls.counts.nodes = r.nodes ↔
        ∀ q ∈ w.tracker.files, ∀ a, w.describe k d q = .ok (some a) → a.entityIds.Nodup) ∧
      (v.imports.counts.nodes + v.calls.counts.nodes < r.nodes ↔
        ∃ q ∈ w.tracker.files, ∃ a, w.describe k d q = .ok (some a) ∧ ¬ a.entityIds.Nodup) := by
  obtain ⟨r, hsums, hok⟩ := reindex_of_isInMemory k d hmemory hclean
  have hindexed : r.indexed = (w.descriptions k d w.tracker.files).length := by
    rw [hsums.indexed, List.length_map]
  have hfiles := nodup_descriptions (k := k) (d := d) hclean w.tracker.nodup_files
  have hentities := nodup_entityNodes_iff (k := k) (d := d) hclean w.tracker.nodup_files
  have hfileNodes := fileNodes_descriptions k d w w.tracker.files
  generalize (w.descriptions k d w.tracker.files).map (·.2) = fs at hsums hok hentities hfileNodes
  obtain ⟨himports, hcalls⟩ := w.counts_addFragments fs
  -- file nodes have different ids, so they are all kept
  have hkept : (byId (fs.flatMap (·.fileNodes))).size = r.indexed := by
    rw [hfileNodes, hindexed, (size_byId _).2.mpr, List.length_map]
    rw [List.map_map]
    exact hfiles
  have hnodes := hsums.nodes
  rw [hfileNodes, List.length_map, ← hindexed] at hnodes
  obtain ⟨hle, hall⟩ := size_byId (fs.flatMap (·.entityNodes))
  rw [hentities] at hall
  rw [hkept] at himports
  refine ⟨_, r, hok, rfl, hsums.files, ?_, ?_, ?_, ?_, ?_, ?_⟩
  · rw [hindexed, descriptions, List.length_filterMap_eq_countP, List.countP_eq_length_filter]
  · rw [himports]
  · rw [himports, hcalls]
    exact hsums.edges.symm
  · rw [hcalls]
    exact hsums.unresolved.symm
  · rw [himports, hcalls, ← hall, hnodes]
    exact Nat.add_left_cancel_iff
  · have hsome : (∃ q ∈ w.tracker.files, ∃ a, w.describe k d q = .ok (some a) ∧
        ¬ a.entityIds.Nodup) ↔ (byId (fs.flatMap (·.entityNodes))).size ≠
          (fs.flatMap (·.entityNodes)).length := by
      simp only [ne_eq, hall, not_forall, exists_prop]
    rw [himports, hcalls, hsome, hnodes, Nat.add_lt_add_iff_left]
    exact hle.lt_iff_ne

theorem Workspace.reindex_balance_roster :
    ∃ v r, Roster.workspace.reindex Roster.toolkit Roster.disk = (v, Roster.disk, .ok r) ∧
      r.indexed = 2 ∧ r.skipped + r.failed = 1 ∧ v.imports.counts.nodes = 2 ∧
      v.imports.counts.nodes + v.calls.counts.nodes < r.nodes := by
  obtain ⟨v, r, hok, _, htotal, hindexed, himports, _, _, _, hfewer⟩ :=
    Workspace.reindex_balance Roster.toolkit Roster.disk (w := Roster.workspace) ⟨rfl, rfl, rfl⟩
      Roster.isUnder_files
  have htwo : (Roster.workspace.tracker.files.filter fun q =>
      (Roster.workspace.described? Roster.toolkit Roster.disk q).isSome).length = 2 := by
    decide +kernel
  have hthree : Roster.workspace.tracker.files.length = 3 := by decide +kernel
  refine ⟨v, r, hok, by omega, by omega, by omega, hfewer.mpr ?_⟩
  refine ⟨⟨"/w/b.ts"⟩, by rw [Roster.files_workspace]; simp, _, rfl, ?_⟩
  decide +kernel

end SourceGraph
