import SourceGraph.Proofs.Document

/-!
# Fragments leave a store with their file

The owner of an id is what stands before the first `::`. A file whose id has no `::` and no `:` at
its end therefore owns its fragment as a whole, and the removal of the file takes the fragment out of
a store again, whatever names its entities have. For all other ids the owner is misread.

* `FileId.isOwner_iff`, `owningFile_nodeId_iff`: the files that can be read off the ids of entities.
* `Artifact.isOwned_fragment`: everything in a fragment belongs to its file.
* `Store.removeFile_put`: what a file owns can be added and removed without a trace.
* `Artifact.fragment_removed_with_file`: all of this for the fragment of an artifact.
-/

set_option autoImplicit false

namespace SourceGraph

/-! ## Owners of ids -/

theorem FileId.isOwner_iff {file : String} :
    FileId.IsOwner file ↔ ¬ idSeparator <:+: file.toList ∧ file.toList.getLast? ≠ some ':' := by
  rw [FileId.IsOwner, List.infix_concat_iff, not_or, and_comm]
  refine and_congr_right fun _ => not_congr ?_
  rw [idSeparator, List.getLast?_eq_some_iff]
  constructor
  · rintro ⟨front, hfront⟩
    refine ⟨front, (List.append_left_inj [':']).mp ?_⟩
    rw [← hfront, List.append_assoc]
    rfl
  · rintro ⟨front, hfront⟩
    refine ⟨front, ?_⟩
    rw [hfront, List.append_assoc]
    rfl

/-- The file of an entity is read off its id exactly if no separator begins in the file. -/
theorem owningFile_nodeId_iff {file name : String} :
    owningFile (nodeId file name) = file ↔ FileId.IsOwner file := by
  refine ⟨fun h => ?_, fun h => owningFile_nodeId h name⟩
  rw [owningFile] at h
  cases hcut : Text.cutFirst idSeparator (nodeId file name).toList with
  | none =>
    -- an id without a separator would be its own file
    rw [hcut, Option.elim_none] at h
    have hlength := congrArg (fun s : String => s.toList.length) h
    simp [nodeId] at hlength
  | some cut =>
    rw [hcut, Option.elim_some] at h
    have hfirst := (Text.cutFirst_eq_some (by decide) hcut).2
    have hfile : cut.1 = file.toList := by rw [← h, String.toList_ofList]
    rwa [hfile] at hfirst

/-! ## Owners of fragments -/

/-- Everything in the fragment belongs to one file. -/
structure Fragment.IsOwned (f : Fragment) (file : String) : Prop where
  nodes : ∀ n ∈ f.nodes, n.fileId = file ∧ owningFile n.id = file
  importEdges : ∀ e ∈ f.importEdges, e.sourceFile = file
  callEdges : ∀ e ∈ f.callEdges, e.sourceFile = file
  unresolved : ∀ u ∈ f.unresolved, u.sourceFile = file

theorem Artifact.isOwned_fragment (a : Artifact) {file : String} (h : FileId.IsOwner file) :
    (a.fragment file).IsOwned file where
  nodes n hn := by
    cases hkind : n.isFile with
    | true => exact (a.isOwned_slice h .import).nodes n (List.mem_filter.mpr ⟨hn, hkind⟩)
    | false => exact (a.isOwned_slice h .call).nodes n (List.mem_filter.mpr ⟨hn, by simp [hkind]⟩)
  importEdges := (a.isOwned_slice h .import).edges
  callEdges := (a.isOwned_slice h .call).edges
  unresolved := (a.isOwned_slice h .call).unresolved

/-- The slice is made of parts of a fragment, for one of the graphs or for both. -/
structure Slice.IsPartOf (t : Slice) (f : Fragment) : Prop where
  nodes : t.nodes ⊆ f.nodes
  edges : t.edges ⊆ f.importEdges ++ f.callEdges
  unresolved : t.unresolved ⊆ f.unresolved

theorem Fragment.IsOwned.edges {f : Fragment} {file : String} (h : f.IsOwned file) :
    ∀ e ∈ f.importEdges ++ f.callEdges, e.sourceFile = file := fun e he =>
  (List.mem_append.mp he).elim (h.importEdges e) (h.callEdges e)

theorem Slice.IsPartOf.isOwned {t : Slice} {f : Fragment} {file : String} (h : t.IsPartOf f)
    (hf : f.IsOwned file) : t.IsOwned file where
  nodes n hn := hf.nodes n (h.nodes hn)
  edges e he := hf.edges e (h.edges he)
  unresolved u hu := hf.unresolved u (h.unresolved hu)

/-! ## Removal -/

namespace Store

/-- The file of every node is the one that is read off its id. -/
def TellsFiles (s : Store) : Prop :=
  ∀ (id : String) (n : Node), s.nodes[id]? = some n → owningFile id = n.fileId

/-- `t` holds what `s` holds of all files but one, in the order of `s`, and nothing else. -/
structure IsRest (s : Store) (file : String) (t : Store) : Prop where
  nodes : t.nodeList = s.nodeList.filter (·.fileId != file)
  edges : t.edges = s.edges.filter (·.sourceFile != file)
  unresolved : t.unresolved = s.unresolved.filter (·.sourceFile != file)

theorem isRest_removeFile (s : Store) (file : String) : s.IsRest file (s.removeFile file) where
  nodes := by
    rw [nodeList, nodeList, List.filter_map, removeFile, removeWhere, Std.ExtTreeMap.toList_filter]
    rfl
  edges := rfl
  unresolved := rfl

/-- What a file owns leaves no trace once the file is removed. -/
theorem removeFile_put {s : Store} {t : Slice} {file : String} (hs : s.TellsFiles)
    (ht : t.IsOwned file) : (s.put t).removeFile file = s.removeFile file := by
  have hnodes : ((s.put t).removeFile file).nodes = (s.removeFile file).nodes := by
    apply Std.ExtTreeMap.ext_getElem?
    intro id
    have hget : (s.put t).nodes[id]? = (t.node? id).or s.nodes[id]? := addNodes_nodes s t.nodes id
    rw [getElem?_removeFile, getElem?_removeFile, hget]
    cases hnew : t.node? id with
    | none => rw [Option.none_or]
    | some n =>
      rw [Slice.node?, List.findRev?_eq_find?_reverse] at hnew
      obtain ⟨hfile, howner⟩ := ht.nodes n (List.mem_reverse.mp (List.mem_of_find?_eq_some hnew))
      have hid : n.id = id := by simpa using List.find?_some hnew
      -- a node that was there under this id is one of the same file
      cases hold : s.nodes[id]? with
      | none => simp [Option.filter, hfile]
      | some old =>
        have hsame : old.fileId = file := by rw [← hs id old hold, ← hid, howner]
        simp [Option.filter, hfile, hsame]
  refine Store.ext ?_ ?_ ?_ hnodes ?_ ?_
  · simp [put, addEdges, addUnresolved, addNodes_eq, removeFile, removeWhere]
  · simp [put, addEdges, addUnresolved, addNodes_eq, removeFile, removeWhere]
  · simp [put, addEdges, addUnresolved, addNodes_eq, removeFile, removeWhere]
  · rw [removeFile, removeWhere, put_edges]
    exact filter_others_append s.edges ht.edges
  · rw [removeFile, removeWhere, put_unresolved]
    exact filter_others_append s.unresolved ht.unresolved

end Store

/--
Let the id of a file have no `::` and no `:` at its end. Then everything in the fragment of an
artifact belongs to the file. If the fragment, or a part of it, is added to a store in which the file
of every node is read off its id, the removal of the file takes out the whole fragment, and all that
other files own stays in its order. Conversely, the file of an entity is read off its id only if no
`::` begins in the file.
-/
theorem Artifact.fragment_removed_with_file :
    (∀ (a : Artifact) (file : String), ¬ idSeparator <:+: file.toList →
      file.toList.getLast? ≠ some ':' →
      (a.fragment file).IsOwned file ∧
      ∀ (s : Store) (t : Slice), s.TellsFiles → t.IsPartOf (a.fragment file) →
        (s.put t).removeFile file = s.removeFile file ∧
        s.IsRest file ((s.put t).removeFile file) ∧
        (∀ n ∈ (a.fragment file).nodes, n ∉ ((s.put t).removeFile file).nodeList) ∧
        (∀ e ∈ (a.fragment file).importEdges ++ (a.fragment file).callEdges,
          e ∉ ((s.put t).removeFile file).edges) ∧
        ∀ u ∈ (a.fragment file).unresolved, u ∉ ((s.put t).removeFile file).unresolved) ∧
    ∀ file name, owningFile (nodeId file name) = file ↔ ¬ idSeparator <:+: file.toList ++ [':'] := by
  refine ⟨fun a file hsep hend => ?_, fun file name => owningFile_nodeId_iff⟩
  have howned := a.isOwned_fragment (FileId.isOwner_iff.mpr ⟨hsep, hend⟩)
  refine ⟨howned, fun s t hs ht => ?_⟩
  have hremoved := Store.removeFile_put hs (ht.isOwned howned)
  have hrest := s.isRest_removeFile file
  rw [hremoved]
  refine ⟨rfl, hrest, fun n hn => ?_, fun e he => ?_, fun u hu => ?_⟩
  · rw [hrest.nodes, List.mem_filter]
    simp [(howned.nodes n hn).1]
  · rw [hrest.edges, List.mem_filter]
    simp [howned.edges e he]
  · rw [hrest.unresolved, List.mem_filter]
    simp [howned.unresolved u hu]

/-- A file with a `:` in its id that declares an entity with a `::` in its name. -/
def Artifact.coloned : Artifact where
  file := { id := "a:b.ts", path := "/w/a:b.ts", language := "typescript" }
  imports := [{ source := "./c" }]
  entities := [{ id := "x::y", name := "x::y", kind := .function, span := ⟨1, 2⟩ }]
  moduleCalls := [{ callee := "x", kind := .function }]

/-- A graph with one other file, which imports the file with a `:`. -/
def Store.importer : Store :=
  ({ kind := .import } : Store).put
    { nodes := [.file "c.ts"], edges := [⟨"c.ts", "a:b.ts", .import⟩] }

theorem Artifact.fragment_removed_with_file_coloned :
    let f := coloned.fragment "a:b.ts"
    let all : Slice := ⟨f.nodes, f.importEdges ++ f.callEdges, f.unresolved⟩
    (f.nodes.length = 2 ∧ f.unresolved.length = 1 ∧ ⟨"a:b.ts", "c.ts", .import⟩ ∈ f.importEdges) ∧
    ((Store.importer.put all).removeFile "a:b.ts").edges = Store.importer.edges ∧
    owningFile "a:b.ts::x::y" = "a:b.ts" ∧ owningFile "a:::x" ≠ "a:" := by
  intro f all
  have htells : Store.importer.TellsFiles := by
    intro id n hn
    rw [Store.importer, Store.put, Store.addUnresolved, Store.addEdges] at hn
    rw [Store.addNodes_nodes] at hn
    simp only [List.findRev?, Std.ExtTreeMap.getElem?_empty, Option.or_none] at hn
    split at hn
    · rename_i hid
      obtain rfl := Option.some.inj hn
      have hfile : "c.ts" = id := by simpa [Node.file] using hid
      rw [← hfile]
      decide
    · cases hn
  obtain ⟨howned, howners⟩ := fragment_removed_with_file
  obtain ⟨_, hstores⟩ := howned coloned "a:b.ts" (by decide) (by decide)
  obtain ⟨_, hrest, _⟩ := hstores Store.importer all htells ⟨fun _ h => h, fun _ h => h, fun _ h => h⟩
  refine ⟨by decide +kernel, ?_, (howners "a:b.ts" "x::y").mpr (by decide), ?_⟩
  · rw [hrest.edges]
    decide
  · exact fun h => (howners "a:" "x").mp h (by decide)

end SourceGraph
