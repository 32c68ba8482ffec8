import Mathlib.Logic.Function.Basic
import SourceGraph.Graph.Fragment
import SourceGraph.Language.Basic
import SourceGraph.Proofs.Path
import SourceGraph.Store.Basic

/-!
# Slices of stores

A store holds a slice for each file: the nodes, edges and unresolved calls that the file owns. The
owner of an edge or of an unresolved call is read off the id at its start, so that removals and
additions for one file leave the slices of all others alone.

* `owningFile_nodeId`: the file of an entity is read off its id.
* `Slice`, `Fragment.slice`: what a fragment has for one of the two graphs.
* `Slice.IsOwned`, `Artifact.isOwned_slice`: everything in a slice belongs to one file.
* `Store.Mirrors`: a store holds given slices and nothing else.
* `Store.Mirrors.removeWhere`, `Store.Mirrors.put`: how the slices change with the store.
* `Store.Mirrors.similar`: slices fix a store up to the order of edges and unresolved calls.
-/

set_option autoImplicit false

namespace SourceGraph

/-! ## Owners of ids -/

/-- A file whose entities can be told from those of all other files. -/
def FileId.IsOwner (file : String) : Prop := ¬ idSeparator <:+: file.toList ++ [':']

theorem owningFile_nodeId {file : String} (h : FileId.IsOwner file) (name : String) :
    owningFile (nodeId file name) = file := by
  have htext : (nodeId file name).toList = file.toList ++ idSeparator ++ name.toList := by
    simp [nodeId, idSeparator]
  have hcut := Text.cutFirst_append idSeparator file.toList name.toList (by decide) h
  rw [owningFile, htext, hcut, Option.elim_some, String.ofList_toList]

theorem owningFile_self {file : String} (h : FileId.IsOwner file) : owningFile file = file := by
  have hnot : ¬ idSeparator <:+: file.toList := fun hi =>
    h (hi.trans (List.prefix_append _ _).isInfix)
  rw [owningFile, Text.cutFirst_eq_none hnot, Option.elim_none]

theorem FileId.isOwner_intercalate {names : List String} (hne : names ≠ [])
    (hn : ∀ n ∈ names, ¬ idSeparator <:+: n.toList) (hlast : FileId.IsOwner (names.getLast hne)) :
    FileId.IsOwner ("/".intercalate names) := by
  induction names with
  | nil => exact absurd rfl hne
  | cons n rest ih =>
    cases rest with
    | nil => simpa using hlast
    | cons m rest =>
      have htext : ("/".intercalate (n :: m :: rest)).toList ++ [':'] =
          n.toList ++ '/' :: (("/".intercalate (m :: rest)).toList ++ [':']) := by
        simp [String.intercalate_cons_cons]
      rw [FileId.IsOwner, htext]
      intro h
      rcases Text.doubled_infix_append (by decide) h with h | h
      · exact hn n List.mem_cons_self h
      · exact ih (List.cons_ne_nil m rest) (fun x hx => hn x (List.mem_cons_of_mem _ hx)) hlast h

theorem Language.not_mem_of_claims {l : Language} {ext : String} {c : Char} (hc : c.toLower = c)
    (hnone : ∀ e ∈ l.extensions, c ∉ e.toList) (h : l.claims ext = true) : c ∉ ext.toList := by
  intro hmem
  have hlower : c ∈ (Text.lower ext).toList := by
    rw [Text.lower, String.toList_ofList]
    exact List.mem_map.mpr ⟨c, hmem, hc⟩
  exact hnone _ (List.contains_iff_mem.mp h) hlower

/-- A file with the extension of a language owns its entities. -/
theorem Path.LeadsFrom.isOwner {root p : Path} {names : List String} {ls : List Language}
    (h : LeadsFrom root p names) (hne : names ≠ []) (hl : (Language.among? ls p).isSome = true) :
    FileId.IsOwner ("/".intercalate names) := by
  refine FileId.isOwner_intercalate hne (fun n hn => (h.1 n hn).no_idSeparator) ?_
  have hname : p.fileName? = some (names.getLast hne) := by
    rw [Path.fileName?, h.components, List.getLast?_append, List.getLast?_map,
      List.getLast?_eq_some_getLast hne]
    rfl
  have hplain := h.1 _ (List.getLast_mem hne)
  obtain ⟨l, hl⟩ := Option.isSome_iff_exists.mp hl
  obtain ⟨ext, hext, hl⟩ := Option.bind_eq_some_iff.mp hl
  rw [Path.extension?, hname, Option.bind_some] at hext
  obtain ⟨stem, htext⟩ := Path.cutName_ending hext
  have hclaims : l.claims ext = true := by simpa using List.find?_some hl
  have hcolon : ':' ∉ ext.toList :=
    Language.not_mem_of_claims rfl (by cases l <;> decide) hclaims
  rw [FileId.IsOwner, htext, List.append_assoc, List.cons_append]
  intro hsep
  rcases Text.doubled_infix_append (by decide) hsep with hsep | hsep
  · refine hplain.no_idSeparator (hsep.trans ?_)
    rw [htext]
    exact (List.prefix_append _ _).isInfix
  · have hcount := hsep.sublist.count_le ':'
    rw [List.count_append, List.count_eq_zero.mpr hcolon] at hcount
    exact absurd hcount (by decide)

/-! ## Slices -/

/-- What one file has in one graph. -/
structure Slice where
  nodes : List Node := []
  edges : List Edge := []
  unresolved : List UnresolvedCall := []

/-- The part of a fragment that belongs to one of the two graphs. -/
def Fragment.slice (f : Fragment) : StoreKind → Slice
  | .import => { nodes := f.fileNodes, edges := f.importEdges }
  | .call => { nodes := f.entityNodes, edges := f.callEdges, unresolved := f.unresolved }

/-- The node that counts under an id: the last one that has it. -/
def Slice.node? (t : Slice) (id : String) : Option Node := t.nodes.findRev? (·.id == id)

/-- Everything in the slice belongs to one file. -/
structure Slice.IsOwned (t : Slice) (file : String) : Prop where
  nodes : ∀ n ∈ t.nodes, n.fileId = file ∧ owningFile n.id = file
  edges : ∀ e ∈ t.edges, e.sourceFile = file
  unresolved : ∀ u ∈ t.unresolved, u.sourceFile = file

theorem Slice.isOwned_empty (file : String) : ({} : Slice).IsOwned file :=
  ⟨by simp, by simp, by simp⟩

/-- The nodes by their ids; of those with one id the last one counts. -/
def byId (ns : List Node) : Std.ExtTreeMap String Node := ns.foldl (fun m n => m.insert n.id n) ∅

namespace Artifact

theorem fileId_entityNode (file id : String) (e : Entity) :
    (entityNode file id e).fileId = file := by
  unfold entityNode Node.withSignature
  split <;> rfl

theorem id_entityNode (file id : String) (e : Entity) :
    (entityNode file id e).id = nodeId file id := by
  unfold entityNode Node.withSignature
  split <;> rfl

theorem isFile_entityNode (file id : String) (e : Entity) :
    (entityNode file id e).isFile = false := by
  unfold entityNode Node.withSignature
  split <;> rfl

theorem fileNodes_fragment (a : Artifact) (file : String) :
    (a.fragment file).fileNodes = [Node.file file] := by
  have hrest : ((a.entityIds.zip a.entities).map
      fun ie => entityNode file ie.1 ie.2).filter (·.isFile) = [] := by
    rw [List.filter_eq_nil_iff]
    intro n hn
    obtain ⟨ie, _, rfl⟩ := List.mem_map.mp hn
    simp [isFile_entityNode]
  rw [Fragment.fileNodes, fragment, List.filter_cons_of_pos (by rfl), hrest]

theorem entityNodes_fragment (a : Artifact) (file : String) :
    (a.fragment file).entityNodes =
      (a.entityIds.zip a.entities).map fun ie => entityNode file ie.1 ie.2 := by
  rw [Fragment.entityNodes, fragment, List.filter_cons_of_neg (by simp [Node.file, Node.isFile]),
    List.filter_eq_self]
  intro n hn
  obtain ⟨ie, _, rfl⟩ := List.mem_map.mp hn
  simp [isFile_entityNode]

/-- Both slices of an artifact's fragment belong to its file. -/
theorem isOwned_slice (a : Artifact) {file : String} (h : FileId.IsOwner file) (kind : StoreKind) :
    ((a.fragment file).slice kind).IsOwned file := by
  cases kind with
  | «import» =>
    refine ⟨?_, ?_, by simp [Fragment.slice]⟩
    · intro n hn
      rw [Fragment.slice, fileNodes_fragment, List.mem_singleton] at hn
      rw [hn]
      exact ⟨rfl, owningFile_self h⟩
    · intro e he
      obtain ⟨target, _, rfl⟩ := List.mem_map.mp he
      exact owningFile_self h
  | call =>
    refine ⟨?_, ?_, ?_⟩
    · intro n hn
      rw [Fragment.slice, entityNodes_fragment] at hn
      obtain ⟨ie, _, rfl⟩ := List.mem_map.mp hn
      rw [fileId_entityNode, id_entityNode, owningFile_nodeId h]
      exact ⟨rfl, rfl⟩
    · intro e he
      obtain ⟨c, _, hc⟩ := List.mem_filterMap.mp (List.mem_eraseDups.mp he)
      obtain ⟨d, _, rfl⟩ := Option.map_eq_some_iff.mp hc
      exact owningFile_nodeId h _
    · intro u hu
      obtain ⟨c, _, hc⟩ := List.mem_filterMap.mp hu
      unfold NumberedCall.unresolved? at hc
      split at hc
      · cases hc
      · cases hc
        exact owningFile_nodeId h _

end Artifact

namespace Store

/-! ## Stores and slices -/

/-- The store with a slice added to it. -/
def put (s : Store) (t : Slice) : Store :=
  ((s.addNodes t.nodes).addEdges t.edges).addUnresolved t.unresolved

/-- The store with some slices added to it, in order. -/
def putAll (s : Store) (ts : List Slice) : Store := ts.foldl put s

/-- The store holds, for each file, the slice that is given for it, and nothing else. -/
structure Mirrors (s : Store) (slices : String → Slice) : Prop where
  owned : ∀ file, (slices file).IsOwned file
  nodes : ∀ id, s.nodes[id]? = (slices (owningFile id)).node? id
  edges : ∀ file, s.edges.filter (·.sourceFile == file) = (slices file).edges
  unresolved : ∀ file, s.unresolved.filter (·.sourceFile == file) = (slices file).unresolved

/-- Nodes are added without a change to anything else. -/
theorem addNodes_eq (s : Store) (ns : List Node) :
    s.addNodes ns = { s with nodes := ns.foldl (fun m n => m.insert n.id n) s.nodes } := by
  induction ns generalizing s with
  | nil => rfl
  | cons n ns ih => exact ih (s.addNode n)

/-- Of the nodes with one id the last one counts. -/
theorem addNodes_nodes (s : Store) (ns : List Node) (id : String) :
    (s.addNodes ns).nodes[id]? = (ns.findRev? (·.id == id)).or s.nodes[id]? := by
  induction ns generalizing s with
  | nil => simp [addNodes, List.findRev?]
  | cons n ns ih =>
    have hstep : (s.addNodes (n :: ns)).nodes[id]? = ((s.addNode n).addNodes ns).nodes[id]? := rfl
    rw [hstep, ih (s.addNode n), List.findRev?]
    cases hfound : ns.findRev? (·.id == id) with
    | some m => simp
    | none =>
      simp only [addNode, Option.none_or, Std.ExtTreeMap.getElem?_insert, Std.compare_eq_iff_eq]
      by_cases hid : n.id = id
      · simp [hid]
      · simp [hid]

theorem put_edges (s : Store) (t : Slice) : (s.put t).edges = s.edges ++ t.edges := by
  simp [put, addEdges, addUnresolved, addNodes_eq]

theorem put_unresolved (s : Store) (t : Slice) :
    (s.put t).unresolved = s.unresolved ++ t.unresolved := by
  simp [put, addEdges, addUnresolved, addNodes_eq]

theorem put_path (s : Store) (t : Slice) : (s.put t).path = s.path := by
  simp [put, addEdges, addUnresolved, addNodes_eq]

/-- What slices hold together. -/
theorem putAll_contents (s : Store) (ts : List Slice) :
    (s.putAll ts).nodes = (ts.flatMap (·.nodes)).foldl (fun m n => m.insert n.id n) s.nodes ∧
      (s.putAll ts).edges = s.edges ++ ts.flatMap (·.edges) ∧
      (s.putAll ts).unresolved = s.unresolved ++ ts.flatMap (·.unresolved) := by
  induction ts generalizing s with
  | nil => simp [putAll]
  | cons t ts ih =>
    have hcons : s.putAll (t :: ts) = (s.put t).putAll ts := rfl
    obtain ⟨hnodes, hedges, hunresolved⟩ := ih (s.put t)
    refine ⟨?_, ?_, ?_⟩
    · have hput : (s.put t).nodes = (s.addNodes t.nodes).nodes := rfl
      rw [hcons, hnodes, hput, addNodes_eq, List.flatMap_cons, List.foldl_append]
    · rw [hcons, hedges, put_edges, List.flatMap_cons, List.append_assoc]
    · rw [hcons, hunresolved, put_unresolved, List.flatMap_cons, List.append_assoc]

theorem filter_owner_filter {α : Type} (owner : α → String) (l : List α) (owned : String → Bool)
    (file : String) :
    (l.filter fun x => !owned (owner x)).filter (owner · == file) =
      if owned file then [] else l.filter (owner · == file) := by
  induction l with
  | nil => simp
  | cons x l ih =>
    by_cases hx : owner x = file
    · subst hx
      cases howned : owned (owner x) <;> simp_all
    · cases howned : owned (owner x) <;> simp_all

theorem filter_owner_append {α : Type} {owner : α → String} {file : String} (l : List α)
    (other : String) {more : List α} (hmore : ∀ x ∈ more, owner x = file) :
    (l ++ more).filter (owner · == other) =
      l.filter (owner · == other) ++ if other = file then more else [] := by
  rw [List.filter_append]
  congr 1
  split
  · rename_i hother
    rw [List.filter_eq_self]
    intro x hx
    simp [hmore x hx, hother]
  · rename_i hother
    rw [List.filter_eq_nil_iff]
    intro x hx
    simp [hmore x hx, Ne.symm hother]

theorem removeWhere_false (s : Store) : s.removeWhere (fun _ => false) = s := by
  have hnodes : s.nodes.filter (fun _ n => !(fun _ : String => false) n.fileId) = s.nodes := by
    apply Std.ExtTreeMap.ext_getElem?
    intro id
    rw [Std.ExtTreeMap.getElem?_filter']
    cases s.nodes[id]? <;> rfl
  have hedges : s.edges.filter (fun _ => true) = s.edges := List.filter_eq_self.mpr (by simp)
  have hunresolved : s.unresolved.filter (fun _ => true) = s.unresolved :=
    List.filter_eq_self.mpr (by simp)
  unfold removeWhere
  rw [hnodes]
  simp only [Bool.not_false, hedges, hunresolved]

theorem getElem?_removeFile (s : Store) (file id : String) :
    (s.removeFile file).nodes[id]? = s.nodes[id]?.filter fun n => !(n.fileId == file) := by
  simp [removeFile, removeWhere]

/-- What a file owns is not among what other files own. -/
theorem filter_others_append {α : Type} {owner : α → String} {file : String} (l : List α)
    {more : List α} (hmore : ∀ x ∈ more, owner x = file) :
    (l ++ more).filter (fun x => !(owner x == file)) = l.filter fun x => !(owner x == file) := by
  have hnone : more.filter (fun x => !(owner x == file)) = [] := by
    rw [List.filter_eq_nil_iff]
    intro x hx
    simp [hmore x hx]
  rw [List.filter_append, hnone, List.append_nil]

theorem filter_owner_replaced {α : Type} {owner : α → String} {file : String} (l : List α)
    {more : List α}
    (hmore : ∀ x ∈ more, owner x = file) :
    (l.filter (fun x => !(owner x == file)) ++ more).filter (fun x => !(owner x == file)) =
      l.filter fun x => !(owner x == file) := by
  rw [filter_others_append _ hmore, List.filter_filter]
  simp

/-- A slice that is replaced by itself stays. -/
theorem replace_again {s : Store} {file : String} {t : Slice} (h : t.IsOwned file) :
    (((s.removeFile file).put t).removeFile file).put t = (s.removeFile file).put t := by
  have hnodes : ((((s.removeFile file).put t).removeFile file).put t).nodes =
      ((s.removeFile file).put t).nodes := by
    apply Std.ExtTreeMap.ext_getElem?
    intro id
    have hget : ∀ x : Store, (x.put t).nodes[id]? = (t.node? id).or x.nodes[id]? := fun x =>
      addNodes_nodes x t.nodes id
    rw [hget, getElem?_removeFile, hget, getElem?_removeFile]
    cases t.node? id with
    | some n => rfl
    | none => cases hn : s.nodes[id]? <;> simp [Option.filter_filter]
  have hedges : ((((s.removeFile file).put t).removeFile file).put t).edges =
      ((s.removeFile file).put t).edges := by
    have hremove : ∀ x : Store, (x.removeFile file).edges =
        x.edges.filter fun e => !(e.sourceFile == file) := fun _ => rfl
    rw [put_edges, hremove, put_edges, hremove, filter_owner_replaced s.edges h.edges]
  have hunresolved : ((((s.removeFile file).put t).removeFile file).put t).unresolved =
      ((s.removeFile file).put t).unresolved := by
    have hremove : ∀ x : Store, (x.removeFile file).unresolved =
        x.unresolved.filter fun u => !(u.sourceFile == file) := fun _ => rfl
    rw [put_unresolved, hremove, put_unresolved, hremove,
      filter_owner_replaced s.unresolved h.unresolved]
  refine Store.ext ?_ ?_ ?_ hnodes hedges hunresolved <;>
    simp [put, addEdges, addUnresolved, addNodes_eq, removeFile, removeWhere]

/-- The same nodes, and the same edges and unresolved calls in any order. -/
structure Similar (s t : Store) : Prop where
  nodes : s.nodes = t.nodes
  edges : s.edges.Perm t.edges
  unresolved : s.unresolved.Perm t.unresolved

theorem perm_of_filter_owner {α : Type} [DecidableEq α] (owner : α → String) {l m : List α}
    (h : ∀ file, (l.filter (owner · == file)).Perm (m.filter (owner · == file))) : l.Perm m := by
  rw [List.perm_iff_count]
  intro x
  have hcount := (h (owner x)).count_eq x
  rwa [List.count_filter (by simp), List.count_filter (by simp)] at hcount

namespace Mirrors

variable {s : Store} {slices : String → Slice}

theorem empty {s : Store} (hn : s.nodes = ∅) (he : s.edges = []) (hu : s.unresolved = []) :
    s.Mirrors fun _ => {} where
  owned := Slice.isOwned_empty
  nodes := by simp [hn, Slice.node?, List.findRev?]
  edges := by simp [he]
  unresolved := by simp [hu]

theorem node_owner (h : s.Mirrors slices) {id : String} {n : Node} (hn : s.nodes[id]? = some n) :
    n.fileId = owningFile id := by
  rw [h.nodes, Slice.node?, List.findRev?_eq_find?_reverse] at hn
  exact ((h.owned _).nodes n (List.mem_reverse.mp (List.mem_of_find?_eq_some hn))).1

/-- What the files with `owned` own is gone, and the slices of the others are as before. -/
theorem removeWhere (h : s.Mirrors slices) (owned : String → Bool) :
    (s.removeWhere owned).Mirrors fun file => if owned file then {} else slices file where
  owned file := by
    split
    · exact Slice.isOwned_empty file
    · exact h.owned file
  nodes id := by
    have hget : (s.removeWhere owned).nodes[id]? =
        s.nodes[id]?.filter fun n => !owned n.fileId := by
      simp [Store.removeWhere]
    rw [hget]
    cases hn : s.nodes[id]? with
    | none =>
      have hslice := h.nodes id
      rw [hn] at hslice
      split
      · simp [Slice.node?, List.findRev?]
      · simpa using hslice
    | some n =>
      have hslice := h.nodes id
      rw [hn] at hslice
      rw [Option.filter_some, h.node_owner hn]
      cases owned (owningFile id) with
      | true => simp [Slice.node?]
      | false => simpa using hslice
  edges file := by
    rw [Store.removeWhere, filter_owner_filter, h.edges]
    split <;> rfl
  unresolved file := by
    rw [Store.removeWhere, filter_owner_filter, h.unresolved]
    split <;> rfl

/-- A file that owned nothing owns what was added for it; the other slices are as before. -/
theorem put (h : s.Mirrors slices) (file : String) {t : Slice} (hfree : slices file = {})
    (ht : t.IsOwned file) : (s.put t).Mirrors (Function.update slices file t) where
  owned other := by
    by_cases hother : other = file
    · subst hother
      simpa using ht
    · rw [Function.update_of_ne hother]
      exact h.owned other
  nodes id := by
    have hget : (s.put t).nodes[id]? = (t.node? id).or s.nodes[id]? := addNodes_nodes s t.nodes id
    rw [hget, h.nodes]
    by_cases hid : owningFile id = file
    · rw [hid, Function.update_self, hfree]
      simp [Slice.node?, List.findRev?]
    · -- no node of the slice has an id of another file
      have hnone : t.node? id = none := by
        rw [Slice.node?, List.findRev?_eq_find?_reverse, List.find?_eq_none]
        intro n hn hnid
        have howner := (ht.nodes n (List.mem_reverse.mp hn)).2
        rw [beq_iff_eq] at hnid
        exact hid (hnid ▸ howner)
      rw [hnone, Option.none_or, Function.update_of_ne hid]
  edges other := by
    rw [put_edges, filter_owner_append _ _ ht.edges, h.edges]
    by_cases hother : other = file
    · subst hother
      simp [hfree]
    · simp [hother]
  unresolved other := by
    rw [put_unresolved, filter_owner_append _ _ ht.unresolved, h.unresolved]
    by_cases hother : other = file
    · subst hother
      simp [hfree]
    · simp [hother]

/-- The slice of one file is replaced. -/
theorem replace (h : s.Mirrors slices) {file : String} {t : Slice} (ht : t.IsOwned file) :
    ((s.removeFile file).put t).Mirrors (Function.update slices file t) := by
  have hput := (h.removeWhere (· == file)).put file (by simp) ht
  have hslices : Function.update (fun f => if f == file then {} else slices f) file t =
      Function.update slices file t := by
    funext other
    by_cases hother : other = file
    · simp [hother]
    · simp [hother]
  rwa [hslices] at hput

/-- Slices of different files, one after the other. -/
theorem putAll (h : s.Mirrors slices) (target : String → Slice) (parts : List (String × Slice))
    (hnodup : (parts.map (·.1)).Nodup) (hfree : ∀ p ∈ parts, slices p.1 = {})
    (howned : ∀ p ∈ parts, p.2.IsOwned p.1) (hparts : ∀ p ∈ parts, target p.1 = p.2)
    (hothers : ∀ file, file ∉ parts.map (·.1) → target file = slices file) :
    (s.putAll (parts.map (·.2))).Mirrors target := by
  induction parts generalizing s slices with
  | nil =>
    have htarget : target = slices := funext fun file => hothers file (by simp)
    exact htarget ▸ h
  | cons p parts ih =>
    rw [List.map_cons, List.nodup_cons] at hnodup
    have hput := h.put p.1 (hfree p List.mem_cons_self) (howned p List.mem_cons_self)
    refine ih hput hnodup.2 ?_ (fun q hq => howned q (List.mem_cons_of_mem _ hq))
      (fun q hq => hparts q (List.mem_cons_of_mem _ hq)) ?_
    · intro q hq
      have hne : q.1 ≠ p.1 := fun e => hnodup.1 (e ▸ List.mem_map_of_mem hq)
      rw [Function.update_of_ne hne]
      exact hfree q (List.mem_cons_of_mem _ hq)
    · intro file hfile
      by_cases hp : file = p.1
      · rw [hp, Function.update_self]
        exact hparts p List.mem_cons_self
      · rw [Function.update_of_ne hp]
        exact hothers file (by simp [hp, hfile])

/-- Two stores with the same slices differ in the order of edges and unresolved calls only. -/
theorem similar {t : Store} (hs : s.Mirrors slices) (ht : t.Mirrors slices) : s.Similar t where
  nodes := Std.ExtTreeMap.ext_getElem? fun id => (hs.nodes id).trans (ht.nodes id).symm
  edges := perm_of_filter_owner (·.sourceFile) fun file =>
    List.Perm.of_eq ((hs.edges file).trans (ht.edges file).symm)
  unresolved := perm_of_filter_owner (·.sourceFile) fun file =>
    List.Perm.of_eq ((hs.unresolved file).trans (ht.unresolved file).symm)

end Mirrors

/-! ## Stores that agree but for one file -/

/-- A store has the slices of another one, but for a slice of one file. -/
def AgreesOff (file : String) (t : Slice) (s s' : Store) : Prop :=
  ∃ slices, s'.Mirrors slices ∧ s.Mirrors (Function.update slices file t)

variable {s s' : Store} {slices : String → Slice} {file other : String} {t x : Slice}

theorem Mirrors.agreesOff (h : s.Mirrors slices) (file : String) :
    s.AgreesOff file (slices file) s := by
  refine ⟨slices, h, ?_⟩
  rw [Function.update_eq_self]
  exact h

namespace AgreesOff

theorem removeFile (h : s.AgreesOff file t s') (hne : other ≠ file) :
    (s.removeFile other).AgreesOff file t (s'.removeFile other) := by
  obtain ⟨slices, hs', hs⟩ := h
  refine ⟨_, hs'.removeWhere (· == other), ?_⟩
  have hslices : (fun f => if f == other then {} else Function.update slices file t f) =
      Function.update (fun f => if f == other then {} else slices f) file t := by
    funext f
    by_cases hf : f = file
    · subst hf
      simp [Ne.symm hne]
    · simp [Function.update_of_ne hf]
  rw [← hslices]
  exact hs.removeWhere (· == other)

theorem replace (h : s.AgreesOff file t s') (hne : other ≠ file) (hx : x.IsOwned other) :
    ((s.removeFile other).put x).AgreesOff file t ((s'.removeFile other).put x) := by
  obtain ⟨slices, hs', hs⟩ := h
  refine ⟨_, hs'.replace hx, ?_⟩
  rw [Function.update_comm hne]
  exact hs.replace hx

/-- The other store loses the slice of the file. -/
theorem of_removeFile (h : s.AgreesOff file t s') : s.AgreesOff file t (s'.removeFile file) := by
  obtain ⟨slices, hs', hs⟩ := h
  refine ⟨_, hs'.removeWhere (· == file), ?_⟩
  have hslices : Function.update (fun f => if f == file then {} else slices f) file t =
      Function.update slices file t := by
    funext f
    by_cases hf : f = file
    · subst hf
      simp
    · simp [hf]
  rw [hslices]
  exact hs

/-- The other store gets another slice of the file. -/
theorem of_replace (h : s.AgreesOff file t s') (hx : x.IsOwned file) :
    s.AgreesOff file t ((s'.removeFile file).put x) := by
  obtain ⟨slices, hs', hs⟩ := h
  refine ⟨_, hs'.replace hx, ?_⟩
  rw [Function.update_idem]
  exact hs

end AgreesOff

end Store

end SourceGraph
