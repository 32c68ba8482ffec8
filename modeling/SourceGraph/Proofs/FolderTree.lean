import SourceGraph.FolderTree
import SourceGraph.Proofs.Path

/-!
# The arena of a folder tree

Indices, parents, lists of children and the table of paths of a folder tree say the same thing,
however the tree was built.

* `FolderTree.IsSound`: the parts of an arena fit together.
* `FolderTree.Retains`: nodes stay where they are, and get no more than new children.
* `FolderTree.reaches_ensure`, `FolderTree.reaches_descend`: one node, and one path, inserted.
* `FolderTree.IsSound.sortChildren`: the order of children is free.
* `FolderTree.arena_agrees`: the arena of every tree that can be built.
-/

set_option autoImplicit false

namespace SourceGraph.FolderTree

/-- The parts of an arena fit together. -/
structure IsSound (t : FolderTree) : Prop where
  root : ∃ r, t.node? root = some r ∧ r.parent = none ∧ r.path = ""
  parent : ∀ i n, t.node? i = some n → i ≠ FolderTree.root →
    ∃ j above, n.parent = some j ∧ j < i ∧ t.node? j = some above ∧
      n.path = if j = FolderTree.root then n.name else above.path ++ "/" ++ n.name
  nodup : ∀ j above, t.node? j = some above → above.children.Nodup
  children : ∀ j above, t.node? j = some above →
    ∀ i, i ∈ above.children ↔ ∃ n, t.node? i = some n ∧ n.parent = some j
  byPath : ∀ path i, t.byPath[path]? = some i ↔ ∃ n, t.node? i = some n ∧ n.path = path

/-- Every node stays at its index as it is, with new children after its own. -/
def Retains (t t' : FolderTree) : Prop :=
  ∀ i n, t.node? i = some n → ∃ more, t'.node? i = some { n with children := n.children ++ more }

/-- A tree with an index, after an insertion: it is sound, and the index is that of a path. -/
structure Reaches (t : FolderTree) (path : String) (r : FolderTree × Nat) : Prop where
  sound : r.1.IsSound
  retains : t.Retains r.1
  path : ∃ n, r.1.node? r.2 = some n ∧ n.path = path

variable {t t' : FolderTree} {path name above : String} {kind : TreeNodeKind} {i j parent : Nat}
  {n m : TreeNode}

theorem Retains.refl (t : FolderTree) : t.Retains t := fun _ n h => ⟨[], by simpa using h⟩

theorem Retains.trans {t'' : FolderTree} (h : t.Retains t') (h' : t'.Retains t'') :
    t.Retains t'' := by
  intro i n hn
  obtain ⟨more, hmore⟩ := h i n hn
  obtain ⟨rest, hrest⟩ := h' i _ hmore
  exact ⟨more ++ rest, by rw [hrest]; simp⟩

theorem lt_size (h : t.node? i = some n) : i < t.size := (List.getElem?_eq_some_iff.mp h).1

namespace IsSound

theorem eq_of_path (h : t.IsSound) (hi : t.node? i = some n) (hj : t.node? j = some m)
    (hpath : n.path = m.path) : i = j := by
  have hfirst := (h.byPath n.path i).mpr ⟨n, hi, rfl⟩
  have hsecond := (h.byPath n.path j).mpr ⟨m, hj, hpath.symm⟩
  exact Option.some.inj (hfirst.symm.trans hsecond)

theorem path_eq_empty_iff (h : t.IsSound) (hn : t.node? i = some n) :
    n.path = "" ↔ i = FolderTree.root := by
  obtain ⟨r, hr, -, hpath⟩ := h.root
  constructor
  · intro hempty
    exact h.eq_of_path hn hr (hempty.trans hpath.symm)
  · rintro rfl
    obtain rfl := Option.some.inj (hn.symm.trans hr)
    exact hpath

theorem parent_lt_size (h : t.IsSound) (hn : t.node? i = some n) (hparent : n.parent = some j) :
    j < t.size := by
  by_cases hi : i = FolderTree.root
  · obtain ⟨r, hr, hnone, -⟩ := h.root
    obtain rfl := Option.some.inj ((hi ▸ hn).symm.trans hr)
    exact nomatch hnone.symm.trans hparent
  · obtain ⟨j', above, hj', -, habove, -⟩ := h.parent i n hn hi
    obtain rfl := Option.some.inj (hj'.symm.trans hparent)
    exact lt_size habove

/-- The path of a node below the node with an index. -/
theorem childPath_eq (h : t.IsSound) (hn : t.node? i = some n) (name : String) :
    childPath n.path name = if i = FolderTree.root then name else n.path ++ "/" ++ name := by
  unfold childPath
  simp only [h.path_eq_empty_iff hn]

end IsSound

/-! ## One node -/

section

variable (name kind parent)

theorem ensure_of_some (h : t.indexOf? path = some i) :
    t.ensure path name kind parent = (t, i) := by
  unfold ensure
  simp only [h]

theorem snd_ensure (h : t.indexOf? path = none) :
    (t.ensure path name kind parent).2 = t.size := by
  unfold ensure
  simp only [h]

/-- A new node stands after all others, and only its parent knows it. -/
theorem node?_ensure (h : t.indexOf? path = none) (i : Nat) :
    (t.ensure path name kind parent).1.node? i =
      if i = t.size then some ⟨name, path, kind, some parent, []⟩
      else (t.node? i).map fun n =>
        if i = parent then { n with children := n.children ++ [t.size] } else n := by
  have hnodes : (t.ensure path name kind parent).1.nodes =
      t.nodes.modify parent (fun n => { n with children := n.children ++ [t.size] }) ++
        [⟨name, path, kind, some parent, []⟩] := by
    unfold ensure
    simp only [h]
  have hsize : t.nodes.length = t.size := rfl
  unfold node?
  rw [hnodes, List.getElem?_append, List.length_modify, hsize]
  rcases Nat.lt_trichotomy i t.size with hi | hi | hi
  · rw [if_pos hi, if_neg (Nat.ne_of_lt hi), List.getElem?_modify]
    simp only [eq_comm]
    rfl
  · rw [if_neg (Nat.not_lt_of_ge (Nat.le_of_eq hi.symm)), if_pos hi, hi]
    simp [size]
  · have hnone : t.nodes[i]? = none := List.getElem?_eq_none (Nat.le_of_lt hi)
    rw [if_neg (Nat.not_lt_of_gt hi), if_neg (Nat.ne_of_gt hi), hnone]
    exact List.getElem?_eq_none (Nat.sub_pos_of_lt hi)

theorem byPath_ensure (h : t.indexOf? path = none) (other : String) :
    (t.ensure path name kind parent).1.byPath[other]? =
      if path = other then some t.size else t.byPath[other]? := by
  unfold ensure
  simp only [h, Std.ExtTreeMap.getElem?_insert, Std.compare_eq_iff_eq]

theorem retains_ensure (h : t.indexOf? path = none) :
    t.Retains (t.ensure path name kind parent).1 := by
  intro i n hn
  rw [node?_ensure name kind parent h, if_neg (Nat.ne_of_lt (lt_size hn)), hn, Option.map_some]
  by_cases hi : i = parent
  · exact ⟨[t.size], by rw [if_pos hi]⟩
  · exact ⟨[], by rw [if_neg hi, List.append_nil]⟩

end

/-- Every node after an insertion is the new one, or was there with all but its children. -/
theorem node?_ensure_cases (h : t.indexOf? path = none)
    (hn : (t.ensure path name kind parent).1.node? i = some n) :
    i = t.size ∧ n = ⟨name, path, kind, some parent, []⟩ ∨
      ∃ old, t.node? i = some old ∧ n =
        { old with children := if i = parent then old.children ++ [t.size] else old.children } := by
  rw [node?_ensure name kind parent h] at hn
  split at hn
  · rename_i hi
    exact Or.inl ⟨hi, (Option.some.inj hn).symm⟩
  · obtain ⟨old, hold, rfl⟩ := Option.map_eq_some_iff.mp hn
    refine Or.inr ⟨old, hold, ?_⟩
    split <;> rfl

/-- The nodes with a property that does not depend on children, after an insertion. -/
theorem exists_node?_ensure {P : TreeNode → Prop} (h : t.indexOf? path = none)
    (hP : ∀ n children, P { n with children } ↔ P n) (i : Nat) :
    (∃ n, (t.ensure path name kind parent).1.node? i = some n ∧ P n) ↔
      i = t.size ∧ P ⟨name, path, kind, some parent, []⟩ ∨ ∃ n, t.node? i = some n ∧ P n := by
  constructor
  · rintro ⟨n, hn, hPn⟩
    rcases node?_ensure_cases h hn with ⟨hi, rfl⟩ | ⟨old, hold, rfl⟩
    · exact Or.inl ⟨hi, hPn⟩
    · exact Or.inr ⟨old, hold, (hP _ _).mp hPn⟩
  · rintro (⟨rfl, hPn⟩ | ⟨n, hn, hPn⟩)
    · exact ⟨_, by rw [node?_ensure name kind parent h, if_pos rfl], hPn⟩
    · obtain ⟨more, hmore⟩ := retains_ensure name kind parent h i n hn
      exact ⟨_, hmore, (hP _ _).mpr hPn⟩

theorem IsSound.size_not_mem (h : t.IsSound) (hn : t.node? i = some n) : t.size ∉ n.children := by
  intro hmem
  obtain ⟨new, hnew, -⟩ := (h.children i n hn _).mp hmem
  exact Nat.lt_irrefl _ (lt_size hnew)

/-- A new node below a node of a sound arena leaves it sound. -/
theorem IsSound.ensure (h : t.IsSound) (hfree : t.indexOf? path = none)
    (hparent : t.node? parent = some m) (hpath : path = childPath m.path name) :
    (t.ensure path name kind parent).1.IsSound where
  root := by
    obtain ⟨r, hr, hnone, hempty⟩ := h.root
    obtain ⟨more, hmore⟩ := retains_ensure name kind parent hfree _ _ hr
    exact ⟨_, hmore, hnone, hempty⟩
  parent := by
    intro i n hn hi
    rcases node?_ensure_cases hfree hn with ⟨rfl, rfl⟩ | ⟨old, hold, rfl⟩
    · obtain ⟨more, hmore⟩ := retains_ensure name kind parent hfree _ _ hparent
      exact ⟨parent, _, rfl, lt_size hparent, hmore, hpath.trans (h.childPath_eq hparent name)⟩
    · obtain ⟨j, above, hj, hlt, habove, hpath⟩ := h.parent i old hold hi
      obtain ⟨more, hmore⟩ := retains_ensure name kind parent hfree _ _ habove
      exact ⟨j, _, hj, hlt, hmore, hpath⟩
  nodup := by
    intro j above habove
    rcases node?_ensure_cases hfree habove with ⟨rfl, rfl⟩ | ⟨old, hold, rfl⟩
    · exact List.nodup_nil
    · have hnodup := h.nodup j old hold
      by_cases hj : j = parent
      · simp only [if_pos hj]
        exact List.nodup_append.mpr ⟨hnodup, List.pairwise_singleton _ _, by
          rintro a ha b hb rfl
          exact h.size_not_mem hold (List.mem_singleton.mp hb ▸ ha)⟩
      · simpa only [if_neg hj] using hnodup
  children := by
    intro j above habove i
    rw [exists_node?_ensure hfree (fun _ _ => Iff.rfl)]
    rcases node?_ensure_cases hfree habove with ⟨rfl, rfl⟩ | ⟨old, hold, rfl⟩
    · -- nothing was below the new node before
      have hnone : ¬ ∃ n, t.node? i = some n ∧ n.parent = some t.size := by
        rintro ⟨n, hn, hsize⟩
        exact Nat.lt_irrefl _ (h.parent_lt_size hn hsize)
      simp only [List.not_mem_nil, false_iff, not_or]
      refine ⟨?_, hnone⟩
      rintro ⟨-, hsize⟩
      exact Nat.ne_of_lt (lt_size hparent) (Option.some.inj hsize)
    · rw [← h.children j old hold]
      by_cases hj : j = parent
      · subst hj
        simp [or_comm]
      · have hne : ¬ some parent = some j := fun he => hj (Option.some.inj he).symm
        simp [hj, hne]
  byPath := by
    intro other i
    rw [exists_node?_ensure hfree (fun _ _ => Iff.rfl), byPath_ensure name kind parent hfree]
    by_cases hother : path = other
    · have hnone : ¬ ∃ n, t.node? i = some n ∧ n.path = other := by
        rw [← h.byPath, ← hother]
        exact fun hsome => nomatch hfree.symm.trans hsome
      rw [if_pos hother, or_iff_left hnone, Option.some.injEq]
      exact ⟨fun hi => ⟨hi.symm, hother⟩, fun hi => hi.1.symm⟩
    · simp [hother, h.byPath]

/-- The node with a path below a node is there afterwards, new or not. -/
theorem reaches_ensure (h : t.IsSound) (hparent : t.node? parent = some m) (name : String)
    (kind : TreeNodeKind) :
    t.Reaches (childPath m.path name) (t.ensure (childPath m.path name) name kind parent) := by
  cases hindex : t.indexOf? (childPath m.path name) with
  | some i =>
    rw [ensure_of_some _ _ _ hindex]
    exact ⟨h, .refl t, (h.byPath _ i).mp hindex⟩
  | none =>
    refine ⟨h.ensure hindex hparent rfl, retains_ensure _ _ _ hindex, ?_⟩
    rw [snd_ensure _ _ _ hindex]
    exact ⟨_, by rw [node?_ensure _ _ _ hindex, if_pos rfl], rfl⟩

/-! ## One path -/

/-- The segments of a path lead from a folder to the path that they spell below it. -/
theorem reaches_descend (h : t.IsSound) (hparent : t.node? parent = some m) (names : List String) :
    t.Reaches (names.foldl childPath m.path) (t.descend parent m.path names) := by
  induction names generalizing t parent m with
  | nil => exact ⟨h, .refl t, m, hparent, rfl⟩
  | cons name rest ih =>
    cases rest with
    | nil => exact reaches_ensure h hparent name .file
    | cons next rest =>
      have hfirst := reaches_ensure h hparent name .folder
      obtain ⟨folder, hfolder, hpath⟩ := hfirst.path
      have hrest := ih hfirst.sound hfolder
      rw [hpath] at hrest
      exact ⟨hrest.sound, hfirst.retains.trans hrest.retains, hrest.path⟩

theorem toList_foldl_childPath (names : List String) (habove : above ≠ "") :
    (names.foldl childPath above).toList = above.toList ++ Path.trail names := by
  induction names generalizing above with
  | nil => simp [Path.trail]
  | cons name names ih =>
    have hchild : childPath above name = above ++ "/" ++ name := if_neg habove
    have hne : above ++ "/" ++ name ≠ "" := by
      intro hempty
      simpa using congrArg String.toList hempty
    rw [List.foldl_cons, hchild, ih hne]
    simp [Path.trail]

/-- Segments that are not empty, one below the other, are joined by separators. -/
theorem foldl_childPath {names : List String} (hn : ∀ n ∈ names, n ≠ "") :
    names.foldl childPath "" = "/".intercalate names := by
  cases names with
  | nil => rfl
  | cons name names =>
    have hname := hn name List.mem_cons_self
    -- both sides are what follows the first separator of the trail
    have htrail : '/' :: ("/".intercalate (name :: names)).toList =
        '/' :: (name.toList ++ Path.trail names) :=
      (Path.trail_eq_cons (List.cons_ne_nil name names)).symm
    apply String.toList_injective
    rw [List.foldl_cons, childPath, if_pos rfl, toList_foldl_childPath names hname]
    exact (List.cons.inj htrail).2.symm

theorem reaches_insert (h : t.IsSound) (path : String) :
    t.Reaches ("/".intercalate (parts path)) (t.insert path) := by
  obtain ⟨r, hr, -, hempty⟩ := h.root
  have hparts : ∀ n ∈ parts path, n ≠ "" := by
    intro n hn
    have hcounts : n ≠ "" ∧ n ≠ "." := by simpa using (List.mem_filter.mp hn).2
    exact hcounts.1
  have hreach := reaches_descend h hr (parts path)
  rw [hempty, foldl_childPath hparts] at hreach
  exact hreach

/-! ## Whole trees -/

theorem node?_empty (hn : empty.node? i = some n) :
    i = root ∧ n = ⟨"", "", .folder, none, []⟩ := by
  cases i with
  | zero => exact ⟨rfl, (Option.some.inj hn).symm⟩
  | succ i => exact nomatch hn

theorem isSound_empty : empty.IsSound where
  root := ⟨_, rfl, rfl, rfl⟩
  parent := fun _ _ hn hi => absurd (node?_empty hn).1 hi
  nodup := by
    intro j above habove
    obtain ⟨-, rfl⟩ := node?_empty habove
    exact List.nodup_nil
  children := by
    intro j above habove i
    obtain ⟨-, rfl⟩ := node?_empty habove
    refine ⟨fun hi => absurd hi List.not_mem_nil, ?_⟩
    rintro ⟨n, hn, hparent⟩
    obtain ⟨-, rfl⟩ := node?_empty hn
    exact nomatch hparent
  byPath := by
    intro path i
    have htable : empty.byPath[path]? = if "" = path then some FolderTree.root else none := by
      simp only [empty, Std.ExtTreeMap.getElem?_insert, Std.compare_eq_iff_eq,
        Std.ExtTreeMap.getElem?_empty]
    rw [htable]
    constructor
    · intro hi
      split at hi
      · rename_i hpath
        obtain rfl := Option.some.inj hi
        exact ⟨_, rfl, hpath⟩
      · exact nomatch hi
    · rintro ⟨n, hn, rfl⟩
      obtain ⟨rfl, rfl⟩ := node?_empty hn
      rfl

theorem node?_sortChildren (t : FolderTree) (i : Nat) :
    t.sortChildren.node? i =
      (t.node? i).map fun n => { n with children := n.children.mergeSort t.childOrder } :=
  List.getElem?_map ..

theorem node?_sortChildren_eq_some : t.sortChildren.node? i = some n ↔
    ∃ old, t.node? i = some old ∧
      { old with children := old.children.mergeSort t.childOrder } = n := by
  rw [node?_sortChildren, Option.map_eq_some_iff]

theorem exists_sortChildren {P : TreeNode → Prop}
    (hP : ∀ n children, P { n with children } ↔ P n) :
    (∃ n, t.sortChildren.node? i = some n ∧ P n) ↔ ∃ n, t.node? i = some n ∧ P n := by
  constructor
  · rintro ⟨n, hn, hPn⟩
    obtain ⟨old, hold, rfl⟩ := node?_sortChildren_eq_some.mp hn
    exact ⟨old, hold, (hP _ _).mp hPn⟩
  · rintro ⟨n, hn, hPn⟩
    exact ⟨_, node?_sortChildren_eq_some.mpr ⟨n, hn, rfl⟩, (hP _ _).mpr hPn⟩

/-- The order of children is free. -/
theorem IsSound.sortChildren (h : t.IsSound) : t.sortChildren.IsSound where
  root := by
    obtain ⟨r, hr, hnone, hempty⟩ := h.root
    exact ⟨_, node?_sortChildren_eq_some.mpr ⟨r, hr, rfl⟩, hnone, hempty⟩
  parent := by
    intro i n hn hi
    obtain ⟨old, hold, rfl⟩ := node?_sortChildren_eq_some.mp hn
    obtain ⟨j, above, hj, hlt, habove, hpath⟩ := h.parent i old hold hi
    exact ⟨j, _, hj, hlt, node?_sortChildren_eq_some.mpr ⟨above, habove, rfl⟩, hpath⟩
  nodup := by
    intro j n hn
    obtain ⟨old, hold, rfl⟩ := node?_sortChildren_eq_some.mp hn
    exact (List.mergeSort_perm _ _).nodup_iff.mpr (h.nodup j old hold)
  children := by
    intro j n hn i
    obtain ⟨old, hold, rfl⟩ := node?_sortChildren_eq_some.mp hn
    rw [List.mem_mergeSort, h.children j old hold, exists_sortChildren fun _ _ => Iff.rfl]
  byPath := by
    intro path i
    rw [exists_sortChildren fun _ _ => Iff.rfl]
    exact h.byPath path i

/-- The trees that insertions lead to, from none or from a list of paths. -/
inductive Built : FolderTree → Prop
  | empty : Built .empty
  | ofPaths (paths : List String) : Built (.ofPaths paths)
  | insert {t : FolderTree} (h : Built t) (path : String) : Built (t.insert path).1

theorem isSound_foldl_insert (h : t.IsSound) (paths : List String) :
    (paths.foldl (fun t p => (t.insert p).1) t).IsSound := by
  induction paths generalizing t with
  | nil => exact h
  | cons p ps ih => exact ih (reaches_insert h p).sound

theorem Built.isSound (h : Built t) : t.IsSound := by
  induction h with
  | empty => exact isSound_empty
  | ofPaths paths => exact (isSound_foldl_insert isSound_empty paths).sortChildren
  | insert _ path ih => exact (reaches_insert ih path).sound

/--
However a tree was built, its arena is sound and no two nodes have the same path. One more path
leaves every node at its index, with its name, path, kind and parent, and the index that it returns
is that of the path without its empty segments and its `.` segments.
-/
theorem arena_agrees (h : Built t) :
    t.IsSound ∧
      (∀ i j n m, t.node? i = some n → t.node? j = some m → n.path = m.path → i = j) ∧
      ∀ path, t.Retains (t.insert path).1 ∧
        ∃ n, (t.insert path).1.node? (t.insert path).2 = some n ∧
          n.path = "/".intercalate (parts path) := by
  have hsound := h.isSound
  refine ⟨hsound, fun i j n m hi hj hpath => hsound.eq_of_path hi hj hpath, fun path => ?_⟩
  have hreach := reaches_insert hsound path
  exact ⟨hreach.retains, hreach.path⟩

/-- A file with a file below it, after folders that share their beginnings. -/
theorem arena_agrees_shared :
    let t := ((ofPaths ["src/b.ts", "src/lib/a.ts", "src//./b.ts"]).insert "src/b.ts/c.ts").1
    Built t ∧ t.IsSound ∧ t.Retains (t.insert "./src//d.ts").1 ∧
      ∃ n, (t.insert "./src//d.ts").1.node? (t.insert "./src//d.ts").2 = some n ∧
        n.path = "src/d.ts" := by
  have hbuilt : Built ((ofPaths ["src/b.ts", "src/lib/a.ts", "src//./b.ts"]).insert
      "src/b.ts/c.ts").1 := .insert (.ofPaths _) _
  obtain ⟨hsound, -, hinsert⟩ := arena_agrees hbuilt
  have hparts : "/".intercalate (parts "./src//d.ts") = "src/d.ts" := by decide
  exact ⟨hbuilt, hsound, (hinsert _).1, hparts ▸ (hinsert "./src//d.ts").2⟩

end SourceGraph.FolderTree
