import SourceGraph.Proofs.FolderListing

/-!
# The order of a folder tree

Indices depend on the order in which paths are inserted, and so does the order in which a node gets
its children. What is left when these are sorted by kind and name does not: no two children of a
node have the same name, so there is only one way to sort them.

* `FolderTree.IsSorted`: the children of all nodes are in order.
* `TreeNode.label`: what a listing shows of a node.
* `FolderTree.Twins`: trees of the same files.
* `FolderTree.Twins.children_keys`, `FolderTree.Twins.shown_walk`: children and listings agree.
* `FolderTree.ofPaths_congr`: the tree of some paths depends on the set of files.
-/

set_option autoImplicit false

namespace SourceGraph

/-- What a listing shows of a node. -/
def TreeNode.label (n : TreeNode) : String × String × TreeNodeKind := (n.name, n.path, n.kind)

namespace FolderTree

variable {t t' : FolderTree} {i j : Nat} {n m : TreeNode} {paths paths' : List String}

/-- An entry of a listing as it is shown. -/
def shown (e : TreeNode × Nat) : (String × String × TreeNodeKind) × Nat := (e.1.label, e.2)

/-! ## Sorted children -/

/-- What children are sorted by: whether a node is a file, and its name. -/
def key (t : FolderTree) (i : Nat) : Bool × String :=
  (t.node? i).elim (false, "") fun n => (n.kind == .file, n.name)

/-- The order of what children are sorted by. -/
def keyOrder : Bool × String → Bool × String → Ordering :=
  compareLex (compareOn (·.1)) (compareOn (·.2))

theorem childOrder_eq (t : FolderTree) (i j : Nat) :
    t.childOrder i j = (keyOrder (t.key i) (t.key j)).isLE := rfl

instance : Std.TransCmp keyOrder := inferInstanceAs (Std.TransCmp (compareLex _ _))

theorem keyOrder_antisymm {x y : Bool × String} (h : (keyOrder x y).isLE = true)
    (h' : (keyOrder y x).isLE = true) : x = y := by
  have heq : keyOrder x y = .eq := Std.OrientedCmp.isLE_antisymm h h'
  obtain ⟨hfirst, hsecond⟩ := compareLex_eq_eq.mp heq
  exact Prod.ext (Std.compare_eq_iff_eq.mp hfirst) (Std.compare_eq_iff_eq.mp hsecond)

/-- The children of all nodes are in order. -/
def IsSorted (t : FolderTree) : Prop :=
  ∀ i n, t.node? i = some n → (n.children.map t.key).Pairwise fun x y => (keyOrder x y).isLE = true

theorem key_of_some (hn : t.node? i = some n) : t.key i = (n.kind == .file, n.name) := by
  rw [key, hn]
  rfl

theorem key_sortChildren (t : FolderTree) (i : Nat) : t.sortChildren.key i = t.key i := by
  rw [key, node?_sortChildren, key]
  cases t.node? i <;> rfl

theorem isSorted_sortChildren (t : FolderTree) : t.sortChildren.IsSorted := by
  intro i n hn
  obtain ⟨old, -, rfl⟩ := node?_sortChildren_eq_some.mp hn
  simp only [List.pairwise_map, key_sortChildren, ← childOrder_eq]
  refine List.pairwise_mergeSort (fun a b c => ?_) (fun a b => ?_) _
  · simp only [childOrder_eq]
    exact Std.TransCmp.isLE_trans
  · have hswap : keyOrder (t.key a) (t.key b) = (keyOrder (t.key b) (t.key a)).swap :=
      Std.OrientedCmp.eq_swap
    rw [childOrder_eq, childOrder_eq, hswap]
    cases keyOrder (t.key b) (t.key a) <;> rfl

/-! ## Trees of the same files -/

/-- Two sorted trees of the same files. -/
structure Twins (paths paths' : List String) (t t' : FolderTree) : Prop where
  left : t.IsTreeOf paths
  right : t'.IsTreeOf paths'
  flat : IsFlat paths
  same : ∀ p, p ∈ filePaths paths ↔ p ∈ filePaths paths'
  sorted : t.IsSorted
  sorted' : t'.IsSorted

namespace Twins

theorem symm (h : Twins paths paths' t t') : Twins paths' paths t' t where
  left := h.right
  right := h.left
  flat p hp q hq := h.flat p ((h.same p).mpr hp) q ((h.same q).mpr hq)
  same p := (h.same p).symm
  sorted := h.sorted'
  sorted' := h.sorted

/-- Nodes with the same path show the same. -/
theorem label_eq (h : Twins paths paths' t t') (hn : t.node? i = some n) (hm : t'.node? j = some m)
    (hpath : n.path = m.path) : n.label = m.label := by
  have hkind : n.kind = m.kind := by
    have hfile := h.left.kind_eq_file_iff h.flat hn
    rw [hpath, h.same, ← h.right.kind_eq_file_iff h.symm.flat hm] at hfile
    cases hk : n.kind <;> cases hk' : m.kind <;> simp [hk, hk'] at hfile ⊢
  have hname : n.name = m.name := by
    have hparts := congrArg parts hpath
    by_cases hi : i = root
    · have hj : j = root := by
        rw [← h.right.parts_eq_nil_iff hm, ← hparts, h.left.parts_eq_nil_iff hn]
        exact hi
      rw [h.left.name_root (hi ▸ hn), h.right.name_root (hj ▸ hm)]
    · have hj : j ≠ root := by
        rwa [Ne, ← h.right.parts_eq_nil_iff hm, ← hparts, h.left.parts_eq_nil_iff hn]
      obtain ⟨_, _, _, _, _, _, hsplit⟩ := h.left.exists_parent hn hi
      obtain ⟨_, _, _, _, _, _, hsplit'⟩ := h.right.exists_parent hm hj
      rw [hsplit, hsplit'] at hparts
      exact List.head_eq_of_cons_eq (List.append_inj_right' hparts rfl)
  rw [TreeNode.label, hname, hpath, hkind, TreeNode.label]

/-- Every node has a twin. -/
theorem exists_twin (h : Twins paths paths' t t') (hn : t.node? i = some n) :
    ∃ j m, t'.node? j = some m ∧ n.path = m.path := by
  obtain ⟨p, hp, hpre⟩ | hi : (∃ p ∈ paths, parts n.path <+: parts p) ∨ i = root := by
    cases h.left.fits i n hn with
    | root hi => exact Or.inr hi
    | file _ _ _ p hp hparts => exact Or.inl ⟨p, hp, hparts ▸ List.prefix_rfl⟩
    | folder _ _ _ p hp hparts => exact Or.inl ⟨p, hp, hparts⟩
  · by_cases hne : parts p = []
    · rw [hne, List.prefix_nil] at hpre
      obtain ⟨r, hr, -⟩ := h.right.sound.root
      refine ⟨root, r, hr, (h.left.path_eq_iff h.right hn hr).mpr ?_⟩
      rw [hpre, h.right.parts_root hr]
    · have hfile : cleaned p ∈ filePaths paths := mem_filePaths.mpr ⟨p, hp, rfl, hne⟩
      obtain ⟨k, file, hk, hpath⟩ := h.right.exists_of_mem_filePaths ((h.same _).mp hfile)
      rw [← parts_cleaned p, ← hpath] at hpre
      obtain ⟨j, m, hm, hparts⟩ := h.right.exists_of_prefix hk hpre
      exact ⟨j, m, hm, (h.left.path_eq_iff h.right hn hm).mpr hparts.symm⟩
  · obtain ⟨r, hr, -, hempty⟩ := h.right.sound.root
    exact ⟨root, r, hr, by rw [(h.left.sound.path_eq_empty_iff hn).mpr hi, hempty]⟩

theorem keys_subset (h : Twins paths paths' t t') (hn : t.node? i = some n)
    (hm : t'.node? j = some m) (hpath : n.path = m.path) :
    n.children.map t.key ⊆ m.children.map t'.key := by
  intro x hx
  obtain ⟨c, hc, rfl⟩ := List.mem_map.mp hx
  obtain ⟨child, hchild, hparts⟩ := (h.left.mem_children_iff hn).mp hc
  obtain ⟨c', child', hchild', hsame⟩ := h.exists_twin hchild
  have hlabel := h.label_eq hchild hchild' hsame
  simp only [TreeNode.label, Prod.mk.injEq] at hlabel
  refine List.mem_map.mpr ⟨c', (h.right.mem_children_iff hm).mpr ⟨child', hchild', ?_⟩, ?_⟩
  · rw [← hsame, ← hpath, hparts, hlabel.1]
  · rw [key_of_some hchild, key_of_some hchild', hlabel.1, hlabel.2.2]

end Twins

/-- Lists that agree in what is looked at are put together to the same. -/
theorem flatMap_eq_of_map_eq {α β κ : Type} {xs ys : List α} {k k' : α → κ} {f g : α → List β}
    (h : xs.map k = ys.map k') (hfg : ∀ x ∈ xs, ∀ y ∈ ys, k x = k' y → f x = g y) :
    xs.flatMap f = ys.flatMap g := by
  induction xs generalizing ys with
  | nil =>
    rw [List.map_nil, eq_comm, List.map_eq_nil_iff] at h
    rw [h]
    rfl
  | cons x xs ih =>
    obtain ⟨y, ys, rfl, hkey, hrest⟩ := List.map_eq_cons_iff.mp h.symm
    rw [List.flatMap_cons, List.flatMap_cons,
      hfg x List.mem_cons_self y List.mem_cons_self hkey.symm]
    congr 1
    exact ih hrest.symm fun x hx y hy =>
      hfg x (List.mem_cons_of_mem _ hx) y (List.mem_cons_of_mem _ hy)

/-- No two children of a node have the same name. -/
theorem IsTreeOf.nodup_keys (h : t.IsTreeOf paths) (hn : t.node? i = some n) :
    (n.children.map t.key).Nodup := by
  refine (h.sound.nodup i n hn).map_on fun c hc c' hc' hkey => ?_
  obtain ⟨child, hchild, hparts⟩ := (h.mem_children_iff hn).mp hc
  obtain ⟨child', hchild', hparts'⟩ := (h.mem_children_iff hn).mp hc'
  rw [key_of_some hchild, key_of_some hchild', Prod.mk.injEq] at hkey
  exact h.eq_of_parts hchild hchild' (by rw [hparts, hparts', hkey.2])

namespace Twins

/-- There is one way only to sort the children of a node. -/
theorem children_keys (h : Twins paths paths' t t') (hn : t.node? i = some n)
    (hm : t'.node? j = some m) (hpath : n.path = m.path) :
    n.children.map t.key = m.children.map t'.key := by
  have hperm : (n.children.map t.key).Perm (m.children.map t'.key) :=
    (List.perm_ext_iff_of_nodup (h.left.nodup_keys hn) (h.right.nodup_keys hm)).mpr fun x =>
      ⟨fun hx => h.keys_subset hn hm hpath hx, fun hx => h.symm.keys_subset hm hn hpath.symm hx⟩
  exact hperm.eq_of_pairwise (fun _ _ _ _ => keyOrder_antisymm) (h.sorted i n hn) (h.sorted' j m hm)

/-- Listings from nodes with the same path show the same, in the same order. -/
theorem shown_walk (h : Twins paths paths' t t') (hn : t.node? i = some n)
    (hm : t'.node? j = some m) (hpath : n.path = m.path) {bound bound' : Nat} (depth : Nat) (hbound : t.size ≤ i + bound)
    (hbound' : t'.size ≤ j + bound') :
    (t.walk bound depth i).map shown = (t'.walk bound' depth j).map shown := by
  have hi := lt_size hn
  have hj := lt_size hm
  induction bound generalizing i j n m bound' depth with
  | zero => omega
  | succ bound ih =>
    obtain ⟨bound', rfl⟩ : ∃ b, bound' = b + 1 := ⟨bound' - 1, by omega⟩
    rw [walk_of_some hn, walk_of_some hm, List.map_cons, List.map_cons, List.map_flatMap,
      List.map_flatMap]
    congr 1
    · rw [shown, h.label_eq hn hm hpath, shown]
    · refine flatMap_eq_of_map_eq (h.children_keys hn hm hpath) fun c hc c' hc' hkey => ?_
      have hlt := h.left.lt_of_mem_children hn hc
      have hlt' := h.right.lt_of_mem_children hm hc'
      obtain ⟨child, hchild, hparts⟩ := (h.left.mem_children_iff hn).mp hc
      obtain ⟨child', hchild', hparts'⟩ := (h.right.mem_children_iff hm).mp hc'
      rw [key_of_some hchild, key_of_some hchild', Prod.mk.injEq] at hkey
      refine ih hchild hchild' ?_ _ (by omega) (by omega) (lt_size hchild) (lt_size hchild')
      rw [h.left.path_eq_iff h.right hchild hchild', hparts, hparts', hpath, hkey.2]

theorem shown_below (h : Twins paths paths' t t') (hn : t.node? i = some n)
    (hm : t'.node? j = some m) (hpath : n.path = m.path) :
    (t.below i).map shown = (t'.below j).map shown :=
  h.shown_walk hn hm hpath 0 (Nat.le_add_left _ _) (Nat.le_add_left _ _)

theorem shown_below_root (h : Twins paths paths' t t') :
    (t.below root).map shown = (t'.below root).map shown := by
  obtain ⟨r, hr, -, hempty⟩ := h.left.sound.root
  obtain ⟨r', hr', -, hempty'⟩ := h.right.sound.root
  exact h.shown_below hr hr' (hempty.trans hempty'.symm)

end Twins

/-! ## What is read off a listing -/

/-- The files are read off what a listing shows. -/
theorem filesUnder_eq (t : FolderTree) (i : Nat) : t.filesUnder i =
    (((t.below i).map shown).filter (·.1.2.2 == .file)).map (·.1.2.1) := by
  rw [filesUnder, List.filter_map, List.map_map]
  rfl

/-- The text is read off what a listing shows. -/
theorem render_eq (t : FolderTree) : t.render =
    String.join (((t.below root).map shown).tail.map fun e =>
      line (⟨e.1.1, e.1.2.1, e.1.2.2, none, []⟩, e.2)) := by
  rw [render, ← List.map_tail, List.map_map]
  rfl

namespace Twins

theorem size_eq (h : Twins paths paths' t t') : t.size = t'.size := by
  have hlength := congrArg List.length h.shown_below_root
  have hleft := h.left.perm_below.length_eq
  have hright := h.right.perm_below.length_eq
  simp only [List.length_map] at hlength hleft hright
  rw [size, ← hleft, hlength, hright, size]

theorem render_eq (h : Twins paths paths' t t') : t.render = t'.render := by
  rw [FolderTree.render_eq, h.shown_below_root, FolderTree.render_eq]

theorem fileCount_eq (h : Twins paths paths' t t') : t.fileCount = t'.fileCount := by
  rw [← h.left.length_filesUnder_root, ← h.right.length_filesUnder_root, filesUnder_eq,
    h.shown_below_root, filesUnder_eq]

/-- The files below a path are the same, and so is whether there is a node. -/
theorem filesUnder_indexOf? (h : Twins paths paths' t t') (path : String) :
    (t.indexOf? path).map t.filesUnder = (t'.indexOf? path).map t'.filesUnder := by
  cases hindex : t.indexOf? path with
  | some i =>
    obtain ⟨n, hn, rfl⟩ := (h.left.sound.byPath path i).mp hindex
    obtain ⟨j, m, hm, hpath⟩ := h.exists_twin hn
    have hindex' : t'.indexOf? n.path = some j :=
      (h.right.sound.byPath n.path j).mpr ⟨m, hm, hpath.symm⟩
    rw [hindex', Option.map_some, Option.map_some, filesUnder_eq, h.shown_below hn hm hpath,
      filesUnder_eq]
  | none =>
    cases hindex' : t'.indexOf? path with
    | none => rfl
    | some j =>
      obtain ⟨m, hm, rfl⟩ := (h.right.sound.byPath path j).mp hindex'
      obtain ⟨i, n, hn, hpath⟩ := h.symm.exists_twin hm
      have hfound := (h.left.sound.byPath m.path i).mpr ⟨n, hn, hpath.symm⟩
      exact nomatch hindex.symm.trans hfound

end Twins

theorem twins_ofPaths (hflat : IsFlat paths)
    (hsame : ∀ p, p ∈ filePaths paths ↔ p ∈ filePaths paths') :
    Twins paths paths' (ofPaths paths) (ofPaths paths') where
  left := isTreeOf_ofPaths paths
  right := isTreeOf_ofPaths paths'
  flat := hflat
  same := hsame
  sorted := isSorted_sortChildren _
  sorted' := isSorted_sortChildren _

/--
Two lists of paths that name the same files, none of which leads to another, have trees of the same
size with the same text, and the same files below every path that is looked up, in the same order.
-/
theorem ofPaths_congr (hflat : IsFlat paths)
    (hsame : ∀ p, p ∈ filePaths paths ↔ p ∈ filePaths paths') :
    let t := ofPaths paths
    let t' := ofPaths paths'
    t.size = t'.size ∧ t.fileCount = t'.fileCount ∧ t.render = t'.render ∧
      ∀ path, (t.lookup path).map t.filesUnder = (t'.lookup path).map t'.filesUnder := by
  have h := twins_ofPaths hflat hsame
  exact ⟨h.size_eq, h.fileCount_eq, h.render_eq, fun path => h.filesUnder_indexOf? _⟩

/-- The same files, with other indices for them and for their folders. -/
theorem ofPaths_congr_reversed :
    let t := ofPaths ["lib/b.ts", "a.ts", "lib/util/c.ts", "./a.ts"]
    let t' := ofPaths ["lib//util/c.ts", "", "a.ts", "lib/./b.ts"]
    (t.lookup "lib/b.ts", t.lookup "/lib/util/") = (some 2, some 4) ∧
      (t'.lookup "lib/b.ts", t'.lookup "/lib/util/") = (some 5, some 2) ∧
      t.size = 6 ∧ t'.fileCount = 3 ∧ t.render = t'.render ∧ t.filesUnder 4 = t'.filesUnder 2 := by
  intro t t'
  have hflat : IsFlat ["lib/b.ts", "a.ts", "lib/util/c.ts", "./a.ts"] := by decide +kernel
  have hsame : ∀ p, p ∈ filePaths ["lib/b.ts", "a.ts", "lib/util/c.ts", "./a.ts"] ↔
      p ∈ filePaths ["lib//util/c.ts", "", "a.ts", "lib/./b.ts"] := by
    have hleft : ∀ p ∈ filePaths ["lib/b.ts", "a.ts", "lib/util/c.ts", "./a.ts"],
        p ∈ filePaths ["lib//util/c.ts", "", "a.ts", "lib/./b.ts"] := by decide +kernel
    have hright : ∀ p ∈ filePaths ["lib//util/c.ts", "", "a.ts", "lib/./b.ts"],
        p ∈ filePaths ["lib/b.ts", "a.ts", "lib/util/c.ts", "./a.ts"] := by decide +kernel
    exact fun p => ⟨hleft p, hright p⟩
  obtain ⟨hsize, hcount, hrender, hfiles⟩ := ofPaths_congr hflat hsame
  have hlookup : (t.lookup "lib/b.ts", t.lookup "/lib/util/") = (some 2, some 4) := by
    decide +kernel
  have hlookup' : (t'.lookup "lib/b.ts", t'.lookup "/lib/util/") = (some 5, some 2) := by
    decide +kernel
  refine ⟨hlookup, hlookup', hsize.trans (by decide +kernel), hcount.symm.trans (by decide +kernel),
    hrender, ?_⟩
  have hutil := hfiles "/lib/util/"
  rw [(Prod.mk.inj hlookup).2, (Prod.mk.inj hlookup').2] at hutil
  exact Option.some.inj hutil

end FolderTree

end SourceGraph
