import Mathlib.Data.List.Nodup
import SourceGraph.Proofs.FolderNodes

/-!
# Listings of a folder tree

A listing goes down from a node with a stack of nodes that are still to be visited. Nothing in the
arena keeps it from running in circles but that children come after their parents. It visits each
node whose path begins with that of the first one, and no node twice.

* `FolderTree.Traverses`, `FolderTree.IsTreeOf.traverses_iff`: the traversal ends, with the nodes
  below.
* `FolderTree.IsTreeOf.mem_walk`, `FolderTree.IsTreeOf.nodup_walk`: which nodes these are.
* `FolderTree.IsTreeOf.mem_filesUnder`: the files below a node are those within its path.
* `FolderTree.IsAtDepth`, `FolderTree.IsTreeOf.perm_below`: the listing from the root.
* `FolderTree.listing_agrees`: the listings of the tree of some paths.
-/

set_option autoImplicit false

namespace SourceGraph.FolderTree

variable {t : FolderTree} {i : Nat} {n : TreeNode} {paths : List String} {bound depth : Nat}

/-! ## Traversals -/

/--
A traversal: the nodes that are still to be visited, the next one first, with their depths, and what
is listed until none is left.
-/
inductive Traverses (t : FolderTree) : List (Nat × Nat) → List (TreeNode × Nat) → Prop
  | done : Traverses t [] []
  | skip {i depth : Nat} {stack : List (Nat × Nat)} {out : List (TreeNode × Nat)}
      (hi : t.node? i = none) (h : Traverses t stack out) : Traverses t ((i, depth) :: stack) out
  | visit {i depth : Nat} {n : TreeNode} {stack : List (Nat × Nat)} {out : List (TreeNode × Nat)}
      (hn : t.node? i = some n)
      (h : Traverses t (n.children.map (·, depth + 1) ++ stack) out) :
      Traverses t ((i, depth) :: stack) ((n, depth) :: out)

namespace Traverses

variable {stack stack' : List (Nat × Nat)} {out out' : List (TreeNode × Nat)}

theorem append (h : t.Traverses stack out) (h' : t.Traverses stack' out') :
    t.Traverses (stack ++ stack') (out ++ out') := by
  induction h with
  | done => exact h'
  | skip hi _ ih => exact .skip hi ih
  | visit hn _ ih =>
    rw [List.append_assoc] at ih
    exact .visit hn ih

theorem flatMap {f : Nat → List (TreeNode × Nat)} {cs : List Nat}
    (h : ∀ c ∈ cs, t.Traverses [(c, depth)] (f c)) :
    t.Traverses (cs.map (·, depth)) (cs.flatMap f) := by
  induction cs with
  | nil => exact .done
  | cons c cs ih =>
    obtain ⟨hc, hcs⟩ := List.forall_mem_cons.mp h
    exact hc.append (ih hcs)

/-- What is listed depends on the stack alone. -/
theorem unique (h : t.Traverses stack out) (h' : t.Traverses stack out') : out = out' := by
  induction h generalizing out' with
  | done =>
    cases h'
    rfl
  | skip hi _ ih =>
    cases h' with
    | skip _ h' => exact ih h'
    | visit hn _ => exact nomatch hi.symm.trans hn
  | visit hn _ ih =>
    cases h' with
    | skip hi _ => exact nomatch hi.symm.trans hn
    | visit hn' h' =>
      obtain rfl := Option.some.inj (hn.symm.trans hn')
      rw [ih h']

end Traverses

theorem walk_of_some (hn : t.node? i = some n) : t.walk (bound + 1) depth i =
    (n, depth) :: n.children.flatMap (t.walk bound (depth + 1)) := by
  rw [walk, hn]

namespace IsTreeOf

/-- The bound on the depth is never reached: indices grow on the way down. -/
theorem traverses_walk (h : t.IsTreeOf paths) (hbound : t.size ≤ i + bound) :
    t.Traverses [(i, depth)] (t.walk bound depth i) := by
  induction bound generalizing i depth with
  | zero => exact .skip (List.getElem?_eq_none hbound) .done
  | succ bound ih =>
    cases hn : t.node? i with
    | none =>
      rw [walk, hn]
      exact .skip hn .done
    | some n =>
      rw [walk_of_some hn]
      refine .visit hn ?_
      rw [List.append_nil]
      refine .flatMap fun c hc => ih ?_
      have hlt := h.lt_of_mem_children hn hc
      omega

theorem traverses_iff (h : t.IsTreeOf paths) {out : List (TreeNode × Nat)} :
    t.Traverses [(i, 0)] out ↔ out = t.below i := by
  have hbelow : t.Traverses [(i, 0)] (t.below i) := h.traverses_walk (Nat.le_add_left _ _)
  constructor
  · exact fun hout => hout.unique hbelow
  · rintro rfl
    exact hbelow

/-! ## The nodes below a node -/

/-- The nodes below a node are those whose path begins with its path. -/
theorem mem_walk (h : t.IsTreeOf paths) (hn : t.node? i = some n) (hbound : t.size ≤ i + bound)
    {m : TreeNode} {d : Nat} :
    (m, d) ∈ t.walk bound depth i ↔ (∃ j, t.node? j = some m) ∧ parts n.path <+: parts m.path ∧
      d + (parts n.path).length = depth + (parts m.path).length := by
  induction bound generalizing i n depth with
  | zero => exact absurd (lt_size hn) (by omega)
  | succ bound ih =>
    rw [walk_of_some hn, List.mem_cons, List.mem_flatMap]
    constructor
    · rintro (he | ⟨c, hc, hmem⟩)
      · cases he
        exact ⟨⟨i, hn⟩, List.prefix_rfl, rfl⟩
      · have hlt := h.lt_of_mem_children hn hc
        obtain ⟨child, hchild, hparts⟩ := (h.mem_children_iff hn).mp hc
        obtain ⟨hnode, hpre, hdepth⟩ := (ih hchild (by omega)).mp hmem
        rw [hparts] at hpre hdepth
        refine ⟨hnode, (List.prefix_append _ _).trans hpre, ?_⟩
        rw [List.length_append, List.length_singleton] at hdepth
        omega
    · rintro ⟨⟨j, hm⟩, ⟨rest, hrest⟩, hdepth⟩
      cases rest with
      | nil =>
        rw [List.append_nil] at hrest
        obtain rfl := h.eq_of_parts hn hm hrest
        obtain rfl := Option.some.inj (hn.symm.trans hm)
        exact Or.inl (by rw [Nat.add_right_cancel hdepth])
      | cons x rest =>
        -- the node one segment further down is a child
        have hpre : parts n.path ++ [x] <+: parts m.path := by
          rw [← hrest]
          exact ⟨rest, by rw [List.append_assoc]; rfl⟩
        obtain ⟨c, child, hchild, hparts⟩ := h.exists_of_prefix hm hpre
        have hname : child.name = x := by
          have hroot : c ≠ FolderTree.root := fun hroot => by
            simp [(h.parts_eq_nil_iff hchild).mpr hroot] at hparts
          obtain ⟨_, _, _, _, _, _, hsplit⟩ := h.exists_parent hchild hroot
          have hlast := List.append_inj_right' (hsplit.symm.trans hparts) rfl
          exact List.head_eq_of_cons_eq hlast
        have hc : c ∈ n.children :=
          (h.mem_children_iff hn).mpr ⟨child, hchild, by rw [hparts, hname]⟩
        have hlt := h.lt_of_mem_children hn hc
        refine Or.inr ⟨c, hc, (ih hchild (by omega)).mpr ⟨⟨j, hm⟩, ?_, ?_⟩⟩
        · rw [hparts]
          exact hpre
        · rw [hparts, List.length_append, List.length_singleton]
          omega

/-- No node is listed twice. -/
theorem nodup_walk (h : t.IsTreeOf paths) (hbound : t.size ≤ i + bound) :
    ((t.walk bound depth i).map (·.1.path)).Nodup := by
  induction bound generalizing i depth with
  | zero => exact List.nodup_nil
  | succ bound ih =>
    cases hn : t.node? i with
    | none =>
      rw [walk, hn]
      exact List.nodup_nil
    | some n =>
      have hbelow : ∀ c ∈ n.children, t.size ≤ c + bound := fun c hc => by
        have hlt := h.lt_of_mem_children hn hc
        omega
      -- what is listed from a child begins with the path of that child
      have hmem : ∀ c ∈ n.children, ∀ path ∈ (t.walk bound (depth + 1) c).map (·.1.path),
          ∃ child, t.node? c = some child ∧ parts child.path = parts n.path ++ [child.name] ∧
            parts child.path <+: parts path := by
        intro c hc path hpath
        obtain ⟨⟨m, d⟩, hmd, rfl⟩ := List.mem_map.mp hpath
        obtain ⟨child, hchild, hparts⟩ := (h.mem_children_iff hn).mp hc
        exact ⟨child, hchild, hparts, ((h.mem_walk hchild (hbelow c hc)).mp hmd).2.1⟩
      rw [walk_of_some hn, List.map_cons, List.map_flatMap, List.nodup_cons]
      constructor
      · intro hself
        obtain ⟨c, hc, hpath⟩ := List.mem_flatMap.mp hself
        obtain ⟨child, _, hparts, hpre⟩ := hmem c hc _ hpath
        have hle : (parts child.path).length ≤ (parts n.path).length := hpre.length_le
        rw [hparts, List.length_append, List.length_singleton] at hle
        omega
      · refine List.nodup_flatMap.mpr ⟨fun c hc => ih (hbelow c hc), ?_⟩
        refine (h.sound.nodup i n hn).pairwise_of_forall_ne fun c hc c' hc' hne => ?_
        refine List.disjoint_left.mpr fun path hpath hpath' => hne ?_
        obtain ⟨child, hchild, hparts, hpre⟩ := hmem c hc path hpath
        obtain ⟨child', hchild', hparts', hpre'⟩ := hmem c' hc' path hpath'
        refine h.eq_of_parts hchild hchild' ?_
        refine (List.prefix_of_prefix_length_le hpre hpre' ?_).eq_of_length ?_
        all_goals simp [hparts, hparts']

/-! ## The files below a node -/

theorem mem_below (h : t.IsTreeOf paths) (hn : t.node? i = some n) {m : TreeNode} {d : Nat} :
    (m, d) ∈ t.below i ↔ (∃ j, t.node? j = some m) ∧ parts n.path <+: parts m.path ∧
      d + (parts n.path).length = (parts m.path).length := by
  rw [below, h.mem_walk hn (Nat.le_add_left _ _), Nat.zero_add]

/-- The path of a node is within that of another one if it begins with its segments. -/
theorem isWithin_iff (h : t.IsTreeOf paths) (hn : t.node? i = some n) {j : Nat} {m : TreeNode}
    (hm : t.node? j = some m) (hj : j ≠ FolderTree.root) :
    FileId.isWithin m.path n.path = true ↔ parts n.path <+: parts m.path := by
  by_cases hi : i = FolderTree.root
  · rw [(h.sound.path_eq_empty_iff hn).mpr hi, parts_empty]
    exact iff_of_true (by simp [FileId.isWithin, show Path.trimSeparators "" = "" by decide])
      List.nil_prefix
  · have hne : parts n.path ≠ [] := fun hnil => hi ((h.parts_eq_nil_iff hn).mp hnil)
    have hne' : parts m.path ≠ [] := fun hnil => hj ((h.parts_eq_nil_iff hm).mp hnil)
    have hwithin := FileId.isWithin_intercalate hne hne'
      (fun x hx => ⟨(isPart_of_mem_parts hx).ne_empty, (isPart_of_mem_parts hx).ne_here,
        (isPart_of_mem_parts hx).no_separator⟩)
      (fun x hx => (isPart_of_mem_parts hx).no_separator)
    rwa [← cleaned, ← cleaned, h.cleaned_path hn, h.cleaned_path hm] at hwithin

theorem nodup_filesUnder (h : t.IsTreeOf paths) (i : Nat) : (t.filesUnder i).Nodup :=
  (h.nodup_walk (Nat.le_add_left _ _)).sublist (List.filter_sublist.map _)

/-- The files below a node are those within its path. -/
theorem mem_filesUnder (h : t.IsTreeOf paths) (hflat : IsFlat paths) (hn : t.node? i = some n)
    {path : String} :
    path ∈ t.filesUnder i ↔ path ∈ filePaths paths ∧ FileId.isWithin path n.path = true := by
  have hroot : ∀ {j : Nat} {m : TreeNode}, t.node? j = some m → m.path ∈ filePaths paths →
      j ≠ FolderTree.root := by
    intro j m hm hfile hj
    obtain ⟨p, _, hpath, hne⟩ := mem_filePaths.mp hfile
    refine hne ?_
    rw [← parts_cleaned, hpath, (h.parts_eq_nil_iff hm).mpr hj]
  simp only [filesUnder, List.mem_map, List.mem_filter, beq_iff_eq]
  constructor
  · rintro ⟨⟨m, d⟩, ⟨hmem, hkind⟩, rfl⟩
    obtain ⟨⟨j, hm⟩, hpre, _⟩ := (h.mem_below hn).mp hmem
    have hfile := (h.kind_eq_file_iff hflat hm).mp hkind
    exact ⟨hfile, (h.isWithin_iff hn hm (hroot hm hfile)).mpr hpre⟩
  · rintro ⟨hfile, hwithin⟩
    obtain ⟨j, m, hm, rfl⟩ := h.exists_of_mem_filePaths hfile
    have hpre := (h.isWithin_iff hn hm (hroot hm hfile)).mp hwithin
    refine ⟨(m, (parts m.path).length - (parts n.path).length), ⟨?_, ?_⟩, rfl⟩
    · exact (h.mem_below hn).mpr ⟨⟨j, hm⟩, hpre, Nat.sub_add_cancel hpre.length_le⟩
    · exact (h.kind_eq_file_iff hflat hm).mpr hfile

end IsTreeOf

/-! ## The listing from the root -/

/-- The number of steps from a node up to the root. -/
inductive IsAtDepth (t : FolderTree) : TreeNode → Nat → Prop
  | root {n : TreeNode} (hn : t.node? root = some n) : IsAtDepth t n 0
  | child {n m : TreeNode} {j depth : Nat} (hparent : n.parent = some j) (hm : t.node? j = some m)
      (h : IsAtDepth t m depth) : IsAtDepth t n (depth + 1)

namespace IsTreeOf

theorem isAtDepth (h : t.IsTreeOf paths) (hn : t.node? i = some n) :
    t.IsAtDepth n (parts n.path).length := by
  induction i using Nat.strong_induction_on generalizing n with
  | _ i ih =>
    by_cases hi : i = FolderTree.root
    · rw [(h.parts_eq_nil_iff hn).mpr hi]
      exact .root (hi ▸ hn)
    · obtain ⟨j, m, hparent, hlt, hm, _, hparts⟩ := h.exists_parent hn hi
      rw [hparts, List.length_append]
      exact .child hparent hm (ih j hlt hm)

theorem nodup_nodes (h : t.IsTreeOf paths) : t.nodes.Nodup := by
  refine List.nodup_iff_getElem?_ne_getElem?.mpr fun i j hij hj he => ?_
  obtain ⟨n, hn⟩ : ∃ n, t.node? j = some n := ⟨_, List.getElem?_eq_getElem hj⟩
  exact Nat.ne_of_lt hij (h.eq_of_parts (he.trans hn) hn rfl)

/-- From the root on, all nodes are listed, each once and with its depth. -/
theorem perm_below (h : t.IsTreeOf paths) : ((t.below FolderTree.root).map (·.1)).Perm t.nodes := by
  obtain ⟨r, hr, -, -⟩ := h.sound.root
  have hnodup : ((t.below FolderTree.root).map (·.1)).Nodup := by
    refine List.Nodup.of_map TreeNode.path ?_
    rw [List.map_map]
    exact h.nodup_walk (Nat.le_add_left _ _)
  rw [List.perm_ext_iff_of_nodup hnodup h.nodup_nodes]
  intro m
  rw [List.mem_map, List.mem_iff_getElem?]
  constructor
  · rintro ⟨⟨m, d⟩, hmem, rfl⟩
    exact ((h.mem_below hr).mp hmem).1
  · rintro ⟨j, hm⟩
    refine ⟨(m, (parts m.path).length), (h.mem_below hr).mpr ⟨⟨j, hm⟩, ?_⟩, rfl⟩
    simp [h.parts_root hr]

/-- The root is listed first. -/
theorem below_root (h : t.IsTreeOf paths) {r : TreeNode} (hr : t.node? FolderTree.root = some r) :
    t.nodes = r :: t.nodes.tail ∧
      t.below FolderTree.root = (r, 0) :: (t.below FolderTree.root).tail := by
  obtain ⟨size, hsize⟩ := Nat.exists_eq_succ_of_ne_zero h.sound.size_ne_root
  have hbelow : t.below FolderTree.root = (r, 0) :: r.children.flatMap (t.walk size 1) := by
    rw [below, hsize]
    exact walk_of_some hr
  refine ⟨(List.cons_head?_tail ?_).symm, ?_⟩
  · rw [List.head?_eq_getElem?]
    exact hr
  · rw [hbelow, List.tail_cons]

theorem perm_tail (h : t.IsTreeOf paths) :
    ((t.below FolderTree.root).tail.map (·.1)).Perm t.nodes.tail := by
  obtain ⟨r, hr, -, -⟩ := h.sound.root
  obtain ⟨hnodes, hbelow⟩ := h.below_root hr
  have hperm := h.perm_below
  rwa [hnodes, hbelow, List.map_cons, List.perm_cons] at hperm

/-- The nodes behind the root are listed with their depths. -/
theorem isAtDepth_of_mem_tail (h : t.IsTreeOf paths) {d : Nat}
    (hmem : (n, d) ∈ (t.below FolderTree.root).tail) : t.IsAtDepth n (d - 1 + 1) := by
  obtain ⟨r, hr, -, -⟩ := h.sound.root
  obtain ⟨⟨i, hn⟩, -, hdepth⟩ := (h.mem_below hr).mp (List.mem_of_mem_tail hmem)
  rw [h.parts_root hr, List.length_nil, Nat.add_zero] at hdepth
  have hi : i ≠ FolderTree.root := by
    rintro rfl
    obtain rfl := Option.some.inj (hr.symm.trans hn)
    have htail : r ∈ t.nodes.tail := h.perm_tail.mem_iff.mp (List.mem_map_of_mem hmem)
    have hnodup := h.nodup_nodes
    rw [(h.below_root hr).1, List.nodup_cons] at hnodup
    exact hnodup.1 htail
  have hpos : 0 < d := by
    rw [hdepth]
    exact List.length_pos_of_ne_nil fun hnil => hi ((h.parts_eq_nil_iff hn).mp hnil)
  rw [Nat.sub_add_cancel hpos, hdepth]
  exact h.isAtDepth hn

theorem length_filesUnder_root (h : t.IsTreeOf paths) :
    (t.filesUnder FolderTree.root).length = t.fileCount := by
  rw [filesUnder, List.length_map, fileCount, ← (h.perm_below.filter _).length_eq, List.filter_map,
    List.length_map]
  rfl

end IsTreeOf

/--
Every listing of the tree of some paths, none of which leads to another, ends. From a node on it has
the files within the path of that node, each once, so that from the root on it has all of them. The
text of the tree has one entry for each node but the root, with two spaces for each node between.
-/
theorem listing_agrees (hflat : IsFlat paths) :
    let t := ofPaths paths
    (∀ i n, t.node? i = some n →
      (∀ out, t.Traverses [(i, 0)] out ↔ out = t.below i) ∧ (t.filesUnder i).Nodup ∧
      ∀ path, path ∈ t.filesUnder i ↔
        path ∈ filePaths paths ∧ FileId.isWithin path n.path = true) ∧
    (∀ path, path ∈ t.filesUnder root ↔ path ∈ filePaths paths) ∧
    (t.filesUnder root).length = t.fileCount ∧
    ∃ entries : List (TreeNode × Nat), (entries.map (·.1)).Perm t.nodes.tail ∧
      entries.length = t.size - 1 ∧ (∀ e ∈ entries, t.IsAtDepth e.1 (e.2 + 1)) ∧
      t.render = String.join (entries.map fun e =>
        String.ofList (List.replicate (2 * e.2) ' ') ++ e.1.name ++
          (if e.1.kind = .folder then "/" else "") ++ "\n") := by
  intro t
  have h : t.IsTreeOf paths := isTreeOf_ofPaths paths
  refine ⟨fun i n hn => ⟨fun out => h.traverses_iff, h.nodup_filesUnder i,
    fun path => h.mem_filesUnder hflat hn⟩, fun path => ?_, h.length_filesUnder_root, ?_⟩
  · obtain ⟨r, hr, -, hempty⟩ := h.sound.root
    rw [h.mem_filesUnder hflat hr, hempty, and_iff_left]
    simp [FileId.isWithin, show Path.trimSeparators "" = "" by decide]
  · refine ⟨(t.below root).tail.map fun e => (e.1, e.2 - 1), ?_, ?_, ?_, ?_⟩
    · rw [List.map_map]
      exact h.perm_tail
    · have hlength := h.perm_tail.length_eq
      rw [List.length_map] at hlength
      rw [List.length_map, hlength, List.length_tail, size]
    · intro e he
      obtain ⟨⟨n, d⟩, hmem, rfl⟩ := List.mem_map.mp he
      exact h.isAtDepth_of_mem_tail hmem
    · rw [render, List.map_map]
      rfl

/-- A folder beside a file whose name goes on, and a file that is named twice. -/
theorem listing_agrees_siblings :
    let paths := ["src/library.ts", "src//./lib/a.ts", "", "src/lib/a.ts", "b.ts"]
    let t := ofPaths paths
    IsFlat paths ∧
      (∃ i n, t.node? i = some n ∧ n.path = "src/lib" ∧ "src/lib/a.ts" ∈ t.filesUnder i ∧
        "src/library.ts" ∉ t.filesUnder i) ∧
      (t.filesUnder root).length = 3 ∧
      ∃ entries : List (TreeNode × Nat), entries.length = 5 ∧
        ∀ e ∈ entries, t.IsAtDepth e.1 (e.2 + 1) := by
  intro paths t
  have hflat : IsFlat paths := by decide +kernel
  obtain ⟨hunder, -, hcount, entries, -, hlength, hdepth, -⟩ := listing_agrees hflat
  obtain ⟨n, hn, hpath⟩ := Option.map_eq_some_iff.mp
    (by decide +kernel : (t.node? 3).map (·.path) = some "src/lib")
  refine ⟨hflat, ⟨3, n, hn, hpath, ?_⟩, hcount.trans (by decide +kernel), entries, ?_, hdepth⟩
  · obtain ⟨-, -, hfiles⟩ := hunder 3 n hn
    rw [hfiles, hfiles, hpath]
    decide +kernel
  · exact hlength.trans (by decide +kernel)

end SourceGraph.FolderTree
