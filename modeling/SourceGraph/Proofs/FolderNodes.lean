import SourceGraph.Proofs.FolderTree

/-!
# The nodes of a folder tree

The nodes of the tree of some paths are the beginnings of these paths, one node for each. Which of
them are files is a matter of the order of insertion only if a path is the beginning of another one.

* `FolderTree.IsPart`, `FolderTree.parts_intercalate`: the segments that count.
* `FolderTree.filePaths`, `FolderTree.IsFlat`: the files that some paths name; none is below
  another.
* `FolderTree.Fits`: what a node of a tree can be.
* `FolderTree.fits_descend`: one path inserted.
* `FolderTree.IsTreeOf`, `FolderTree.isTreeOf_ofPaths`: the trees of some paths.
* `FolderTree.IsTreeOf.kind_eq_file_iff`: the files of such a tree.
-/

set_option autoImplicit false

namespace SourceGraph.FolderTree

/-! ## Segments -/

/-- A segment that counts. -/
structure IsPart (n : String) : Prop where
  ne_empty : n ≠ ""
  ne_here : n ≠ "."
  no_separator : '/' ∉ n.toList

variable {t : FolderTree} {path name above : String} {kind : TreeNodeKind} {i j parent : Nat}
  {n m : TreeNode} {names paths : List String}

theorem isPart_of_mem_parts (h : name ∈ parts path) : IsPart name := by
  obtain ⟨hmem, hcounts⟩ := List.mem_filter.mp h
  have hne : name ≠ "" ∧ name ≠ "." := by simpa using hcounts
  exact ⟨hne.1, hne.2, Text.not_mem_of_mem_segments hmem⟩

theorem parts_of_isPart (h : IsPart name) : parts name = [name] := by
  rw [parts, Text.segments_of_not_mem h.no_separator]
  simp [h.ne_empty, h.ne_here]

theorem parts_empty : parts "" = [] := by decide

/-- One segment more. -/
theorem parts_childPath (above : String) (h : IsPart name) :
    parts (childPath above name) = parts above ++ [name] := by
  by_cases habove : above = ""
  · rw [childPath, if_pos habove, habove, parts_empty, parts_of_isPart h, List.nil_append]
  · rw [childPath, if_neg habove, parts, Text.segments_append, List.filter_append, ← parts, ← parts,
      parts_of_isPart h]

/-- Segments that were joined come back. -/
theorem parts_intercalate (h : ∀ n ∈ names, IsPart n) : parts ("/".intercalate names) = names := by
  by_cases hne : names = []
  · rw [hne]
    exact parts_empty
  · rw [parts, Text.segments_intercalate hne fun n hn => (h n hn).no_separator, List.filter_eq_self]
    intro n hn
    simp [(h n hn).ne_empty, (h n hn).ne_here]

/-- A path without the segments that do not count. -/
def cleaned (path : String) : String := "/".intercalate (parts path)

theorem parts_cleaned (path : String) : parts (cleaned path) = parts path :=
  parts_intercalate fun _ => isPart_of_mem_parts

theorem cleaned_eq_iff {other : String} : cleaned path = cleaned other ↔ parts path = parts other :=
  ⟨fun h => by rw [← parts_cleaned path, h, parts_cleaned], fun h => by rw [cleaned, h, cleaned]⟩

theorem cleaned_eq_empty_iff : cleaned path = "" ↔ parts path = [] := by
  have hempty : cleaned "" = "" := by decide
  rw [← hempty, cleaned_eq_iff, parts_empty]

theorem cleaned_childPath (above : String) (h : IsPart name) :
    cleaned (childPath above name) = childPath (cleaned above) name := by
  have hparts : ∀ n ∈ parts above ++ [name], n ≠ "" := by
    intro n hn
    rcases List.mem_append.mp hn with hn | hn
    · exact (isPart_of_mem_parts hn).ne_empty
    · exact List.mem_singleton.mp hn ▸ h.ne_empty
  rw [cleaned, parts_childPath above h, ← foldl_childPath hparts, List.foldl_append,
    foldl_childPath fun n hn => hparts n (List.mem_append_left _ hn)]
  rfl

/-- The files that some paths name. -/
def filePaths (paths : List String) : List String := (paths.map cleaned).filter (· ≠ "")

theorem mem_filePaths : path ∈ filePaths paths ↔ ∃ p ∈ paths, cleaned p = path ∧ parts p ≠ [] := by
  rw [filePaths, List.mem_filter, List.mem_map]
  constructor
  · rintro ⟨⟨p, hp, rfl⟩, hne⟩
    exact ⟨p, hp, rfl, fun h => by simp [cleaned_eq_empty_iff.mpr h] at hne⟩
  · rintro ⟨p, hp, rfl, hne⟩
    exact ⟨⟨p, hp, rfl⟩, by simpa [cleaned_eq_empty_iff] using hne⟩

/-- No file is a folder on the way to another one. -/
def IsFlat (paths : List String) : Prop :=
  ∀ p ∈ filePaths paths, ∀ q ∈ filePaths paths, parts p <+: parts q → p = q

instance (paths : List String) : Decidable (IsFlat paths) :=
  inferInstanceAs (Decidable (∀ p ∈ _, ∀ q ∈ _, parts p <+: parts q → p = q))

theorem IsFlat.parts_eq (h : IsFlat paths) {p q : String} (hp : p ∈ paths) (hq : q ∈ paths)
    (hne : parts p ≠ []) (hpre : parts p <+: parts q) : parts p = parts q := by
  have hne' : parts q ≠ [] := fun hnil => hne (List.prefix_nil.mp (hnil ▸ hpre))
  refine cleaned_eq_iff.mp (h _ (mem_filePaths.mpr ⟨p, hp, rfl, hne⟩) _
    (mem_filePaths.mpr ⟨q, hq, rfl, hne'⟩) ?_)
  rwa [parts_cleaned, parts_cleaned]

/-! ## What nodes can be -/

/-- The node with an index is the root, one of the files, or a folder on the way to a file. -/
inductive Fits (paths : List String) (i : Nat) (n : TreeNode) : Prop
  | root (hi : i = FolderTree.root) (hname : n.name = "") (hkind : n.kind = .folder)
  | file (hi : i ≠ FolderTree.root) (hname : IsPart n.name) (hkind : n.kind = .file)
      (p : String) (hp : p ∈ paths) (hparts : parts n.path = parts p)
  | folder (hi : i ≠ FolderTree.root) (hname : IsPart n.name) (hkind : n.kind = .folder)
      (p : String) (hp : p ∈ paths) (hparts : parts n.path <+: parts p)
      (hproper : parts n.path ≠ parts p)

theorem Fits.of_children {children : List Nat} (h : Fits paths i n) :
    Fits paths i { n with children } := by
  cases h with
  | root hi hname hkind => exact .root hi hname hkind
  | file hi hname hkind p hp hparts => exact .file hi hname hkind p hp hparts
  | folder hi hname hkind p hp hparts hproper => exact .folder hi hname hkind p hp hparts hproper

/-- All nodes are what they can be. -/
def AllFit (paths : List String) (t : FolderTree) : Prop :=
  ∀ i n, t.node? i = some n → Fits paths i n

theorem AllFit.ensure (h : t.AllFit paths)
    (hnew : Fits paths t.size ⟨name, path, kind, some parent, []⟩) :
    (t.ensure path name kind parent).1.AllFit paths := by
  cases hindex : t.indexOf? path with
  | some k =>
    rw [ensure_of_some _ _ _ hindex]
    exact h
  | none =>
    intro i n hn
    rcases node?_ensure_cases hindex hn with ⟨rfl, rfl⟩ | ⟨old, hold, rfl⟩
    · exact hnew
    · exact (h i old hold).of_children

theorem IsSound.size_ne_root (h : t.IsSound) : t.size ≠ FolderTree.root := by
  obtain ⟨r, hr, -⟩ := h.root
  exact Nat.ne_of_gt (lt_size hr)

/-- The segments of a path lead through folders to a file. -/
theorem fits_descend (h : t.IsSound) (hfit : t.AllFit paths) (hparent : t.node? parent = some m)
    (hnames : ∀ n ∈ names, IsPart n) {p : String} (hp : p ∈ paths)
    (hparts : parts p = parts m.path ++ names) :
    (t.descend parent m.path names).1.AllFit paths := by
  induction names generalizing t parent m with
  | nil => exact hfit
  | cons name rest ih =>
    obtain ⟨hname, hrest⟩ := List.forall_mem_cons.mp hnames
    have hchild := parts_childPath m.path hname
    cases rest with
    | nil =>
      exact hfit.ensure (.file h.size_ne_root hname rfl p hp (hchild.trans hparts.symm))
    | cons next rest =>
      have hreach := reaches_ensure h hparent name .folder
      obtain ⟨folder, hfolder, hpath⟩ := hreach.path
      have hsplit : parts p = parts (childPath m.path name) ++ next :: rest := by
        rw [hchild, hparts, List.append_assoc]
        rfl
      have hnew : Fits paths t.size ⟨name, childPath m.path name, .folder, some parent, []⟩ := by
        refine .folder h.size_ne_root hname rfl p hp ?_ fun he => ?_
        · rw [hsplit]
          exact List.prefix_append _ _
        · rw [hsplit] at he
          simp at he
      rw [← hpath] at hsplit
      have hdown := ih hreach.sound (hfit.ensure hnew) hfolder hrest hsplit
      rw [hpath] at hdown
      exact hdown

theorem AllFit.insert (h : t.IsSound) (hfit : t.AllFit paths) (hp : path ∈ paths) :
    (t.insert path).1.AllFit paths := by
  obtain ⟨r, hr, -, hempty⟩ := h.root
  have hnames : ∀ n ∈ parts path, IsPart n := fun _ => isPart_of_mem_parts
  have hdown := fits_descend h hfit hr hnames hp (by rw [hempty, parts_empty, List.nil_append])
  rw [hempty] at hdown
  exact hdown

theorem AllFit.sortChildren (h : t.AllFit paths) : t.sortChildren.AllFit paths := by
  intro i n hn
  obtain ⟨old, hold, rfl⟩ := node?_sortChildren_eq_some.mp hn
  exact (h i old hold).of_children

/-! ## The trees of some paths -/

/-- A tree that has a node for each of some paths, and otherwise folders that lead there. -/
structure IsTreeOf (paths : List String) (t : FolderTree) : Prop where
  sound : t.IsSound
  fits : t.AllFit paths
  reached : ∀ p ∈ paths, ∃ i n, t.node? i = some n ∧ parts n.path = parts p

theorem allFit_empty (paths : List String) : empty.AllFit paths := by
  intro i n hn
  obtain ⟨rfl, rfl⟩ := node?_empty hn
  exact .root rfl rfl rfl

/-- Each path that is inserted gets its node, which stays. -/
theorem foldl_insert (h : t.IsSound) (hfit : t.AllFit paths) (more : List String)
    (hmore : ∀ p ∈ more, p ∈ paths) :
    let t' := more.foldl (fun t p => (t.insert p).1) t
    t'.IsSound ∧ t'.AllFit paths ∧ t.Retains t' ∧
      ∀ p ∈ more, ∃ i n, t'.node? i = some n ∧ parts n.path = parts p := by
  induction more generalizing t with
  | nil => exact ⟨h, hfit, .refl t, nofun⟩
  | cons p more ih =>
    have hreach := reaches_insert h p
    obtain ⟨hp, hrest⟩ := List.forall_mem_cons.mp hmore
    obtain ⟨hsound, hfits, hretains, hreached⟩ := ih hreach.sound (hfit.insert h hp) hrest
    refine ⟨hsound, hfits, hreach.retains.trans hretains, fun q hq => ?_⟩
    rcases List.mem_cons.mp hq with rfl | hq
    · obtain ⟨n, hn, hpath⟩ := hreach.path
      obtain ⟨children, hkept⟩ := hretains _ n hn
      exact ⟨_, _, hkept, by rw [hpath]; exact parts_cleaned q⟩
    · exact hreached q hq

theorem isTreeOf_ofPaths (paths : List String) : (ofPaths paths).IsTreeOf paths := by
  obtain ⟨hsound, hfits, -, hreached⟩ :=
    foldl_insert isSound_empty (allFit_empty paths) paths fun _ hp => hp
  refine ⟨hsound.sortChildren, hfits.sortChildren, fun p hp => ?_⟩
  obtain ⟨i, n, hn, hparts⟩ := hreached p hp
  exact ⟨i, _, node?_sortChildren_eq_some.mpr ⟨n, hn, rfl⟩, hparts⟩

namespace IsTreeOf

theorem isPart (h : t.IsTreeOf paths) (hn : t.node? i = some n) (hi : i ≠ FolderTree.root) :
    IsPart n.name := by
  cases h.fits i n hn with
  | root hroot => exact absurd hroot hi
  | file _ hname => exact hname
  | folder _ hname => exact hname

theorem parts_root (h : t.IsTreeOf paths) (hn : t.node? FolderTree.root = some n) :
    parts n.path = [] := by
  rw [(h.sound.path_eq_empty_iff hn).mpr rfl, parts_empty]

theorem name_root (h : t.IsTreeOf paths) (hn : t.node? FolderTree.root = some n) : n.name = "" := by
  cases h.fits _ n hn with
  | root _ hname => exact hname
  | file hi => exact absurd rfl hi
  | folder hi => exact absurd rfl hi

/-- A node other than the root is one segment below its parent. -/
theorem exists_parent (h : t.IsTreeOf paths) (hn : t.node? i = some n) (hi : i ≠ FolderTree.root) :
    ∃ j m, n.parent = some j ∧ j < i ∧ t.node? j = some m ∧ n.path = childPath m.path n.name ∧
      parts n.path = parts m.path ++ [n.name] := by
  obtain ⟨j, m, hparent, hlt, hm, hpath⟩ := h.sound.parent i n hn hi
  rw [← h.sound.childPath_eq hm] at hpath
  refine ⟨j, m, hparent, hlt, hm, hpath, ?_⟩
  rw [hpath, parts_childPath m.path (h.isPart hn hi)]

theorem parts_eq_nil_iff (h : t.IsTreeOf paths) (hn : t.node? i = some n) :
    parts n.path = [] ↔ i = FolderTree.root := by
  constructor
  · intro hnil
    by_contra hi
    obtain ⟨_, _, _, _, _, _, hparts⟩ := h.exists_parent hn hi
    simp [hnil] at hparts
  · rintro rfl
    exact h.parts_root hn

/-- The path of a node has no segments that do not count. -/
theorem cleaned_path (h : t.IsTreeOf paths) (hn : t.node? i = some n) :
    cleaned n.path = n.path := by
  induction i using Nat.strong_induction_on generalizing n with
  | _ i ih =>
    by_cases hi : i = FolderTree.root
    · rw [(h.sound.path_eq_empty_iff hn).mpr hi]
      decide
    · obtain ⟨j, m, _, hlt, hm, hpath, _⟩ := h.exists_parent hn hi
      rw [hpath, cleaned_childPath m.path (h.isPart hn hi), ih j hlt hm]

theorem path_eq_iff (h : t.IsTreeOf paths) {paths' : List String} {t' : FolderTree}
    (h' : t'.IsTreeOf paths') (hn : t.node? i = some n) (hm : t'.node? j = some m) :
    n.path = m.path ↔ parts n.path = parts m.path := by
  rw [← cleaned_eq_iff, h.cleaned_path hn, h'.cleaned_path hm]

theorem eq_of_parts (h : t.IsTreeOf paths) (hn : t.node? i = some n) (hm : t.node? j = some m)
    (hparts : parts n.path = parts m.path) : i = j :=
  h.sound.eq_of_path hn hm ((h.path_eq_iff h hn hm).mpr hparts)

/-- Every beginning of the path of a node has a node. -/
theorem exists_of_prefix (h : t.IsTreeOf paths) (hn : t.node? i = some n)
    (hpre : names <+: parts n.path) : ∃ j m, t.node? j = some m ∧ parts m.path = names := by
  induction i using Nat.strong_induction_on generalizing n with
  | _ i ih =>
    by_cases hi : i = FolderTree.root
    · rw [(h.parts_eq_nil_iff hn).mpr hi, List.prefix_nil] at hpre
      exact ⟨i, n, hn, by rw [hpre, (h.parts_eq_nil_iff hn).mpr hi]⟩
    · obtain ⟨j, m, _, hlt, hm, _, hparts⟩ := h.exists_parent hn hi
      rw [hparts] at hpre
      rcases List.prefix_concat_iff.mp hpre with hall | hpre
      · exact ⟨i, n, hn, by rw [hparts, hall]⟩
      · exact ih j hlt hm hpre

/-- The nodes with a parent are its children. -/
theorem mem_children_iff (h : t.IsTreeOf paths) (hn : t.node? i = some n) {c : Nat} :
    c ∈ n.children ↔ ∃ m, t.node? c = some m ∧ parts m.path = parts n.path ++ [m.name] := by
  rw [h.sound.children i n hn]
  refine exists_congr fun m => and_congr_right fun hm => ?_
  have hc : m.parent = some i ∨ parts m.path = parts n.path ++ [m.name] → c ≠ FolderTree.root := by
    rintro hcases rfl
    obtain ⟨r, hr, hnone, -⟩ := h.sound.root
    obtain rfl := Option.some.inj (hr.symm.trans hm)
    rcases hcases with hparent | hparts
    · exact nomatch hnone.symm.trans hparent
    · simp [h.parts_root hm] at hparts
  constructor
  · intro hparent
    obtain ⟨j, m', hj, _, hm', _, hparts⟩ := h.exists_parent hm (hc (Or.inl hparent))
    obtain rfl := Option.some.inj (hj.symm.trans hparent)
    obtain rfl := Option.some.inj (hm'.symm.trans hn)
    exact hparts
  · intro hparts
    obtain ⟨j, m', hj, _, hm', _, hparts'⟩ := h.exists_parent hm (hc (Or.inr hparts))
    have hsame : parts m'.path = parts n.path :=
      (List.append_inj_left' (hparts'.symm.trans hparts) rfl)
    rw [hj, h.eq_of_parts hm' hn hsame]

theorem lt_of_mem_children (h : t.IsTreeOf paths) (hn : t.node? i = some n) {c : Nat}
    (hc : c ∈ n.children) : i < c := by
  obtain ⟨m, hm, hparent⟩ := (h.sound.children i n hn c).mp hc
  by_cases hroot : c = FolderTree.root
  · obtain ⟨r, hr, hnone, -⟩ := h.sound.root
    obtain rfl := Option.some.inj (hr.symm.trans (hroot ▸ hm))
    exact nomatch hnone.symm.trans hparent
  · obtain ⟨j, _, hj, hlt, _⟩ := h.sound.parent c m hm hroot
    obtain rfl := Option.some.inj (hj.symm.trans hparent)
    exact hlt

/-- If no file is on the way to another one, then the files of the tree are those that are named. -/
theorem kind_eq_file_iff (h : t.IsTreeOf paths) (hflat : IsFlat paths) (hn : t.node? i = some n) :
    n.kind = .file ↔ n.path ∈ filePaths paths := by
  rw [mem_filePaths, ← h.cleaned_path hn]
  simp only [cleaned_eq_iff]
  cases h.fits i n hn with
  | root hi _ hkind =>
    refine iff_of_false (by simp [hkind]) ?_
    rintro ⟨p, _, hparts, hne⟩
    exact hne (hparts.trans ((h.parts_eq_nil_iff hn).mpr hi))
  | file hi hname hkind p hp hparts =>
    refine iff_of_true hkind ⟨p, hp, hparts.symm, fun hnil => hi ?_⟩
    exact (h.parts_eq_nil_iff hn).mp (hparts.trans hnil)
  | folder hi hname hkind p hp hparts hproper =>
    refine iff_of_false (by simp [hkind]) ?_
    rintro ⟨q, hq, hsame, hne⟩
    refine hproper ?_
    rw [← hsame] at hparts ⊢
    exact hflat.parts_eq hq hp hne hparts

/-- Every file that is named has a node. -/
theorem exists_of_mem_filePaths (h : t.IsTreeOf paths) (hpath : path ∈ filePaths paths) :
    ∃ i n, t.node? i = some n ∧ n.path = path := by
  obtain ⟨p, hp, rfl, _⟩ := mem_filePaths.mp hpath
  obtain ⟨i, n, hn, hparts⟩ := h.reached p hp
  exact ⟨i, n, hn, by rw [← h.cleaned_path hn, cleaned_eq_iff, hparts]⟩

end IsTreeOf

end SourceGraph.FolderTree
