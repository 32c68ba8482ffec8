import Mathlib.Data.Multiset.Basic
import Mathlib.Data.Option.Basic
import SourceGraph.Extract.Basic
import SourceGraph.Proofs.Linking

/-!
# One owner for each call

The description of a file starts many searches for calls, each below a node of its own, and no node
is searched twice: each call of the syntax tree is recorded once at most.

* `SyntaxTree.weight`: how often a call occurs in a tree.
* `SyntaxTree.part`, `SyntaxTree.part_add_part_le`: selections without a common child are parts of a
  node.
* `SyntaxTree.CallsAreNamed`: no call lies below an unnamed node, where no search looks.
* `Recording.count_flatMap`, `Recording.count_search_le`: what the parts of a file record.
* `Script.count_statement_le`, `Python.count_statement_le`: what a statement records.
* `Artifact.no_call_recorded_twice`: what a file records.
-/

set_option autoImplicit false

namespace SourceGraph

/-! ## Calls in a tree -/

namespace SyntaxTree

variable {f : SyntaxTree → Option CallSite} {c : CallSite} {sel sel' : SyntaxTree → Bool}
  {ts : List SyntaxTree} {t : SyntaxTree}

/-- How often a call occurs in a tree, if `f` tells which call a node is. -/
def weight (f : SyntaxTree → Option CallSite) (c : CallSite) (t : SyntaxTree) : Nat :=
  (t.preorder.filterMap f).count c

/-- How often a call occurs in some trees. -/
def weightAll (f : SyntaxTree → Option CallSite) (c : CallSite) (ts : List SyntaxTree) : Nat :=
  ((preorderAll ts).filterMap f).count c

/-- How often a call occurs in the selected ones of some trees. -/
def part (f : SyntaxTree → Option CallSite) (c : CallSite) (sel : SyntaxTree → Bool)
    (ts : List SyntaxTree) : Nat := weightAll f c (ts.filter sel)

theorem weightAll_cons : weightAll f c (t :: ts) = t.weight f c + weightAll f c ts := by
  rw [weightAll, preorderAll, List.filterMap_append, List.count_append, weight, weightAll]

theorem part_cons :
    part f c sel (t :: ts) = (if sel t then t.weight f c else 0) + part f c sel ts := by
  rw [part, List.filter_cons]
  split
  · exact weightAll_cons
  · exact (Nat.zero_add _).symm

theorem weightAll_children_le : weightAll f c t.children ≤ t.weight f c := by
  obtain ⟨kind, named, field, start, stop, children⟩ := t
  rw [weight, preorder, weightAll]
  exact ((List.sublist_cons_self _ _).filterMap f).count_le c

theorem weightAll_le_of_sublist {us : List SyntaxTree} (h : ts.Sublist us) :
    weightAll f c ts ≤ weightAll f c us := by
  induction h with
  | slnil => exact Nat.le_refl 0
  | cons u _ ih =>
    rw [weightAll_cons]
    omega
  | cons_cons u _ ih =>
    rw [weightAll_cons, weightAll_cons]
    omega

theorem part_le_weightAll : part f c sel ts ≤ weightAll f c ts :=
  weightAll_le_of_sublist List.filter_sublist

theorem part_le : part f c sel t.children ≤ t.weight f c :=
  part_le_weightAll.trans weightAll_children_le

/-- Two selections without a common tree are parts of both together. -/
theorem part_add_part_le (h : ∀ t ∈ ts, sel t = true → sel' t = false) :
    part f c sel ts + part f c sel' ts ≤ part f c (fun t => sel t || sel' t) ts := by
  induction ts with
  | nil => exact Nat.le_refl 0
  | cons t ts ih =>
    have hts := ih fun u hu => h u (List.mem_cons_of_mem _ hu)
    have ht := h t List.mem_cons_self
    rw [part_cons, part_cons, part_cons]
    cases hsel : sel t with
    | true =>
      rw [ht hsel]
      simp only [Bool.true_or, if_true, Bool.false_eq_true, if_false]
      omega
    | false =>
      simp only [Bool.false_or, Bool.false_eq_true, if_false]
      omega

theorem part_add_part_le_weight (h : ∀ n ∈ t.children, sel n = true → sel' n = false) :
    part f c sel t.children + part f c sel' t.children ≤ t.weight f c :=
  (part_add_part_le h).trans part_le

theorem three_parts_le_weight {sel'' : SyntaxTree → Bool}
    (h : ∀ n ∈ t.children, sel n = true → sel' n = false)
    (h' : ∀ n ∈ t.children, (sel n || sel' n) = true → sel'' n = false) :
    part f c sel t.children + part f c sel' t.children + part f c sel'' t.children ≤
      t.weight f c :=
  (Nat.add_le_add_right (part_add_part_le h) _).trans (part_add_part_le_weight h')

/-- A node fills one field. -/
theorem field_apart {x y : String} (h : x ≠ y) (n : SyntaxTree)
    (hx : (n.field == some x) = true) : (n.field == some y) = false := by
  rw [beq_iff_eq.mp hx]
  simpa using h

theorem weight_le_part_of_find? (h : ts.find? sel = some t) : t.weight f c ≤ part f c sel ts := by
  induction ts with
  | nil => cases h
  | cons u ts ih =>
    rw [part_cons]
    rw [List.find?_cons] at h
    split at h
    · rename_i hu
      cases h
      rw [if_pos hu]
      omega
    · have := ih h
      omega

/-- What is recorded below the first selected tree is below the selected ones. -/
theorem count_elim_find?_le {g : SyntaxTree → List CallSite}
    (hg : ∀ n, (g n).count c ≤ n.weight f c) :
    ((ts.find? sel).elim [] g).count c ≤ part f c sel ts := by
  cases h : ts.find? sel with
  | none => exact Nat.zero_le _
  | some n => exact (hg n).trans (weight_le_part_of_find? h)

theorem weight_child?_le {field : String} {child : SyntaxTree} (h : t.child? field = some child) :
    child.weight f c ≤ t.weight f c :=
  (weight_le_part_of_find? h).trans part_le

theorem count_flatMap_le {g : SyntaxTree → List CallSite}
    (h : ∀ n ∈ ts, (g n).count c ≤ n.weight f c) : (ts.flatMap g).count c ≤ weightAll f c ts := by
  induction ts with
  | nil => exact Nat.le_refl 0
  | cons n ts ih =>
    have hn := h n List.mem_cons_self
    have hts := ih fun m hm => h m (List.mem_cons_of_mem _ hm)
    rw [List.flatMap_cons, List.count_append, weightAll_cons]
    omega

theorem preorder_subset {n : SyntaxTree} (h : n ∈ t.children) : n.preorder ⊆ t.preorder := by
  obtain ⟨kind, named, field, start, stop, children⟩ := t
  have hall : ∀ ts : List SyntaxTree, n ∈ ts → n.preorder ⊆ preorderAll ts := by
    intro ts hts
    induction ts with
    | nil => cases hts
    | cons u ts ih =>
      rw [preorderAll]
      rcases List.mem_cons.mp hts with rfl | hts
      · exact List.subset_append_left _ _
      · exact List.Subset.trans (ih hts) (List.subset_append_right _ _)
  rw [preorder]
  exact List.Subset.trans (hall children h) (List.subset_cons_self _ _)

theorem self_mem_preorder (t : SyntaxTree) : t ∈ t.preorder := by
  obtain ⟨kind, named, field, start, stop, children⟩ := t
  exact List.mem_cons_self

/-- What parts of a file record, put together by `join`, is below the trees of the parts. -/
theorem size_foldr_le {α : Type} {join : α → α → α} {empty : α} (size : α → Nat)
    (hjoin : ∀ x y, size (join x y) = size x + size y) (hempty : size empty = 0)
    {found : SyntaxTree → α} (h : ∀ n ∈ ts, size (found n) ≤ n.weight f c) :
    size ((ts.map found).foldr join empty) ≤ weightAll f c ts := by
  induction ts with
  | nil => exact hempty.le
  | cons n ts ih =>
    have hn := h n List.mem_cons_self
    have hts := ih fun m hm => h m (List.mem_cons_of_mem _ hm)
    rw [List.map_cons, List.foldr_cons, hjoin, weightAll_cons]
    omega

mutual

theorem namedPreorder_sublist : ∀ t : SyntaxTree, t.namedPreorder.Sublist t.preorder
  | .mk _ _ _ _ _ children => by
    rw [namedPreorder, preorder]
    exact (namedPreorderAll_sublist children).cons_cons _

theorem namedPreorderAll_sublist :
    ∀ ts : List SyntaxTree, (namedPreorderAll ts).Sublist (preorderAll ts)
  | [] => .slnil
  | t :: ts => by
    rw [namedPreorderAll, preorderAll]
    split
    · exact (namedPreorder_sublist t).append (namedPreorderAll_sublist ts)
    · exact (namedPreorderAll_sublist ts).trans (List.sublist_append_right _ _)

end

theorem count_namedPreorder_le : (t.namedPreorder.filterMap f).count c ≤ t.weight f c :=
  ((namedPreorder_sublist t).filterMap f).count_le c

/-- What is found below the first child in a field is below the children in it. -/
theorem count_child?_le (field : String) :
    ((t.child? field).elim [] fun n => n.namedPreorder.filterMap f).count c ≤
      part f c (·.field == some field) t.children :=
  count_elim_find?_le fun _ => count_namedPreorder_le

/-- No call is an unnamed node below the root, or lies below one. -/
def CallsAreNamed (f : SyntaxTree → Option CallSite) (t : SyntaxTree) : Prop :=
  ∀ m ∈ t.preorder, ∀ u ∈ m.children, u.named = false → ∀ n ∈ u.preorder, f n = none

theorem CallsAreNamed.of_child {n : SyntaxTree} (h : t.CallsAreNamed f) (hn : n ∈ t.children) :
    n.CallsAreNamed f := fun m hm => h m (preorder_subset hn hm)

mutual

/-- If calls are named, the search through named nodes finds all of them. -/
theorem filterMap_namedPreorder :
    ∀ t : SyntaxTree, t.CallsAreNamed f → t.namedPreorder.filterMap f = t.preorder.filterMap f
  | .mk kind named field start stop children, h => by
    have hall := filterMap_namedPreorderAll children
      (fun u hu => h _ (self_mem_preorder _) u hu) fun u hu => h.of_child hu
    rw [namedPreorder, preorder, List.filterMap_cons, List.filterMap_cons, hall]

theorem filterMap_namedPreorderAll : ∀ ts : List SyntaxTree,
    (∀ u ∈ ts, u.named = false → ∀ n ∈ u.preorder, f n = none) → (∀ u ∈ ts, u.CallsAreNamed f) →
      (namedPreorderAll ts).filterMap f = (preorderAll ts).filterMap f
  | [], _, _ => rfl
  | t :: ts, hunnamed, h => by
    rw [List.forall_mem_cons] at hunnamed h
    rw [namedPreorderAll, preorderAll, List.filterMap_append,
      ← filterMap_namedPreorderAll ts hunnamed.2 h.2]
    split
    · rw [List.filterMap_append, filterMap_namedPreorder t h.1]
    · rename_i hnamed
      rw [List.filterMap_eq_nil_iff.mpr (hunnamed.1 (Bool.eq_false_iff.mpr hnamed)),
        List.nil_append]

end

end SyntaxTree

/-! ## Recorded calls -/

/-- A call without what it is bound to: its callee, its kind and its line. -/
def CallSite.unbound (c : CallSite) : CallSite := { c with definition := none }

namespace Recording

variable {c : CallSite} {bound : Nat}

/-- The calls of a recording, outside of entities and in them. -/
def recorded (r : Recording) : List CallSite := r.calls ++ r.entities.flatMap (·.calls)

theorem count_append (r s : Recording) :
    (r.append s).recorded.count c = r.recorded.count c + s.recorded.count c := by
  simp only [recorded, append, List.flatMap_append, List.count_append]
  omega

/-- The calls of recordings and of their entities, one recording after the other. -/
theorem count_flatMap (rs : List Recording) :
    (rs.flatMap (·.calls)).count c + ((rs.flatMap (·.entities)).flatMap (·.calls)).count c =
      (rs.flatMap recorded).count c := by
  induction rs with
  | nil => rfl
  | cons r rs ih =>
    simp only [List.flatMap_cons, List.flatMap_append, List.count_append, recorded] at ih ⊢
    omega

theorem count_calls_le {own : List CallSite} (h : own.count c ≤ bound) :
    (recorded { calls := own }).count c ≤ bound := by
  simpa [recorded] using h

/-- What a search through a node finds is below it. -/
theorem count_search_le {f : SyntaxTree → Option CallSite} {t : SyntaxTree} :
    (recorded { calls := t.namedPreorder.filterMap f }).count c ≤ t.weight f c :=
  count_calls_le SyntaxTree.count_namedPreorder_le

theorem count_entity_le {e : Entity} (h : e.calls.count c ≤ bound) :
    (recorded { entities := [e] }).count c ≤ bound := by
  simpa [recorded] using h

end Recording

namespace Artifact

variable {a : Artifact}

/-- The calls of a description, outside of entities and in them. -/
def recorded (a : Artifact) : List CallSite :=
  (a.moduleCalls ++ a.entities.flatMap (·.calls)).map CallSite.unbound

theorem recorded_resolve (builtins : List String) : (a.resolve builtins).recorded = a.recorded := by
  simp only [recorded, resolve, List.map_append, List.map_map, List.map_flatMap, List.flatMap_map,
    bindEntity]
  rfl

theorem recorded_withEntityIds : a.withEntityIds.recorded = a.recorded := by
  have hentities : a.withEntityIds.entities.map (·.calls) = a.entities.map (·.calls) := by
    rw [withEntityIds, List.map_map]
    change (a.entityIds.zip a.entities).map (Entity.calls ∘ Prod.snd) = _
    rw [← List.map_map, List.map_snd_zip (by rw [length_entityIds])]
  have hcalls : a.withEntityIds.entities.flatMap (·.calls) = a.entities.flatMap (·.calls) := by
    rw [List.flatMap_def, hentities, ← List.flatMap_def]
  rw [recorded, recorded, hcalls]
  rfl

end Artifact

/-! ## Script files -/

namespace Script

open SyntaxTree

variable {source : List Char} {c : CallSite} {t : SyntaxTree}

theorem count_concat_le {ts : List SyntaxTree} {found : SyntaxTree → Findings}
    (h : ∀ n ∈ ts, (found n).recorded.count c ≤ n.weight (callOf? source) c) :
    (Findings.concat (ts.map found)).recorded.count c ≤ weightAll (callOf? source) c ts :=
  size_foldr_le (fun f : Findings => f.recorded.count c)
    (fun _ _ => Recording.count_append _ _) rfl h

theorem count_decorators_le : ((t.childrenOf "decorator").flatMap (calls source)).count c ≤
    part (callOf? source) c (·.field == some "decorator") t.children :=
  count_flatMap_le fun _ _ => count_namedPreorder_le

/-- The functions of a class, of a variable and of the file have the calls of their body. -/
theorem count_body_le : (callsAt source t "body").count c ≤ t.weight (callOf? source) c :=
  (count_child?_le "body").trans part_le

theorem count_functionDeclaration_le (isExported : Bool) :
    ((functionDeclaration source isExported t).flatMap (·.calls)).count c ≤
      t.weight (callOf? source) c := by
  fun_cases functionDeclaration source isExported t
  · exact Nat.zero_le _
  · simpa using count_body_le

theorem count_method_le :
    ((method source t).flatMap (·.calls)).count c ≤ t.weight (callOf? source) c := by
  fun_cases method source t
  · exact Nat.zero_le _
  · simpa using count_body_le

theorem count_classField_le :
    (classField source t).recorded.count c ≤ t.weight (callOf? source) c := by
  unfold classField
  split
  · rename_i nameNode value hname hvalue
    refine le_trans ?_ (weight_child?_le hvalue)
    split
    · exact Recording.count_entity_le count_body_le
    · exact Recording.count_search_le
  · rename_i value hname hvalue
    refine le_trans ?_ (weight_child?_le hvalue)
    exact Recording.count_search_le
  · exact Nat.zero_le _

/-- What a member of a class records is below it. -/
theorem count_classMember_le :
    (classMember source t).recorded.count c ≤ t.weight (callOf? source) c := by
  fun_cases classMember source t
  · exact count_method_le
  · exact count_classField_le
  · exact Recording.count_search_le
  · exact Nat.zero_le _

/-- No `extends` clause stands where the body or a decorator of a class stands. -/
def HeritageApart (t : SyntaxTree) : Prop :=
  ∀ n ∈ t.preorder, n.kind = "class_heritage" →
    n.field ≠ some "body" ∧ n.field ≠ some "decorator"

theorem HeritageApart.of_mem {n : SyntaxTree} (h : HeritageApart t) (hn : n ∈ t.children) :
    HeritageApart n := fun m hm => h m (preorder_subset hn hm)

theorem count_classEntities_le (h : HeritageApart t) (fallback : Option String)
    (isExported : Bool) : ((classEntities source fallback isExported t).flatMap (·.calls)).count c ≤
      t.weight (callOf? source) c := by
  have hapart : ∀ n ∈ t.children, (n.kind == "class_heritage") = true →
      (n.field == some "decorator") = false ∧ (n.field == some "body") = false := by
    intro n hn hkind
    have hn := h.of_mem hn n n.self_mem_preorder (beq_iff_eq.mp hkind)
    simpa using hn.symm
  have hheritage : ((t.childOfKind? "class_heritage").elim [] (calls source)).count c ≤
      part (callOf? source) c (·.kind == "class_heritage") t.children :=
    count_elim_find?_le fun _ => count_namedPreorder_le
  have hdecorators : ((t.childrenOf "decorator").flatMap (calls source)).count c ≤ _ :=
    count_decorators_le
  have hbody : (((t.child? "body").elim [] fun body =>
      body.namedChildren.map (classMember source)).flatMap Recording.recorded).count c ≤
        part (callOf? source) c (·.field == some "body") t.children := by
    cases hchild : t.child? "body" with
    | none => exact Nat.zero_le _
    | some body =>
      refine le_trans ?_ (weight_le_part_of_find? hchild)
      rw [Option.elim_some, List.flatMap_map]
      exact (count_flatMap_le fun _ _ => count_classMember_le).trans part_le
  have hparts : part (callOf? source) c (·.kind == "class_heritage") t.children +
      part (callOf? source) c (·.field == some "decorator") t.children +
      part (callOf? source) c (·.field == some "body") t.children ≤
        t.weight (callOf? source) c := by
    refine three_parts_le_weight (fun n hn hsel => (hapart n hn hsel).1) fun n hn hsel => ?_
    rcases Bool.or_eq_true_iff.mp hsel with hsel | hsel
    · exact (hapart n hn hsel).2
    · exact field_apart (by decide) n hsel
  unfold classEntities
  split
  · exact Nat.zero_le _
  · rw [← Recording.count_flatMap] at hbody
    simp only [List.flatMap_cons, List.count_append]
    omega

theorem count_declarator_le (h : HeritageApart t) (keyword : String) (isExported : Bool) :
    (declarator source keyword isExported t).recorded.count c ≤ t.weight (callOf? source) c := by
  have hvalue {v : SyntaxTree} (hv : t.child? "value" = some v) : HeritageApart v :=
    h.of_mem (List.mem_of_find?_eq_some hv)
  unfold declarator
  split
  · exact Nat.zero_le _
  · cases hv : t.child? "value" with
    | none =>
      dsimp only [Option.bind_none, Option.elim_none]
      split
      · exact Nat.zero_le _
      · split <;> exact Nat.zero_le _
    | some v =>
      refine le_trans ?_ (weight_child?_le hv)
      dsimp only [Option.bind_some, Option.elim_some]
      split
      · exact Nat.zero_le _
      · split
        · exact Recording.count_search_le
        split
        · exact Recording.count_entity_le count_body_le
        split
        · exact Recording.count_entity_le count_body_le
        split
        · exact count_classEntities_le (hvalue hv) _ _
        split
        · exact Recording.count_search_le
        · exact Recording.count_search_le

theorem count_boundVariables_le (h : HeritageApart t) (isExported : Bool) :
    (boundVariables source isExported t).recorded.count c ≤ t.weight (callOf? source) c := by
  refine (count_concat_le fun n hn => count_declarator_le (h.of_mem ?_) _ _).trans
    (part_le_weightAll.trans part_le)
  exact (List.mem_filter.mp (List.mem_filter.mp hn).1).1

theorem count_expression_le :
    (expression source t).recorded.count c ≤ t.weight (callOf? source) c := by
  fun_cases expression source t
  · exact Nat.zero_le _
  · exact Nat.zero_le _
  · exact Recording.count_search_le

theorem count_defaultExport_le (h : HeritageApart t) :
    (defaultExport source t).recorded.count c ≤ t.weight (callOf? source) c := by
  fun_cases defaultExport source t
  · exact Nat.zero_le _
  · exact Recording.count_entity_le count_body_le
  · exact count_classEntities_le h _ _
  · exact Recording.count_search_le

theorem count_exportList_le (h : HeritageApart t) : (exportList source t).recorded.count c ≤
    part (callOf? source) c (·.field == some "value") t.children := by
  fun_cases exportList source t
  · exact Nat.zero_le _
  · cases hv : t.child? "value" with
    | none => exact Nat.zero_le _
    | some v =>
      have hapart := h.of_mem (List.mem_of_find?_eq_some hv)
      exact (count_defaultExport_le hapart).trans (weight_le_part_of_find? hv)

/-- The decorators of an export and what it exports stand in fields of their own. -/
theorem count_decorators_append_le {found : Findings} {field : String} (hne : "decorator" ≠ field)
    (hfound : found.recorded.count c ≤
      part (callOf? source) c (·.field == some field) t.children) :
    (Findings.append { calls := (t.childrenOf "decorator").flatMap (calls source) }
      found).recorded.count c ≤ t.weight (callOf? source) c := by
  have hdecorators : ((t.childrenOf "decorator").flatMap (calls source)).count c ≤ _ :=
    count_decorators_le
  have hparts : part (callOf? source) c (·.field == some "decorator") t.children +
      part (callOf? source) c (·.field == some field) t.children ≤ t.weight (callOf? source) c :=
    part_add_part_le_weight fun n _ => field_apart hne n
  calc _ = _ := Recording.count_append _ found.toRecording
    _ ≤ _ := Nat.add_le_add (Recording.count_calls_le hdecorators) hfound
    _ ≤ _ := hparts

theorem recorded_importStatement : (importStatement source t).recorded = [] := by
  fun_cases importStatement source t <;> rfl

mutual

/-- What a statement records is below it. -/
theorem count_statement_le (isExported : Bool) : ∀ t : SyntaxTree, HeritageApart t →
    (statement source isExported t).recorded.count c ≤ t.weight (callOf? source) c
  | .mk kind named field start stop children, h => by
    rw [statement]
    dsimp only
    split
    · rw [recorded_importStatement]
      exact Nat.zero_le _
    split
    · split
      · exact Nat.zero_le _
      · split
        · rename_i found hfound
          have hdeclared := count_declared_le children (fun n hn => h.of_mem hn) found hfound
          exact count_decorators_append_le (by decide) hdeclared
        · exact count_decorators_append_le (by decide) (count_exportList_le h)
    split
    · exact count_functionDeclaration_le isExported
    split
    · exact count_classEntities_le h none isExported
    split
    · exact count_boundVariables_le h isExported
    split
    · exact count_expression_le
    split
    · exact Nat.zero_le _
    · exact Recording.count_search_le

theorem count_declared_le : ∀ ts : List SyntaxTree, (∀ n ∈ ts, HeritageApart n) →
    ∀ found, declared? source ts = some found →
      found.recorded.count c ≤ part (callOf? source) c (·.field == some "declaration") ts
  | [], _, found, hfound => by cases hfound
  | t :: ts, h, found, hfound => by
    rw [part_cons]
    rw [declared?] at hfound
    split at hfound
    · rename_i hfield
      cases hfound
      have ht := count_statement_le true t (h t List.mem_cons_self)
      rw [if_pos hfield]
      omega
    · have hts := count_declared_le ts (fun n hn => h n (List.mem_cons_of_mem _ hn)) found hfound
      omega

end

theorem count_findings_le (h : HeritageApart t) :
    (findings source t).recorded.count c ≤ t.weight (callOf? source) c := by
  refine (count_concat_le fun n hn => count_statement_le false n (h.of_mem ?_)).trans part_le
  exact (List.mem_filter.mp hn).1

end Script

/-! ## Python files -/

namespace Python

open SyntaxTree

variable {source : List Char} {c : CallSite} {t : SyntaxTree}

/-- How often a call occurs in the decorators around a definition. -/
def decoratorWeight (source : List Char) (c : CallSite) (wrapper : Option SyntaxTree) : Nat :=
  wrapper.elim 0 fun w => part (callOf? source) c (·.kind == "decorator") w.children

theorem count_decorators_le (wrapper : Option SyntaxTree) :
    ((decoratorsOf wrapper).flatMap (calls source)).count c ≤ decoratorWeight source c wrapper := by
  cases wrapper with
  | none => exact Nat.zero_le _
  | some w =>
    refine (count_flatMap_le fun _ _ => count_namedPreorder_le).trans (weightAll_le_of_sublist ?_)
    exact List.filter_sublist.filter _

theorem count_functionEntity_le (inClass : Bool) (wrapper : Option SyntaxTree) :
    ((functionEntity source inClass wrapper t).flatMap (·.calls)).count c ≤
      decoratorWeight source c wrapper + t.weight (callOf? source) c := by
  have hdecorators : ((decoratorsOf wrapper).flatMap (calls source)).count c ≤
      decoratorWeight source c wrapper := count_decorators_le wrapper
  have hparameters : (callsAt source t "parameters").count c ≤ _ := count_child?_le "parameters"
  have hbody : (callsAt source t "body").count c ≤ _ := count_child?_le "body"
  have hparts : part (callOf? source) c (·.field == some "parameters") t.children +
      part (callOf? source) c (·.field == some "body") t.children ≤ t.weight (callOf? source) c :=
    part_add_part_le_weight fun n _ => field_apart (by decide) n
  unfold functionEntity
  split
  · exact Nat.zero_le _
  · simp only [List.flatMap_cons, List.flatMap_nil, List.append_nil, List.count_append]
    omega

/-- Whether a node is a definition that can have decorators. -/
def isDefinition (n : SyntaxTree) : Bool :=
  n.kind == "function_definition" || n.kind == "class_definition"

/-- A definition is none of its decorators. -/
theorem decorated_le_weight : decoratorWeight source c (some t) +
    part (callOf? source) c isDefinition t.children ≤ t.weight (callOf? source) c := by
  refine part_add_part_le_weight fun n _ hkind => ?_
  rw [isDefinition, beq_iff_eq.mp hkind]
  decide

theorem count_entities_cons (es : List Entity) (rest : List Recording) :
    ((({ entities := es } : Recording) :: rest).flatMap Recording.recorded).count c =
      (es.flatMap (·.calls)).count c + (rest.flatMap Recording.recorded).count c := by
  rw [List.flatMap_cons, List.count_append]
  rfl

mutual

/-- What a class records is below it and below its decorators. -/
theorem count_classEntities_le (wrapper : Option SyntaxTree) : ∀ t : SyntaxTree,
    ((classEntities source wrapper t).flatMap (·.calls)).count c ≤
      decoratorWeight source c wrapper + t.weight (callOf? source) c
  | .mk kind named field start stop children => by
    have hdecorators : ((decoratorsOf wrapper).flatMap (calls source)).count c ≤
        decoratorWeight source c wrapper := count_decorators_le wrapper
    have hmembers := count_bodyMembers_le children
    rw [← Recording.count_flatMap] at hmembers
    generalize ht : SyntaxTree.mk kind named field start stop children = t
    have hsuper : (callsAt source t "superclasses").count c ≤ _ := count_child?_le "superclasses"
    have hparts : part (callOf? source) c (·.field == some "superclasses") t.children +
        part (callOf? source) c (·.field == some "body") t.children ≤
          t.weight (callOf? source) c :=
      part_add_part_le_weight fun n _ => field_apart (by decide) n
    rw [← ht] at hsuper hparts ⊢
    rw [classEntities]
    dsimp only at hsuper hparts ⊢
    split
    · exact Nat.zero_le _
    · simp only [List.flatMap_cons, List.count_append]
      omega

theorem count_bodyMembers_le : ∀ ts : List SyntaxTree,
    ((bodyMembers source ts).flatMap Recording.recorded).count c ≤
      part (callOf? source) c (·.field == some "body") ts
  | [] => Nat.zero_le _
  | .mk kind named field start stop children :: ts => by
    rw [bodyMembers, part_cons]
    split
    · have hmembers := count_members_le children
      have hbelow : weightAll (callOf? source) c children ≤
          weight (callOf? source) c (.mk kind named field start stop children) :=
        weightAll_children_le (t := .mk kind named field start stop children)
      omega
    · have hts := count_bodyMembers_le ts
      omega

/-- What the statements in a class record is below them. -/
theorem count_members_le : ∀ ts : List SyntaxTree,
    ((members source ts).flatMap Recording.recorded).count c ≤ weightAll (callOf? source) c ts
  | [] => Nat.zero_le _
  | .mk kind named field start stop children :: ts => by
    have hts := count_members_le ts
    rw [members, weightAll_cons]
    split
    · omega
    split
    · rw [count_entities_cons]
      exact Nat.add_le_add ((count_functionEntity_le true none).trans (Nat.zero_add _).le) hts
    split
    · rw [count_entities_cons]
      have ht := count_decorated_le true (.mk kind named field start stop children) children
      exact Nat.add_le_add (ht.trans decorated_le_weight) hts
    split
    · rw [count_entities_cons]
      have ht := count_classEntities_le none (.mk kind named field start stop children)
      exact Nat.add_le_add (ht.trans (Nat.zero_add _).le) hts
    · rw [List.flatMap_cons, List.count_append]
      refine Nat.add_le_add ?_ hts
      exact Recording.count_search_le

/-- What a definition with decorators records is below these and below the definition. -/
theorem count_decorated_le (inClass : Bool) (wrapper : SyntaxTree) : ∀ ts : List SyntaxTree,
    ((decorated source inClass wrapper ts).flatMap (·.calls)).count c ≤
      decoratorWeight source c (some wrapper) + part (callOf? source) c isDefinition ts
  | [] => Nat.zero_le _
  | t :: ts => by
    rw [decorated, part_cons]
    split
    · split
      · rename_i hkind
        rw [if_pos (by simp [isDefinition, hkind])]
        exact (count_functionEntity_le inClass (some wrapper)).trans (by omega)
      split
      · rename_i hkind
        have ht := count_classEntities_le (some wrapper) t
        rw [if_pos (by simp [isDefinition, hkind])]
        omega
      · exact Nat.zero_le _
    · have hts := count_decorated_le inClass wrapper ts
      omega

end

theorem weight_assigned_le {a left right : SyntaxTree}
    (h : assignment? t = some (a, left, right)) :
    right.weight (callOf? source) c ≤ t.weight (callOf? source) c := by
  simp only [assignment?, Option.bind_eq_bind, Option.bind_eq_some_iff] at h
  obtain ⟨b, hb, -, -, l, -, -, -, r, hr, hsome⟩ := h
  cases hsome
  exact (weight_child?_le hr).trans ((weight_le_part_of_find? hb).trans part_le)

theorem count_expression_le :
    (expression source t).recorded.count c ≤ t.weight (callOf? source) c := by
  unfold expression
  split
  · exact Recording.count_search_le
  · rename_i a left right hassign
    have hright : (calls source right).count c ≤ t.weight (callOf? source) c :=
      count_namedPreorder_le.trans (weight_assigned_le hassign)
    dsimp only
    split
    · exact Nat.zero_le _
    split
    · exact Recording.count_entity_le hright
    split
    · exact Recording.count_entity_le hright
    · exact Recording.count_search_le

/-- What a statement records is below it. -/
theorem count_statement_le :
    (statement source t).recorded.count c ≤ t.weight (callOf? source) c := by
  unfold statement
  split
  · exact (count_functionEntity_le false none).trans (Nat.zero_add _).le
  split
  · exact (count_classEntities_le none t).trans (Nat.zero_add _).le
  split
  · exact (count_decorated_le false t t.children).trans decorated_le_weight
  split
  · exact count_expression_le
  split
  · exact Nat.zero_le _
  · exact Recording.count_search_le

theorem count_findings_le :
    (findings source t).recorded.count c ≤ t.weight (callOf? source) c :=
  (size_foldr_le (fun f : Findings => f.recorded.count c)
    (fun _ _ => Recording.count_append _ _) rfl fun _ _ => count_statement_le).trans part_le

end Python

/-! ## Whole files -/

/-- Calls of nodes are bound to nothing yet. -/
theorem map_unbound_filterMap {f : SyntaxTree → Option CallSite}
    (hf : ∀ n c, f n = some c → c.unbound = c) (ts : List SyntaxTree) :
    (ts.filterMap f).map CallSite.unbound = ts.filterMap f := by
  rw [List.map_filterMap]
  refine List.filterMap_congr fun n _ => ?_
  cases hn : f n with
  | none => rfl
  | some c => exact congrArg some (hf n c hn)

/-- The calls below a child are bound to nothing yet. -/
theorem map_unbound_elim {f : SyntaxTree → Option CallSite}
    (hf : ∀ n c, f n = some c → c.unbound = c) (child : Option SyntaxTree) :
    (child.elim [] fun n => n.namedPreorder.filterMap f).map CallSite.unbound =
      child.elim [] fun n => n.namedPreorder.filterMap f := by
  cases child with
  | none => rfl
  | some n => exact map_unbound_filterMap hf _

/-- Recorded calls are no more than those of the nodes of a tree. -/
theorem Artifact.recorded_le {a : Artifact} {found : List CallSite}
    {f : SyntaxTree → Option CallSite} {root : SyntaxTree}
    (ha : a.recorded = found.map CallSite.unbound)
    (hf : ∀ n c, f n = some c → c.unbound = c) (h : ∀ c, found.count c ≤ root.weight f c) :
    (a.recorded : Multiset CallSite) ≤ root.preorder.filterMap f := by
  obtain ⟨l, hperm, hsub⟩ := List.subperm_iff_count.mpr h
  rw [Multiset.coe_le, ha, ← map_unbound_filterMap hf]
  exact ⟨l.map _, hperm.map _, hsub.map _⟩

/-- Marks on entities, ids and the binding of calls leave the recorded calls alone. -/
theorem Artifact.recorded_of_marked {a : Artifact} {r : Recording} {mark : Entity → Entity}
    (builtins : List String) (hcalls : a.moduleCalls = r.calls)
    (hentities : a.entities = r.entities.map mark) (hmark : ∀ e, (mark e).calls = e.calls) :
    (a.withEntityIds.resolve builtins).recorded = r.recorded.map CallSite.unbound := by
  have hinside : a.entities.flatMap (·.calls) = r.entities.flatMap (·.calls) := by
    simp only [hentities, List.flatMap_map, hmark]
  rw [recorded_resolve, recorded_withEntityIds, recorded, hcalls, hinside, Recording.recorded]

theorem Script.recorded_artifact (file : FileIdentity) (source : List Char) (root : SyntaxTree) :
    (artifact file source root).recorded =
      (findings source root).recorded.map CallSite.unbound := by
  refine Artifact.recorded_of_marked _ rfl rfl fun e => ?_
  unfold markExported
  split <;> rfl

theorem Python.recorded_artifact (file : FileIdentity) (source : List Char) (root : SyntaxTree) :
    (artifact file source root).recorded =
      (findings source root).recorded.map CallSite.unbound := by
  unfold artifact describe
  split
  · refine Artifact.recorded_of_marked _ rfl rfl fun e => ?_
    unfold markListed
    split <;> rfl
  · exact Artifact.recorded_of_marked _ rfl (List.map_id _).symm fun _ => rfl

theorem Script.unbound_callOf? {source : List Char} (n : SyntaxTree) (c : CallSite)
    (h : callOf? source n = some c) : c.unbound = c := by
  unfold callOf? at h
  dsimp only at h
  split at h
  · obtain ⟨callee, -, rfl⟩ := Option.map_eq_some_iff.mp h
    rfl
  split at h
  · obtain ⟨callee, -, rfl⟩ := Option.map_eq_some_iff.mp h
    rfl
  · cases h

theorem Python.unbound_callOf? {source : List Char} (n : SyntaxTree) (c : CallSite)
    (h : callOf? source n = some c) : c.unbound = c := by
  unfold callOf? at h
  split at h
  · obtain ⟨callee, -, rfl⟩ := Option.map_eq_some_iff.mp h
    rfl
  · cases h

/--
Each call of a syntax tree is recorded once at most, outside of all entities or in one of them. A
search from the root passes over unnamed nodes; if no call lies there, nothing is recorded that the
search does not find.
-/
theorem Artifact.no_call_recorded_twice (file : FileIdentity) (source : List Char)
    (root : SyntaxTree) :
    (Script.HeritageApart root →
      ((Script.artifact file source root).recorded : Multiset CallSite) ≤
          root.preorder.filterMap (Script.callOf? source) ∧
        (root.CallsAreNamed (Script.callOf? source) →
          ((Script.artifact file source root).recorded : Multiset CallSite) ≤
            Script.calls source root)) ∧
    ((Python.artifact file source root).recorded : Multiset CallSite) ≤
        root.preorder.filterMap (Python.callOf? source) ∧
      (root.CallsAreNamed (Python.callOf? source) →
        ((Python.artifact file source root).recorded : Multiset CallSite) ≤
          Python.calls source root) := by
  refine ⟨fun h => ?_, ?_⟩
  · have hall := Artifact.recorded_le (Script.recorded_artifact file source root)
      Script.unbound_callOf? fun c => Script.count_findings_le h
    refine ⟨hall, fun hnamed => ?_⟩
    rw [Script.calls, SyntaxTree.filterMap_namedPreorder root hnamed]
    exact hall
  · have hall := Artifact.recorded_le (Python.recorded_artifact file source root)
      Python.unbound_callOf? fun c => Python.count_findings_le
    refine ⟨hall, fun hnamed => ?_⟩
    rw [Python.calls, SyntaxTree.filterMap_namedPreorder root hnamed]
    exact hall

/-- The syntax tree of `class A extends f() { m() { g() } }`. -/
def Script.derivedClass : SyntaxTree :=
  let call := fun start stop : Nat => (⟨"call_expression", true, none, start, stop,
    [⟨"identifier", true, some "function", start, start + 1, []⟩]⟩ : SyntaxTree)
  ⟨"program", true, none, 0, 35, [⟨"class_declaration", true, none, 0, 35,
    [⟨"class", false, none, 0, 5, []⟩, ⟨"identifier", true, some "name", 6, 7, []⟩,
      ⟨"class_heritage", true, none, 8, 19, [call 16 19]⟩,
      ⟨"class_body", true, some "body", 20, 35, [⟨"method_definition", true, none, 22, 33,
        [⟨"property_identifier", true, some "name", 22, 23, []⟩,
          ⟨"statement_block", true, some "body", 26, 33, [call 28 31]⟩]⟩]⟩]⟩]⟩

/-- The syntax tree of a function `h` with a decorator `d()`, which tests `g() not in s`. -/
def Python.decoratedFunction : SyntaxTree :=
  let call := fun start stop : Nat => (⟨"call", true, none, start, stop,
    [⟨"identifier", true, some "function", start, start + 1, []⟩]⟩ : SyntaxTree)
  ⟨"module", true, none, 0, 26, [⟨"decorated_definition", true, none, 0, 26,
    [⟨"decorator", true, none, 0, 4, [⟨"@", false, none, 0, 1, []⟩, call 1 4]⟩,
      ⟨"function_definition", true, some "definition", 5, 26,
        [⟨"identifier", true, some "name", 9, 10, []⟩,
          ⟨"block", true, some "body", 14, 26, [⟨"comparison_operator", true, none, 14, 26,
            [call 14 17, ⟨"not in", false, some "operators", 18, 24,
              [⟨"not", false, none, 18, 21, []⟩, ⟨"in", false, none, 22, 24, []⟩]⟩,
              ⟨"identifier", true, none, 25, 26, []⟩]⟩]⟩]⟩]⟩]⟩

theorem Artifact.no_call_recorded_twice_nested :
    let script := "class A extends f() \x7b m() \x7b g() \x7d \x7d".toList
    let python := "@d()\ndef h(): g() not in s".toList
    Script.HeritageApart Script.derivedClass ∧
    Script.derivedClass.CallsAreNamed (Script.callOf? script) ∧
    ((Script.artifact default script Script.derivedClass).recorded : Multiset CallSite) ≤
      Script.calls script Script.derivedClass ∧
    (Script.artifact default script Script.derivedClass).recorded.map (·.callee) = ["f", "g"] ∧
    Python.decoratedFunction.CallsAreNamed (Python.callOf? python) ∧
    ((Python.artifact default python Python.decoratedFunction).recorded : Multiset CallSite) ≤
      Python.calls python Python.decoratedFunction ∧
    (Python.artifact default python Python.decoratedFunction).recorded.map (·.callee) =
      ["d", "g"] := by
  intro script python
  have hapart : Script.HeritageApart Script.derivedClass := by
    unfold Script.HeritageApart
    decide +kernel
  have hscript : Script.derivedClass.CallsAreNamed (Script.callOf? script) := by
    unfold SyntaxTree.CallsAreNamed
    decide +kernel
  have hpython : Python.decoratedFunction.CallsAreNamed (Python.callOf? python) := by
    unfold SyntaxTree.CallsAreNamed
    decide +kernel
  exact ⟨hapart, hscript, ((no_call_recorded_twice _ _ _).1 hapart).2 hscript, by decide +kernel,
    hpython, (no_call_recorded_twice _ _ _).2.2 hpython, by decide +kernel⟩

end SourceGraph
