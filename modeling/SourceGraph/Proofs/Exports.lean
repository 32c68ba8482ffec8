import SourceGraph.Proofs.Declarations

/-!
# Exports of script files

A file makes names visible to others by its exports: by what an export declares, by the names that
it lists, and by assignments to the exports of the module. The list of exports is put together from
marks of entities, and some of these are set by other rules: a field of a class that is a function
counts as exported unless its name starts with `#`, whether the class is exported or not.

* `Script.Assigns`, `Script.Lists`: the names that assignments and exports list.
* `Script.Exposes`: a construct of the file makes a name visible.
* `Script.HasPublicField`: a class of the file has a field that counts as exported.
* `Script.mem_exported_statement`: the names that a statement lists.
* `Script.exports_iff_exposed_or_field`: what the list of exports holds.
-/

set_option autoImplicit false

namespace SourceGraph.Script

open SyntaxTree

variable {source : List Char} {t root : SyntaxTree} {name : String}

/-! ## Visible names -/

/-- An assignment to the exports of the module makes a name visible. -/
inductive Assigns (source : List Char) (e : SyntaxTree) : String → Prop
  /-- `exports.name = …` or `module.exports.name = …` -/
  | property {left right : SyntaxTree} {name : String} (hleft : e.child? "left" = some left)
      (hright : e.child? "right" = some right)
      (htext : left.text source = "exports." ++ name ∨
        left.text source = "module.exports." ++ name) : Assigns source e name
  /-- `module.exports = name` -/
  | identifier {left right : SyntaxTree} (hleft : e.child? "left" = some left)
      (hright : e.child? "right" = some right) (htext : left.text source = "module.exports")
      (hkind : right.kind = "identifier") : Assigns source e (right.text source)
  /-- `module.exports = { name }` -/
  | shorthand {left right part : SyntaxTree} (hleft : e.child? "left" = some left)
      (hright : e.child? "right" = some right) (htext : left.text source = "module.exports")
      (hkind : right.kind = "object") (hpart : part ∈ right.namedChildren)
      (hshort : part.kind = "shorthand_property_identifier") : Assigns source e (part.text source)
  /-- `module.exports = { name: … }` -/
  | pair {left right part : SyntaxTree} {name : String} (hleft : e.child? "left" = some left)
      (hright : e.child? "right" = some right) (htext : left.text source = "module.exports")
      (hkind : right.kind = "object") (hpart : part ∈ right.namedChildren)
      (hpair : part.kind = "pair") (hkey : part.fieldText? "key" source = some name) :
      Assigns source e name

/-- A node is part of an export clause. -/
def IsSpecifier (t part : SyntaxTree) : Prop :=
  ∃ clause, t.childOfKind? "export_clause" = some clause ∧ part ∈ clause.namedChildren ∧
    part.kind = "export_specifier"

/-- An export without a declaration, or an assignment, lists a name. -/
inductive Lists (source : List Char) (t : SyntaxTree) : String → Prop
  /-- `export { name }` -/
  | clause {part : SyntaxTree} {name : String} (hkind : t.kind = "export_statement")
      (hsource : t.child? "source" = none) (hpart : IsSpecifier t part)
      (hname : part.fieldText? "name" source = some name) : Lists source t (unquote name)
  /-- `export default name` -/
  | identifier {value : SyntaxTree} (hkind : t.kind = "export_statement")
      (hsource : t.child? "source" = none) (hclause : t.childOfKind? "export_clause" = none)
      (hvalue : t.child? "value" = some value) (hname : value.kind = "identifier") :
      Lists source t (value.text source)
  /-- `export { … as name } from …` -/
  | reexport {module part : SyntaxTree} {name : String} (hkind : t.kind = "export_statement")
      (hsource : t.child? "source" = some module) (hpart : IsSpecifier t part)
      (hname : part.fieldText? "name" source = some name) :
      Lists source t (unquote ((part.fieldText? "alias" source).getD name))
  /-- `export * as name from …` -/
  | namespaceExport {module part nameNode : SyntaxTree} (hkind : t.kind = "export_statement")
      (hsource : t.child? "source" = some module)
      (hclause : t.childOfKind? "export_clause" = none)
      (hpart : t.childOfKind? "namespace_export" = some part)
      (hname : part.namedChild? = some nameNode) : Lists source t (nameNode.text source)
  /-- `exports.name = …` and the like -/
  | assignment {e : SyntaxTree} {name : String} (hkind : t.kind = "expression_statement")
      (he : t.namedChild? = some e) (hassign : e.kind = "assignment_expression")
      (hname : Assigns source e name) : Lists source t name

/-- A statement makes a name visible: it is an export that declares it, or it lists it. -/
def StatementExposes (source : List Char) (t : SyntaxTree) (name : String) : Prop :=
  (t.kind = "export_statement" ∧
      ∃ d ∈ statementDeclarations source (declaration t), d.head.name = name) ∨
    Lists source (declaration t) name

/-- A statement of the file makes a name visible. -/
def Exposes (source : List Char) (root : SyntaxTree) (name : String) : Prop :=
  ∃ t ∈ root.namedChildren, StatementExposes source t name

/-- A class that the file declares has a public field with a function as its value. -/
def HasPublicField (source : List Char) (root : SyntaxTree) (name : String) : Prop :=
  ∃ d ∈ declarations source root, ∃ o ∈ d.members, o.isPublicField = true ∧ o.name = name

/-- The file has no export, and no assignment to the exports of the module. -/
def ExportsNothing (source : List Char) (root : SyntaxTree) : Prop :=
  ∀ t ∈ root.namedChildren, t.kind ≠ "export_statement" ∧
    ∀ e, t.kind = "expression_statement" → t.namedChild? = some e →
      e.kind = "assignment_expression" → ∀ name, ¬ Assigns source e name

/-! ## Names in lists -/

theorem mem_assignedExports {e : SyntaxTree} :
    name ∈ assignedExports source e ↔ Assigns source e name := by
  constructor
  · intro h
    unfold assignedExports at h
    split at h
    · rename_i left right hleft hright
      dsimp only at h
      have hof : ∀ {start : String} {rest : List Char},
          Text.stripStart start.toList (left.text source).toList = some rest →
            left.text source = start ++ String.ofList rest := by
        intro start rest hrest
        rw [Text.stripStart_eq_some] at hrest
        exact String.toList_injective (by simpa using hrest)
      split at h
      · rw [List.mem_singleton.mp h]
        exact .property hleft hright (Or.inl (hof ‹_›))
      split at h
      · rw [List.mem_singleton.mp h]
        exact .property hleft hright (Or.inr (hof ‹_›))
      split at h
      · cases h
      rename_i htext
      have htext : left.text source = "module.exports" :=
        String.toList_injective (not_not.mp htext)
      split at h
      · rw [List.mem_singleton.mp h]
        exact .identifier hleft hright htext ‹_›
      split at h
      · obtain ⟨part, hpart, hname⟩ := List.mem_filterMap.mp h
        split at hname
        · cases hname
          exact .shorthand hleft hright htext ‹_› hpart ‹_›
        split at hname
        · exact .pair hleft hright htext ‹_› hpart ‹_› hname
        · cases hname
      · cases h
    · cases h
  · intro h
    cases h with
    | property hleft hright htext =>
      rcases htext with htext | htext
      · simp [assignedExports, hleft, hright, htext, Text.stripStart]
      · simp [assignedExports, hleft, hright, htext, Text.stripStart]
    | identifier hleft hright htext hkind =>
      simp [assignedExports, hleft, hright, htext, Text.stripStart, hkind]
    | shorthand hleft hright htext hkind hpart hshort =>
      simp only [assignedExports, hleft, hright, htext, hkind, Text.stripStart]
      exact List.mem_filterMap.mpr ⟨_, hpart, by rw [if_pos hshort]⟩
    | pair hleft hright htext hkind hpart hpair hkey =>
      simp only [assignedExports, hleft, hright, htext, hkind, Text.stripStart]
      exact List.mem_filterMap.mpr ⟨_, hpart, by rw [hpair]; exact hkey⟩

theorem mem_map_exportedNames {clause : SyntaxTree} {f : ImportedName → String}
    (hclause : t.childOfKind? "export_clause" = some clause) :
    name ∈ (exportedNames source clause).map f ↔ ∃ part text, IsSpecifier t part ∧
      part.fieldText? "name" source = some text ∧
      f ⟨unquote text, (part.fieldText? "alias" source).map unquote⟩ = name := by
  rw [List.mem_map]
  constructor
  · rintro ⟨n, hn, rfl⟩
    obtain ⟨part, hpart, hlisted⟩ := List.mem_filterMap.mp hn
    obtain ⟨hmem, hkind⟩ := List.mem_filter.mp hpart
    obtain ⟨text, htext, rfl⟩ := Option.map_eq_some_iff.mp hlisted
    exact ⟨part, text, ⟨clause, hclause, hmem, by simpa using hkind⟩, htext, rfl⟩
  · rintro ⟨part, text, ⟨clause', hclause', hmem, hkind⟩, htext, rfl⟩
    obtain rfl : clause' = clause := Option.some.inj (hclause'.symm.trans hclause)
    have hpart : part ∈ clause'.namedChildren.filter (·.kind == "export_specifier") :=
      List.mem_filter.mpr ⟨hmem, beq_iff_eq.mpr hkind⟩
    refine ⟨_, List.mem_filterMap.mpr ⟨part, hpart, ?_⟩, rfl⟩
    rw [listedName?, htext]
    rfl

theorem kind_of_requireSource? {module : String} (h : requireSource? source t = some module) :
    t.kind = "call_expression" := by
  unfold requireSource? at h
  by_contra hkind
  simp [hkind, guard] at h

theorem mem_exported_expression (hkind : t.kind = "expression_statement") :
    name ∈ (expression source t).exported ↔ Lists source t name := by
  unfold expression
  constructor
  · intro h
    split at h
    · cases h
    · rename_i e he
      split at h
      · cases h
      · dsimp only at h
        split at h
        · exact .assignment hkind he ‹_› (mem_assignedExports.mp h)
        · cases h
  · intro h
    cases h with
    | @assignment e _ _ he hassign hname =>
      rw [he]
      dsimp only
      split
      · rename_i hrequire
        rw [kind_of_requireSource? hrequire] at hassign
        exact absurd hassign (by decide)
      · rw [if_pos hassign]
        exact mem_assignedExports.mpr hname
    | _ hexport => exact absurd (hexport.symm.trans hkind) (by decide)

theorem mem_exported_reexport {module : SyntaxTree} (hkind : t.kind = "export_statement")
    (hsource : t.child? "source" = some module) :
    name ∈ (reexport source t module).exported ↔ Lists source t name := by
  have hvisible : ∀ (text : String) (renamed : Option String),
      (ImportedName.localName? ⟨unquote text, renamed.map unquote⟩).getD (unquote text) =
        unquote (renamed.getD text) := by
    intro text renamed
    cases renamed with
    | some other => rfl
    | none =>
      simp only [ImportedName.localName?, Option.map_none]
      split <;> rfl
  unfold reexport
  constructor
  · intro h
    cases hclause : t.childOfKind? "export_clause" with
    | some clause =>
      simp only [hclause] at h
      obtain ⟨part, text, hpart, htext, rfl⟩ := (mem_map_exportedNames hclause).mp h
      rw [hvisible]
      exact .reexport hkind hsource hpart htext
    | none =>
      simp only [hclause] at h
      split at h
      · rename_i nameNode hname
        obtain ⟨part, hpart, hname⟩ := Option.bind_eq_some_iff.mp hname
        rw [List.mem_singleton.mp h]
        exact .namespaceExport hkind hsource hclause hpart hname
      · cases h
  · intro h
    cases h with
    | clause _ hnone => cases hnone.symm.trans hsource
    | identifier _ hnone => cases hnone.symm.trans hsource
    | reexport _ _ hpart htext =>
      obtain ⟨clause, hclause, _⟩ := id hpart
      simp only [hclause]
      exact (mem_map_exportedNames hclause).mpr ⟨_, _, hpart, htext, hvisible _ _⟩
    | namespaceExport _ _ hclause hpart hname =>
      simp [hclause, hpart, hname, wholeAs]
    | assignment hexpression => exact absurd (hexpression.symm.trans hkind) (by decide)

theorem mem_exported_exportList (hkind : t.kind = "export_statement")
    (hsource : t.child? "source" = none) :
    name ∈ (exportList source t).exported ↔ Lists source t name := by
  unfold exportList
  constructor
  · intro h
    split at h
    · rename_i clause hclause
      obtain ⟨part, text, hpart, htext, rfl⟩ := (mem_map_exportedNames hclause).mp h
      exact .clause hkind hsource hpart htext
    · rename_i hclause
      cases hvalue : t.child? "value" with
      | none =>
        rw [hvalue] at h
        cases h
      | some value =>
        rw [hvalue, Option.elim_some] at h
        unfold defaultExport at h
        split at h
        · rw [List.mem_singleton.mp h]
          exact .identifier hkind hsource hclause hvalue ‹_›
        split at h
        · cases h
        split at h <;> cases h
  · intro h
    cases h with
    | clause _ _ hpart hname =>
      obtain ⟨clause, hclause, _⟩ := id hpart
      rw [hclause]
      exact (mem_map_exportedNames hclause).mpr ⟨_, _, hpart, hname, rfl⟩
    | identifier _ _ hclause hvalue hname =>
      simp [hclause, hvalue, defaultExport, hname]
    | reexport _ hmodule => cases hmodule.symm.trans hsource
    | namespaceExport _ hmodule => cases hmodule.symm.trans hsource
    | assignment hexpression => exact absurd (hexpression.symm.trans hkind) (by decide)

theorem not_lists (hexport : t.kind ≠ "export_statement")
    (hexpression : t.kind ≠ "expression_statement") : ¬ Lists source t name := by
  intro h
  cases h <;> contradiction

/-! ## Statements -/

theorem exported_concat (fs : List Findings) :
    (Findings.concat fs).exported = fs.flatMap (·.exported) := by
  induction fs with
  | nil => rfl
  | cons f fs ih =>
    rw [List.flatMap_cons, ← ih]
    rfl

theorem exported_importStatement : (importStatement source t).exported = [] := by
  fun_cases importStatement source t <;> rfl

theorem exported_boundVariables (isExported : Bool) :
    (boundVariables source isExported t).exported = [] := by
  rw [boundVariables, exported_concat, List.flatMap_map, List.flatMap_eq_nil_iff]
  intro n _
  unfold declarator
  cases n.child? "name" with
  | none => rfl
  | some nameNode =>
    dsimp only
    split
    · rfl
    split
    · rfl
    split
    · split <;> rfl
    split
    · rfl
    split
    · rfl
    split
    · rfl
    split <;> rfl

theorem mem_exported_unexported (isExported : Bool) (hexport : t.kind ≠ "export_statement") :
    name ∈ (statement source isExported t).exported ↔ Lists source t name := by
  by_cases hexpression : t.kind = "expression_statement"
  · rw [← mem_exported_expression hexpression]
    obtain ⟨kind, named, field, start, stop, children⟩ := t
    dsimp only at hexpression
    subst hexpression
    rw [statement]
    rfl
  · refine iff_of_false ?_ (not_lists hexport hexpression)
    obtain ⟨kind, named, field, start, stop, children⟩ := t
    rw [statement]
    dsimp only at hexport hexpression ⊢
    rw [if_neg hexport, if_neg hexpression]
    split
    · rw [exported_importStatement]
      exact List.not_mem_nil
    split
    · exact List.not_mem_nil
    split
    · exact List.not_mem_nil
    split
    · rw [exported_boundVariables]
      exact List.not_mem_nil
    split <;> exact List.not_mem_nil

theorem mem_exported_statement (isExported : Bool) (t : SyntaxTree) :
    name ∈ (statement source isExported t).exported ↔ Lists source (declaration t) name := by
  induction t using forall_of_children generalizing isExported with
  | h t ih =>
    by_cases hexport : t.kind = "export_statement"
    · rcases export_cases source isExported hexport with
        ⟨module, hsource, hself, hstatement⟩ | ⟨c, hc, hinner, _, hexported⟩ |
          ⟨hsource, hself, _, hexported⟩
      · rw [hself, hstatement]
        exact mem_exported_reexport hexport hsource
      · rw [hinner, hexported]
        exact ih c hc true
      · rw [hself, hexported]
        exact mem_exported_exportList hexport hsource
    · rw [declaration_of_ne hexport]
      exact mem_exported_unexported isExported hexport

/-! ## Files -/

theorem mem_exportsOf {es : List Entity} {names : List String} :
    name ∈ exportsOf (es.map (markExported names)) names ↔
      (∃ e ∈ es, (e.isExported && !e.kind.isMember) = true ∧ e.name = name) ∨ name ∈ names := by
  rw [exportsOf, List.mem_eraseDups, List.mem_append, List.mem_map]
  constructor
  · rintro (⟨e', he', rfl⟩ | h)
    · obtain ⟨hmem, hvisible⟩ := List.mem_filter.mp he'
      obtain ⟨e, he, rfl⟩ := List.mem_map.mp hmem
      unfold markExported at hvisible ⊢
      split at hvisible
      · -- an entity that is marked because of a list is on that list
        rename_i hmarked
        rw [if_pos hmarked]
        rw [Bool.and_eq_true, List.contains_iff_mem] at hmarked
        exact Or.inr hmarked.2
      · rename_i hmarked
        rw [if_neg hmarked]
        exact Or.inl ⟨e, he, hvisible, rfl⟩
    · exact Or.inr h
  · rintro (⟨e, he, hvisible, rfl⟩ | h)
    · refine Or.inl ⟨markExported names e, List.mem_filter.mpr ⟨List.mem_map_of_mem he, ?_⟩, ?_⟩
      · unfold markExported
        split <;> simp_all
      · unfold markExported
        split <;> rfl
    · exact Or.inr h

theorem exists_visible_iff (isExported : Bool) (t : SyntaxTree) :
    (∃ e ∈ (statement source isExported t).entities,
        (e.isExported && !e.kind.isMember) = true ∧ e.name = name) ↔
      ∃ d ∈ statementDeclarations source (declaration t),
        ((isExported || t.kind == "export_statement") = true ∧ d.head.name = name) ∨
          ∃ o ∈ d.members, o.isPublicField = true ∧ o.name = name := by
  have hmakes : List.Forall₂ (Makes source (isExported || t.kind == "export_statement")) _
    (statement source isExported t).entities := forall₂_statement isExported t
  constructor
  · rintro ⟨e, he, hvisible, rfl⟩
    obtain ⟨p, hp, hmade⟩ := exists_of_forall₂ hmakes he
    obtain ⟨d, hd, hp⟩ := List.mem_flatMap.mp hp
    rw [hmade.shown] at hvisible
    refine ⟨d, hd, ?_⟩
    rcases List.mem_cons.mp hp with rfl | hp
    · exact Or.inl ⟨hvisible, hmade.describes.name.symm⟩
    · obtain ⟨o, ho, rfl⟩ := List.mem_map.mp hp
      exact Or.inr ⟨o, ho, hvisible, hmade.describes.name.symm⟩
  · rintro ⟨d, hd, hcase⟩
    have hentity : ∀ p ∈ d.places,
        isShown (isExported || t.kind == "export_statement") p = true → p.2.name = name →
        ∃ e ∈ (statement source isExported t).entities,
          (e.isExported && !e.kind.isMember) = true ∧ e.name = name := by
      rintro p hp hshown rfl
      obtain ⟨e, he, hmade⟩ := exists_of_forall₂ hmakes.flip (List.mem_flatMap.mpr ⟨d, hd, hp⟩)
      exact ⟨e, he, hmade.shown.trans hshown, hmade.describes.name⟩
    rcases hcase with ⟨hexported, hname⟩ | ⟨o, ho, hpublic, hname⟩
    · exact hentity (none, d.head) List.mem_cons_self hexported hname
    · exact hentity (some d.head, o) (List.mem_cons_of_mem _ (List.mem_map_of_mem ho)) hpublic hname

theorem mem_exports_findings :
    name ∈ exportsOf ((findings source root).entities.map
        (markExported (findings source root).exported)) (findings source root).exported ↔
      Exposes source root name ∨ HasPublicField source root name := by
  rw [mem_exportsOf, findings, entities_concat, exported_concat]
  simp only [List.flatMap_map, List.mem_flatMap, mem_exported_statement]
  constructor
  · rintro (⟨e, ⟨t, ht, he⟩, hvisible, hname⟩ | ⟨t, ht, hlists⟩)
    · obtain ⟨d, hd, ⟨hexported, hhead⟩ | hfield⟩ :=
        (exists_visible_iff false t).mp ⟨e, he, hvisible, hname⟩
      · exact Or.inl ⟨t, ht, Or.inl ⟨by simpa using hexported, d, hd, hhead⟩⟩
      · exact Or.inr ⟨d, List.mem_flatMap.mpr ⟨t, ht, hd⟩, hfield⟩
    · exact Or.inl ⟨t, ht, Or.inr hlists⟩
  · have hvisible : ∀ t ∈ root.namedChildren, (∃ e ∈ (statement source false t).entities,
        (e.isExported && !e.kind.isMember) = true ∧ e.name = name) →
        ∃ e, (∃ t ∈ root.namedChildren, e ∈ (statement source false t).entities) ∧
          (e.isExported && !e.kind.isMember) = true ∧ e.name = name := by
      rintro t ht ⟨e, he, h⟩
      exact ⟨e, ⟨t, ht, he⟩, h⟩
    rintro (⟨t, ht, ⟨hkind, d, hd, hhead⟩ | hlists⟩ | ⟨d, hd, hfield⟩)
    · refine Or.inl (hvisible t ht ((exists_visible_iff false t).mpr ⟨d, hd, Or.inl ⟨?_, hhead⟩⟩))
      simp [hkind]
    · exact Or.inr ⟨t, ht, hlists⟩
    · obtain ⟨t, ht, hd⟩ := List.mem_flatMap.mp hd
      exact Or.inl (hvisible t ht ((exists_visible_iff false t).mpr ⟨d, hd, Or.inr hfield⟩))

theorem not_exposes (h : ExportsNothing source root) : ¬ Exposes source root name := by
  rintro ⟨t, ht, ⟨hexport, _⟩ | hlists⟩
  · exact (h t ht).1 hexport
  · rw [declaration_of_ne (h t ht).1] at hlists
    cases hlists with
    | assignment hkind he hassign hname => exact (h t ht).2 _ hkind he hassign _ hname
    | _ hkind => exact (h t ht).1 hkind

/--
The exports of a file are the names that its exports and its assignments to the exports of the
module make visible, and the public fields of its classes that are functions. All exports are made
visible by such a construct if and only if these fields are. If the file has no such construct, then
its list of exports is empty if and only if no class has such a field.
-/
theorem exports_iff_exposed_or_field (file : FileIdentity) (source : List Char)
    (root : SyntaxTree) :
    ∃ names, (artifact file source root).exports = some names ∧ names.Nodup ∧
      (∀ name, name ∈ names ↔ Exposes source root name ∨ HasPublicField source root name) ∧
      ((∀ name ∈ names, Exposes source root name) ↔
        ∀ name, HasPublicField source root name → Exposes source root name) ∧
      (ExportsNothing source root → (names = [] ↔ ∀ name, ¬ HasPublicField source root name)) := by
  refine ⟨_, rfl, nodup_eraseDups _, fun name => mem_exports_findings, ?_, fun hnothing => ?_⟩
  · constructor
    · exact fun h name hfield => h name (mem_exports_findings.mpr (Or.inr hfield))
    · intro h name hname
      exact (mem_exports_findings.mp hname).elim id (h name)
  · rw [List.eq_nil_iff_forall_not_mem]
    refine forall_congr' fun name => not_congr ?_
    exact mem_exports_findings.trans (or_iff_right (not_exposes hnothing))

/-- The syntax tree of a class on three lines with the field `f = () => g()`. -/
def stray : SyntaxTree :=
  ⟨"program", true, none, 0, 29, [⟨"class_declaration", true, none, 0, 28,
    [⟨"class", false, none, 0, 5, []⟩, ⟨"identifier", true, some "name", 6, 7, []⟩,
      ⟨"class_body", true, some "body", 8, 28, [⟨"field_definition", true, some "member", 12, 25,
        [⟨"property_identifier", true, some "property", 12, 13, []⟩,
          ⟨"arrow_function", true, some "value", 16, 25,
            [⟨"formal_parameters", true, some "parameters", 16, 18, []⟩,
              ⟨"call_expression", true, some "body", 22, 25,
                [⟨"identifier", true, some "function", 22, 23, []⟩]⟩]⟩]⟩]⟩]⟩]⟩

theorem exports_iff_exposed_or_field_stray :
    let text := "class C \x7b\n  f = () => g();\n\x7d\n".toList
    ExportsNothing text stray ∧ HasPublicField text stray "f" ∧
      ∃ names, (artifact default text stray).exports = some names ∧ names ≠ [] ∧ "f" ∈ names ∧
        ¬ ∀ name ∈ names, Exposes text stray name := by
  intro text
  have hnothing : ExportsNothing text stray := by
    intro t ht
    have hkind : t.kind = "class_declaration" := by
      rw [List.mem_singleton.mp ht]
    exact ⟨by rw [hkind]; decide, fun e h => absurd (hkind.symm.trans h) (by decide)⟩
  have hfield : HasPublicField text stray "f" := by
    have hany : ((declarations text stray).any fun d => d.members.any fun o =>
      o.isPublicField && o.name == "f") = true := by decide +kernel
    simpa [HasPublicField] using hany
  obtain ⟨names, hexports, _, hmem, hall, hempty⟩ :=
    exports_iff_exposed_or_field default text stray
  refine ⟨hnothing, hfield, names, hexports, ?_, (hmem "f").mpr (Or.inr hfield), ?_⟩
  · exact fun hnil => (hempty hnothing).mp hnil "f" hfield
  · exact fun h => not_exposes hnothing (hall.mp h "f" hfield)

end SourceGraph.Script
