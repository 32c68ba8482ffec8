import SourceGraph.Proofs.CallOwners

/-!
# Declarations of script files

An entity of a script file is made from a node of the syntax tree: a function, a class, or a
variable without either. The list of these nodes says where each entity is written, in the order of
the entities.

* `Script.Origin`: the name of an entity, the node that it covers, and what it stands for.
* `Script.Declaration`: a declaration at the top of a file, with the members of a class.
* `Script.export_cases`: what an export is.
* `Script.places`: the origins of all entities of a file, those of members with their class.
* `Script.Describes`, `Script.exists_place`: every entity is made from its origin.
* `Script.Makes`: which entities count among the exports of the file by themselves.
* `Script.isIn_of_mem_places`: origins are nodes of the tree.
-/

set_option autoImplicit false

namespace SourceGraph

/-! ## Nodes of a tree -/

namespace SyntaxTree

variable {t n : SyntaxTree}

/-- What holds of a node whenever it holds of its children holds of all trees. -/
theorem forall_of_children {P : SyntaxTree → Prop} (h : ∀ t, (∀ c ∈ t.children, P c) → P t)
    (t : SyntaxTree) : P t :=
  h t fun c _ => forall_of_children h c
termination_by sizeOf t
decreasing_by
  rename_i hc
  obtain ⟨kind, named, field, start, stop, children⟩ := t
  have hlt : sizeOf c < sizeOf children := List.sizeOf_lt_of_mem hc
  simp only [mk.sizeOf_spec]
  omega

theorem mem_preorderAll {ts : List SyntaxTree} : n ∈ preorderAll ts ↔ ∃ t ∈ ts, n ∈ t.preorder := by
  induction ts with
  | nil => simp [preorderAll]
  | cons t ts ih => simp [preorderAll, ih]

/-- The nodes of a tree are its root and the nodes of its children. -/
theorem mem_preorder : n ∈ t.preorder ↔ n = t ∨ ∃ c ∈ t.children, n ∈ c.preorder := by
  obtain ⟨kind, named, field, start, stop, children⟩ := t
  rw [preorder, List.mem_cons, mem_preorderAll]

theorem mem_preorder_of_mem_children (h : n ∈ t.children) : n ∈ t.preorder :=
  preorder_subset h n.self_mem_preorder

theorem mem_preorder_of_child? {field : String} (h : t.child? field = some n) : n ∈ t.preorder :=
  mem_preorder_of_mem_children (List.mem_of_find?_eq_some h)

theorem mem_preorder_trans {m : SyntaxTree} (hn : n ∈ t.preorder) (hm : m ∈ n.preorder) :
    m ∈ t.preorder := by
  induction t using forall_of_children with
  | h t ih =>
    rcases mem_preorder.mp hn with rfl | ⟨c, hc, hn⟩
    · exact hm
    · exact preorder_subset hc (ih c hc hn)

end SyntaxTree

namespace Script

open SyntaxTree

variable {source : List Char} {t : SyntaxTree}

/-! ## Origins -/

/-- What an entity stands for. -/
inductive Role where
  | classDef
  /-- A function: the node that has its parameters and its body. -/
  | function (node : SyntaxTree)
  | constant

/-- Where an entity comes from. -/
structure Origin where
  name : String
  /-- The node whose lines the entity covers. -/
  site : SyntaxTree
  role : Role

/-- A function with a name of its own. -/
def functionOrigin? (source : List Char) (t : SyntaxTree) : Option Origin :=
  (t.fieldText? "name" source).map fun name => ⟨name, t, .function t⟩

/-- A field of a class whose value is a function. -/
def fieldOrigin? (source : List Char) (t : SyntaxTree) : Option Origin :=
  match (t.child? "name").or (t.child? "property"), t.child? "value" with
  | some name, some value =>
    if isCallable value.kind then some ⟨name.text source, t, .function value⟩ else none
  | _, _ => none

/-- A part of the body of a class. -/
def memberOrigin? (source : List Char) (t : SyntaxTree) : Option Origin :=
  if t.kind = "method_definition" then functionOrigin? source t
  else if t.kind = "public_field_definition" ∨ t.kind = "field_definition" then
    fieldOrigin? source t
  else none

/-! ## Declarations -/

/-- A declaration at the top of a file; a class has members. -/
structure Declaration where
  head : Origin
  members : List Origin := []

/-- A class; `fallback` names a class without a name. -/
def classDeclaration? (source : List Char) (fallback : Option String) (t : SyntaxTree) :
    Option Declaration :=
  ((t.fieldText? "name" source).or fallback).map fun name =>
    { head := ⟨name, t, .classDef⟩
      members := (t.child? "body").elim [] fun body =>
        body.namedChildren.filterMap (memberOrigin? source) }

/-- The kinds of values that make a variable a function. -/
def functionKinds : List String :=
  ["arrow_function", "function_expression", "function", "generator_function"]

/-- A variable: a function, a class or a constant. -/
def declaratorDeclaration? (source : List Char) (keyword : String) (t : SyntaxTree) :
    Option Declaration :=
  match t.child? "name" with
  | none => none
  | some nameNode =>
    let name := nameNode.text source
    let constant? := if keyword = "const" then some { head := ⟨name, t, .constant⟩ } else none
    if nameNode.kind ≠ "identifier" then none
    else
      match t.child? "value" with
      | none => constant?
      | some v =>
        if (requireSource? source v).isSome then none
        else if v.kind ∈ functionKinds then some { head := ⟨name, t, .function v⟩ }
        else if v.kind = "class" then classDeclaration? source (some name) v
        else constant?

/-- The value of a default export: a function or a class. -/
def defaultDeclaration? (source : List Char) (value : SyntaxTree) : Option Declaration :=
  if isCallable value.kind then some { head := ⟨"default", value, .function value⟩ }
  else if value.kind = "class" then classDeclaration? source (some "default") value
  else none

mutual

/-- The declaration in an export, however deep; any other statement is one itself. -/
def declaration : SyntaxTree → SyntaxTree
  | .mk kind named field start stop children =>
    let t : SyntaxTree := .mk kind named field start stop children
    if kind = "export_statement" ∧ (t.child? "source").isNone then
      (declarationAmong? children).getD t
    else t

/-- The declaration in the first node that fills the field `declaration`. -/
def declarationAmong? : List SyntaxTree → Option SyntaxTree
  | [] => none
  | t :: ts =>
    if t.field == some "declaration" then some (declaration t) else declarationAmong? ts

end

theorem declarationAmong?_eq (ts : List SyntaxTree) : declarationAmong? ts =
    (ts.find? (·.field == some "declaration")).map declaration := by
  induction ts with
  | nil => rfl
  | cons t ts ih =>
    rw [declarationAmong?, List.find?_cons]
    cases t.field == some "declaration" with
    | true => rfl
    | false => exact ih

theorem declared?_eq (ts : List SyntaxTree) : declared? source ts =
    (ts.find? (·.field == some "declaration")).map (statement source true) := by
  induction ts with
  | nil => rfl
  | cons t ts ih =>
    rw [declared?, List.find?_cons]
    cases t.field == some "declaration" with
    | true => rfl
    | false => exact ih

theorem declaration_of_ne (h : t.kind ≠ "export_statement") : declaration t = t := by
  obtain ⟨kind, named, field, start, stop, children⟩ := t
  rw [declaration, if_neg fun hexport => h hexport.1]

/--
An export is of names of another module, of a declaration that stands in it, or of names of the file
and values. An export of a declaration has the entities and names of that declaration.
-/
theorem export_cases (source : List Char) (isExported : Bool) (h : t.kind = "export_statement") :
    (∃ module, t.child? "source" = some module ∧ declaration t = t ∧
      statement source isExported t = reexport source t module) ∨
    (∃ c ∈ t.children, declaration t = declaration c ∧
      (statement source isExported t).entities = (statement source true c).entities ∧
      (statement source isExported t).exported = (statement source true c).exported) ∨
    (t.child? "source" = none ∧ declaration t = t ∧
      (statement source isExported t).entities = (exportList source t).entities ∧
      (statement source isExported t).exported = (exportList source t).exported) := by
  obtain ⟨kind, named, field, start, stop, children⟩ := t
  dsimp only at h
  subst h
  have himport : "export_statement" ≠ "import_statement" := by decide
  rw [statement, if_neg himport, if_pos (Eq.refl "export_statement"), declared?_eq, declaration,
    declarationAmong?_eq]
  generalize ht : SyntaxTree.mk "export_statement" named field start stop children = t
  cases hsource : t.child? "source" with
  | some module => exact Or.inl ⟨module, rfl, if_neg (by simp), rfl⟩
  | none =>
    rw [if_pos (by simp)]
    cases hfound : children.find? (·.field == some "declaration") with
    | none => exact Or.inr (Or.inr ⟨rfl, rfl, rfl, rfl⟩)
    | some c =>
      have hc : c ∈ t.children := by
        rw [← ht]
        exact List.mem_of_find?_eq_some hfound
      exact Or.inr (Or.inl ⟨c, hc, rfl, rfl, rfl⟩)

/-- What a statement declares. -/
def statementDeclarations (source : List Char) (t : SyntaxTree) : List Declaration :=
  if t.kind = "export_statement" then
    if (t.child? "source").isSome ∨ (t.childOfKind? "export_clause").isSome then []
    else ((t.child? "value").bind (defaultDeclaration? source)).toList
  else if t.kind = "function_declaration" ∨ t.kind = "generator_function_declaration" then
    ((functionOrigin? source t).map fun o => { head := o }).toList
  else if t.kind = "class_declaration" ∨ t.kind = "abstract_class_declaration" then
    (classDeclaration? source none t).toList
  else if t.kind = "lexical_declaration" ∨ t.kind = "variable_declaration" then
    (t.namedChildren.filter (·.kind == "variable_declarator")).filterMap
      (declaratorDeclaration? source ((t.fieldText? "kind" source).getD "var"))
  else []

/-- What the statements of a file declare. -/
def declarations (source : List Char) (root : SyntaxTree) : List Declaration :=
  root.namedChildren.flatMap fun t => statementDeclarations source (declaration t)

/-- The origins of a declaration; those of members with their class. -/
def Declaration.places (d : Declaration) : List (Option Origin × Origin) :=
  (none, d.head) :: d.members.map (some d.head, ·)

/-- The origins of all entities of a file in their order; those of members with their class. -/
def places (source : List Char) (root : SyntaxTree) : List (Option Origin × Origin) :=
  (declarations source root).flatMap Declaration.places

/-! ## Entities -/

/-- Whether an entity is what its origin stands for. -/
def Role.Fits (source : List Char) (e : Entity) : Role → Prop
  | .classDef => e.kind = .classDef
  | .function f => e.kind ≠ .classDef ∧ e.calls.map CallSite.unbound = callsAt source f "body"
  | .constant => e.kind = .const

/-- An entity is made from an origin. -/
structure Describes (source : List Char) (o : Origin) (e : Entity) : Prop where
  name : e.name = o.name
  span : e.span = o.site.span source
  role : o.role.Fits source e

/-- A member of a class that is a field without a `#`. -/
def Origin.isPublicField (o : Origin) : Bool :=
  o.site.kind != "method_definition" && !Text.begins "#" o.name

/--
Whether the entity of an origin counts among the exports by itself. A declaration does if it stands
in an export, a member of any class if it is a public field.
-/
def isShown (isExported : Bool) (p : Option Origin × Origin) : Bool :=
  p.1.elim isExported fun _ => p.2.isPublicField

/-- An entity is made from an origin of a declaration that stands in an export or not. -/
structure Makes (source : List Char) (isExported : Bool) (p : Option Origin × Origin)
    (e : Entity) : Prop where
  describes : Describes source p.2 e
  shown : (e.isExported && !e.kind.isMember) = isShown isExported p

theorem map_unbound_callsAt (field : String) :
    (callsAt source t field).map CallSite.unbound = callsAt source t field :=
  map_unbound_elim unbound_callOf? (t.child? field)

/-- A function that is the value of something is no class and no member. -/
theorem makes_callableValue {site v : SyntaxTree} {cls : Option Origin} {name : String}
    {kind : EntityKind} (lead : String) {isExported flag : Bool}
    (hkind : kind = .arrow ∨ kind = .function)
    (hflag : flag = isShown isExported (cls, ⟨name, site, .function v⟩)) :
    Makes source isExported (cls, ⟨name, site, .function v⟩)
      (callableValue source name kind lead flag (site.span source) v) := by
  have hclass : kind ≠ .classDef := by rcases hkind with rfl | rfl <;> decide
  refine ⟨⟨rfl, rfl, ⟨hclass, map_unbound_callsAt "body"⟩⟩, ?_⟩
  rw [← hflag]
  rcases hkind with rfl | rfl <;> exact Bool.and_true _

theorem callableKind_cases (kind : String) :
    callableKind kind = .arrow ∨ callableKind kind = .function := by
  unfold callableKind
  split
  · exact Or.inl rfl
  · exact Or.inr rfl

section Members

variable {cls : Origin} {isExported : Bool}

/-- A method is a member. -/
theorem forall₂_method (hmethod : t.kind = "method_definition") :
    List.Forall₂ (fun o e => Makes source isExported (some cls, o) e)
      (functionOrigin? source t).toList (method source t) := by
  unfold functionOrigin?
  fun_cases method source t
  · rename_i hname
    rw [hname]
    exact .nil
  · rename_i name hname kind accessor hkind isAsync signature
    have hmember : kind.isMember = true := by
      split_ifs at hkind <;> cases hkind <;> rfl
    have hclass : kind ≠ .classDef := by
      rintro rfl
      cases hmember
    rw [hname]
    refine .cons ⟨⟨rfl, rfl, ⟨hclass, map_unbound_callsAt "body"⟩⟩, ?_⟩ .nil
    simp [hmember, isShown, Origin.isPublicField, hmethod]

theorem forall₂_classMember :
    List.Forall₂ (fun o e => Makes source isExported (some cls, o) e)
      (memberOrigin? source t).toList (classMember source t).entities := by
  unfold memberOrigin? classMember
  split
  · rename_i hmethod
    exact forall₂_method hmethod
  split
  · rename_i hmethod _
    unfold fieldOrigin? classField
    cases (t.child? "name").or (t.child? "property") with
    | none => cases t.child? "value" <;> exact .nil
    | some nameNode =>
      cases t.child? "value" with
      | none => exact .nil
      | some value =>
        dsimp only
        split
        · refine .cons (makes_callableValue _ (callableKind_cases _) ?_) .nil
          simp [isShown, Origin.isPublicField, hmethod]
        · exact .nil
  split <;> exact .nil

end Members

/-- Lists that are put together from parts correspond if their parts do. -/
theorem forall₂_flatMap {α β γ : Type} {R : β → γ → Prop} {f : α → List β} {g : α → List γ}
    (h : ∀ x, List.Forall₂ R (f x) (g x)) (xs : List α) :
    List.Forall₂ R (xs.flatMap f) (xs.flatMap g) := by
  induction xs with
  | nil => exact .nil
  | cons x xs ih =>
    rw [List.flatMap_cons, List.flatMap_cons]
    exact List.rel_append (h x) ih

theorem forall₂_classEntities (fallback : Option String) (isExported : Bool) :
    List.Forall₂ (Makes source isExported)
      ((classDeclaration? source fallback t).toList.flatMap Declaration.places)
      (classEntities source fallback isExported t) := by
  unfold classDeclaration? classEntities
  cases (t.fieldText? "name" source).or fallback with
  | none => exact .nil
  | some name =>
    rw [Option.map_some, Option.toList_some, List.flatMap_singleton, Declaration.places]
    refine .cons ⟨⟨rfl, rfl, rfl⟩, Bool.and_true _⟩ ?_
    rw [List.forall₂_map_left_iff]
    cases t.child? "body" with
    | none => exact .nil
    | some body =>
      rw [Option.elim_some, Option.elim_some, List.flatMap_map, List.filterMap_eq_flatMap_toList]
      exact forall₂_flatMap (fun n => forall₂_classMember) _

theorem forall₂_head {o : Origin} {e : Entity} {isExported : Bool}
    (h : Makes source isExported (none, o) e) :
    List.Forall₂ (Makes source isExported)
      ((some ({ head := o } : Declaration)).toList.flatMap Declaration.places) [e] :=
  .cons h .nil

theorem forall₂_functionDeclaration (isExported : Bool) :
    List.Forall₂ (Makes source isExported)
      (((functionOrigin? source t).map fun o => ({ head := o } : Declaration)).toList.flatMap
        Declaration.places)
      (functionDeclaration source isExported t) := by
  unfold functionOrigin? functionDeclaration
  cases t.fieldText? "name" source with
  | none => exact .nil
  | some name =>
    exact forall₂_head ⟨⟨rfl, rfl, ⟨by simp, map_unbound_callsAt "body"⟩⟩, Bool.and_true _⟩

theorem forall₂_declarator (keyword : String) (isExported : Bool) :
    List.Forall₂ (Makes source isExported)
      ((declaratorDeclaration? source keyword t).toList.flatMap Declaration.places)
      (declarator source keyword isExported t).entities := by
  unfold declaratorDeclaration? declarator
  cases t.child? "name" with
  | none => exact .nil
  | some nameNode =>
    cases hv : t.child? "value" with
    | none =>
      dsimp only [Option.bind_none]
      split
      · exact .nil
      split
      · exact forall₂_head ⟨⟨rfl, rfl, rfl⟩, Bool.and_true _⟩
      · exact .nil
    | some v =>
      dsimp only [Option.bind_some]
      cases requireSource? source v with
      | some module =>
        dsimp only
        split
        · exact .nil
        · exact .nil
      | none =>
        dsimp only [Option.isSome_none]
        rw [if_neg Bool.false_ne_true]
        split
        · exact .nil
        by_cases harrow : v.kind = "arrow_function"
        · rw [if_pos (by simp [harrow, functionKinds]), if_pos harrow]
          exact forall₂_head (makes_callableValue _ (Or.inl rfl) rfl)
        rw [if_neg harrow]
        by_cases hfunction : v.kind = "function_expression" ∨ v.kind = "function" ∨
            v.kind = "generator_function"
        · rw [if_pos (by simpa [functionKinds] using Or.inr hfunction), if_pos hfunction]
          exact forall₂_head (makes_callableValue _ (Or.inr rfl) rfl)
        rw [if_neg (by simpa [functionKinds, harrow] using hfunction), if_neg hfunction]
        split
        · exact forall₂_classEntities _ _
        split
        · exact forall₂_head ⟨⟨rfl, rfl, rfl⟩, Bool.and_true _⟩
        · exact .nil

theorem entities_concat (fs : List Findings) :
    (Findings.concat fs).entities = fs.flatMap (·.entities) := by
  induction fs with
  | nil => rfl
  | cons f fs ih =>
    rw [List.flatMap_cons, ← ih]
    rfl

theorem forall₂_boundVariables (isExported : Bool) :
    List.Forall₂ (Makes source isExported)
      (((t.namedChildren.filter (·.kind == "variable_declarator")).filterMap
        (declaratorDeclaration? source ((t.fieldText? "kind" source).getD "var"))).flatMap
          Declaration.places)
      (boundVariables source isExported t).entities := by
  rw [boundVariables, entities_concat, List.flatMap_map, List.filterMap_eq_flatMap_toList,
    List.flatMap_assoc]
  exact forall₂_flatMap (fun n => forall₂_declarator _ _) _

theorem forall₂_exportList :
    List.Forall₂ (Makes source true)
      ((if (t.childOfKind? "export_clause").isSome then []
        else ((t.child? "value").bind (defaultDeclaration? source)).toList).flatMap
          Declaration.places)
      (exportList source t).entities := by
  unfold exportList
  cases t.childOfKind? "export_clause" with
  | some clause => exact .nil
  | none =>
    cases t.child? "value" with
    | none => exact .nil
    | some value =>
      dsimp only [Option.isSome_none, Option.bind_some, Option.elim_some]
      rw [if_neg Bool.false_ne_true]
      unfold defaultDeclaration? defaultExport
      by_cases hname : value.kind = "identifier"
      · rw [if_pos hname, hname]
        exact .nil
      rw [if_neg hname]
      split
      · exact forall₂_head (makes_callableValue _ (callableKind_cases _) rfl)
      split
      · exact forall₂_classEntities _ _
      · exact .nil

theorem entities_importStatement : (importStatement source t).entities = [] := by
  fun_cases importStatement source t <;> rfl

theorem forall₂_unexported (isExported : Bool) (hexport : t.kind ≠ "export_statement") :
    List.Forall₂ (Makes source isExported)
      ((statementDeclarations source t).flatMap Declaration.places)
      (statement source isExported t).entities := by
  obtain ⟨kind, named, field, start, stop, children⟩ := t
  rw [statement, statementDeclarations, if_neg hexport]
  dsimp only at hexport ⊢
  by_cases himport : kind = "import_statement"
  · rw [if_pos himport]
    subst himport
    rw [if_neg (by decide), if_neg (by decide), if_neg (by decide), entities_importStatement]
    exact .nil
  · rw [if_neg himport, if_neg hexport]
    split
    · exact forall₂_functionDeclaration isExported
    split
    · exact forall₂_classEntities none isExported
    split
    · exact forall₂_boundVariables isExported
    split
    · unfold expression
      split
      · exact .nil
      · split <;> exact .nil
    split <;> exact .nil

/-- The entities of a statement are made from what it declares. -/
theorem forall₂_statement (isExported : Bool) (t : SyntaxTree) :
    List.Forall₂ (Makes source (isExported || t.kind == "export_statement"))
      ((statementDeclarations source (declaration t)).flatMap Declaration.places)
      (statement source isExported t).entities := by
  induction t using forall_of_children generalizing isExported with
  | h t ih =>
    by_cases hexport : t.kind = "export_statement"
    · rw [hexport, beq_self_eq_true, Bool.or_true]
      rcases export_cases source isExported hexport with
        ⟨module, hsource, hself, hstatement⟩ | ⟨c, hc, hinner, hentities, _⟩ |
          ⟨hsource, hself, hentities, _⟩
      · rw [hself, hstatement, statementDeclarations, if_pos hexport, hsource]
        exact .nil
      · rw [hinner, hentities]
        exact ih c hc true
      · rw [hself, hentities, statementDeclarations, if_pos hexport, hsource]
        simp only [Option.isSome_none, Bool.false_eq_true, false_or]
        exact forall₂_exportList
    · rw [declaration_of_ne hexport, beq_eq_false_iff_ne.mpr hexport, Bool.or_false]
      exact forall₂_unexported isExported hexport

/-! ## Files -/

/-- An entity without its id and without what other parts of the file say about it. -/
def bare (e : Entity) : Entity :=
  { e with id := "", isExported := false, calls := e.calls.map CallSite.unbound }

theorem bare_markExported (names : List String) (e : Entity) :
    bare (markExported names e) = bare e := by
  unfold markExported
  split <;> rfl

/-- The entities of a file are those of its statements, with ids, exports and bound calls. -/
theorem bare_artifact (file : FileIdentity) (source : List Char) (root : SyntaxTree) :
    (artifact file source root).entities.map bare = (findings source root).entities.map bare := by
  let a := describe file (findings source root)
  have hids : a.withEntityIds.entities.map bare = a.entities.map bare := by
    rw [Artifact.withEntityIds, List.map_map]
    change (a.entityIds.zip a.entities).map (bare ∘ Prod.snd) = _
    rw [← List.map_map, List.map_snd_zip (by rw [Artifact.length_entityIds])]
  have hbound : (artifact file source root).entities.map bare =
      a.withEntityIds.entities.map bare := by
    change (a.withEntityIds.entities.map _).map bare = _
    rw [List.map_map]
    refine List.map_congr_left fun e _ => ?_
    simp only [Function.comp_apply, bare, Artifact.bindEntity, List.map_map]
    rfl
  rw [hbound, hids]
  change ((findings source root).entities.map _).map bare = _
  rw [List.map_map]
  exact List.map_congr_left fun e _ => bare_markExported _ e

theorem describes_bare {o : Origin} {e : Entity} :
    Describes source o (bare e) ↔ Describes source o e := by
  have hcalls : (bare e).calls.map CallSite.unbound = e.calls.map CallSite.unbound := by
    simp only [bare, List.map_map]
    rfl
  have hrole : o.role.Fits source (bare e) ↔ o.role.Fits source e := by
    cases o.role with
    | function f =>
      rw [Role.Fits, hcalls]
      rfl
    | _ => rfl
  exact ⟨fun h => ⟨h.name, h.span, hrole.mp h.role⟩, fun h => ⟨h.name, h.span, hrole.mpr h.role⟩⟩

/-- What stands at an index of a list corresponds to what stands there in the other one. -/
theorem exists_getElem? {α β : Type} {R : α → β → Prop} {xs : List α} {ys : List β}
    (h : List.Forall₂ R xs ys) {i : Nat} {y : β} (hy : ys[i]? = some y) :
    ∃ x, xs[i]? = some x ∧ R x y := by
  induction h generalizing i with
  | nil => cases hy
  | cons hxy _ ih =>
    cases i with
    | zero =>
      cases hy
      exact ⟨_, rfl, hxy⟩
    | succ i => exact ih hy

theorem exists_of_forall₂ {α β : Type} {R : α → β → Prop} {xs : List α} {ys : List β}
    (h : List.Forall₂ R xs ys) {y : β} (hy : y ∈ ys) : ∃ x ∈ xs, R x y := by
  obtain ⟨i, hi⟩ := List.getElem?_of_mem hy
  obtain ⟨x, hx, hr⟩ := exists_getElem? h hi
  exact ⟨x, List.mem_of_getElem? hx, hr⟩

/-- Every entity of a file is made from its origin. -/
theorem forall₂_artifact (file : FileIdentity) (source : List Char) (root : SyntaxTree) :
    List.Forall₂ (fun p e => Describes source p.2 e) (places source root)
      (artifact file source root).entities := by
  have hfound : List.Forall₂ (fun p e => Describes source p.2 e) (places source root)
      (findings source root).entities := by
    rw [places, declarations, List.flatMap_assoc, findings, entities_concat, List.flatMap_map]
    exact forall₂_flatMap (fun t => (forall₂_statement false t).imp fun _ _ h => h.describes) _
  have hbare : List.Forall₂ (fun p e => Describes source p.2 e) (places source root)
      ((findings source root).entities.map bare) := by
    rw [List.forall₂_map_right_iff]
    exact hfound.imp fun p e => describes_bare.mpr
  rw [← bare_artifact file, List.forall₂_map_right_iff] at hbare
  exact hbare.imp fun p e => describes_bare.mp

/-- Every entity of a file has a place. -/
theorem exists_place {file : FileIdentity} {root : SyntaxTree} {i : Nat} {e : Entity}
    (he : (artifact file source root).entities[i]? = some e) :
    ∃ p, (places source root)[i]? = some p ∧ Describes source p.2 e :=
  exists_getElem? (forall₂_artifact file source root) he

/-! ## Nodes -/

/-- The nodes of an origin are nodes of a tree. -/
structure Origin.IsIn (o : Origin) (t : SyntaxTree) : Prop where
  site : o.site ∈ t.preorder
  function : ∀ f, o.role = .function f → f ∈ t.preorder

/--
The nodes of a declaration are nodes of a tree. Only a class has members, which are functions in its
node.
-/
structure Declaration.IsIn (d : Declaration) (t : SyntaxTree) : Prop where
  head : d.head.IsIn t
  members : ∀ o ∈ d.members, o.IsIn d.head.site ∧ ∃ f, o.role = .function f
  isClass : d.members ≠ [] → d.head.role = .classDef

theorem Origin.IsIn.of_mem {o : Origin} {n : SyntaxTree} (h : o.IsIn n) (hn : n ∈ t.preorder) :
    o.IsIn t :=
  ⟨mem_preorder_trans hn h.site, fun f hf => mem_preorder_trans hn (h.function f hf)⟩

theorem Declaration.IsIn.of_mem {d : Declaration} {n : SyntaxTree} (h : d.IsIn n)
    (hn : n ∈ t.preorder) : d.IsIn t :=
  ⟨h.head.of_mem hn, h.members, h.isClass⟩

theorem Declaration.isIn_of_head {o : Origin} (h : o.IsIn t) :
    Declaration.IsIn { head := o } t :=
  ⟨h, fun _ ho => absurd ho List.not_mem_nil, fun hmembers => absurd rfl hmembers⟩

theorem isIn_functionOrigin? {o : Origin} (h : functionOrigin? source t = some o) :
    o.IsIn t ∧ ∃ f, o.role = .function f := by
  obtain ⟨name, -, rfl⟩ := Option.map_eq_some_iff.mp h
  refine ⟨⟨t.self_mem_preorder, ?_⟩, t, rfl⟩
  rintro f ⟨⟩
  exact t.self_mem_preorder

theorem isIn_memberOrigin? {o : Origin} (h : memberOrigin? source t = some o) :
    o.IsIn t ∧ ∃ f, o.role = .function f := by
  unfold memberOrigin? at h
  split at h
  · exact isIn_functionOrigin? h
  split at h
  · unfold fieldOrigin? at h
    split at h
    · rename_i name value hname hvalue
      split at h
      · cases h
        refine ⟨⟨t.self_mem_preorder, ?_⟩, value, rfl⟩
        rintro f ⟨⟩
        exact mem_preorder_of_child? hvalue
      · cases h
    · cases h
  · cases h

theorem isIn_classDeclaration? {fallback : Option String} {d : Declaration}
    (h : classDeclaration? source fallback t = some d) : d.IsIn t := by
  obtain ⟨name, -, rfl⟩ := Option.map_eq_some_iff.mp h
  refine ⟨⟨t.self_mem_preorder, ?_⟩, ?_, fun _ => rfl⟩
  · rintro f ⟨⟩
  · intro o ho
    dsimp only at ho
    cases hbody : t.child? "body" with
    | none =>
      rw [hbody] at ho
      cases ho
    | some body =>
      rw [hbody, Option.elim_some] at ho
      obtain ⟨n, hn, hno⟩ := List.mem_filterMap.mp ho
      have hbelow : n ∈ t.preorder := mem_preorder_trans (mem_preorder_of_child? hbody)
        (mem_preorder_of_mem_children (List.mem_filter.mp hn).1)
      exact ⟨(isIn_memberOrigin? hno).1.of_mem hbelow, (isIn_memberOrigin? hno).2⟩

theorem isIn_declaratorDeclaration? {keyword : String} {d : Declaration}
    (h : declaratorDeclaration? source keyword t = some d) : d.IsIn t := by
  have hconstant : ∀ name : String,
      Declaration.IsIn { head := ⟨name, t, .constant⟩ } t := fun name =>
    Declaration.isIn_of_head ⟨t.self_mem_preorder, by rintro f ⟨⟩⟩
  unfold declaratorDeclaration? at h
  split at h
  · cases h
  · dsimp only at h
    split at h
    · cases h
    split at h
    · split at h
      · cases h
        exact hconstant _
      · cases h
    · rename_i v hv
      have hbelow : v ∈ t.preorder := mem_preorder_of_child? hv
      split at h
      · cases h
      split at h
      · cases h
        refine Declaration.isIn_of_head ⟨t.self_mem_preorder, ?_⟩
        rintro f ⟨⟩
        exact hbelow
      split at h
      · exact (isIn_classDeclaration? h).of_mem hbelow
      split at h
      · cases h
        exact hconstant _
      · cases h

theorem isIn_defaultDeclaration? {d : Declaration} (h : defaultDeclaration? source t = some d) :
    d.IsIn t := by
  unfold defaultDeclaration? at h
  split at h
  · cases h
    refine Declaration.isIn_of_head ⟨t.self_mem_preorder, ?_⟩
    rintro f ⟨⟩
    exact t.self_mem_preorder
  split at h
  · exact isIn_classDeclaration? h
  · cases h

theorem isIn_of_mem_statementDeclarations {d : Declaration}
    (h : d ∈ statementDeclarations source t) : d.IsIn t := by
  unfold statementDeclarations at h
  split at h
  · split at h
    · cases h
    · obtain ⟨value, hvalue, hd⟩ := Option.bind_eq_some_iff.mp (Option.mem_toList.mp h)
      exact (isIn_defaultDeclaration? hd).of_mem (mem_preorder_of_child? hvalue)
  split at h
  · obtain ⟨o, ho, rfl⟩ := Option.map_eq_some_iff.mp (Option.mem_toList.mp h)
    exact Declaration.isIn_of_head (isIn_functionOrigin? ho).1
  split at h
  · exact isIn_classDeclaration? (Option.mem_toList.mp h)
  split at h
  · obtain ⟨n, hn, hd⟩ := List.mem_filterMap.mp h
    refine (isIn_declaratorDeclaration? hd).of_mem (mem_preorder_of_mem_children ?_)
    exact (List.mem_filter.mp (List.mem_filter.mp hn).1).1
  · cases h

theorem declaration_mem_preorder (t : SyntaxTree) : declaration t ∈ t.preorder := by
  induction t using forall_of_children with
  | h t ih =>
    by_cases hexport : t.kind = "export_statement"
    · rcases export_cases [] false hexport with
        ⟨_, _, hself, _⟩ | ⟨c, hc, hinner, _⟩ | ⟨_, hself, _⟩
      · rw [hself]
        exact t.self_mem_preorder
      · rw [hinner]
        exact mem_preorder_trans (mem_preorder_of_mem_children hc) (ih c hc)
      · rw [hself]
        exact t.self_mem_preorder
    · rw [declaration_of_ne hexport]
      exact t.self_mem_preorder

/-- What a file declares is in its tree. -/
theorem isIn_of_mem_declarations {d : Declaration} {root : SyntaxTree}
    (h : d ∈ declarations source root) : d.IsIn root := by
  obtain ⟨t, ht, hd⟩ := List.mem_flatMap.mp h
  refine (isIn_of_mem_statementDeclarations hd).of_mem (mem_preorder_trans ?_
    (declaration_mem_preorder t))
  exact mem_preorder_of_mem_children (List.mem_filter.mp ht).1

/-- A place is the head of a declaration, or a member with the head of its class. -/
theorem mem_places {p : Option Origin × Origin} {root : SyntaxTree} :
    p ∈ places source root ↔ ∃ d ∈ declarations source root, p = (none, d.head) ∨
      ∃ o ∈ d.members, p = (some d.head, o) := by
  simp only [places, List.mem_flatMap, Declaration.places, List.mem_cons, List.mem_map, eq_comm]

/-- Origins are in the tree of their file. -/
theorem isIn_of_mem_places {p : Option Origin × Origin} {root : SyntaxTree}
    (h : p ∈ places source root) : p.2.IsIn root := by
  obtain ⟨d, hd, rfl | ⟨o, ho, rfl⟩⟩ := mem_places.mp h
  · exact (isIn_of_mem_declarations hd).head
  · have hin := isIn_of_mem_declarations hd
    exact (hin.members o ho).1.of_mem hin.head.site

end Script

end SourceGraph
