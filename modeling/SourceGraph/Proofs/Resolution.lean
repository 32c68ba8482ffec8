import SourceGraph.Proofs.Slice
import SourceGraph.Resolution

/-!
# Where bound calls lead

The binding of calls and the fragment of a file are two passes over the same description. A call
that is bound leads to a node of the fragment, to a file that the fragment has an import edge to, or
to a builtin.

* `Scope.explains_resolve`: what the outcome of the binding of a call says about the names of its
  file.
* `Artifact.mem_entityIds`: the first entity with a qualified name has it as its id.
* `Artifact.entityIds_resolve`: binding calls does not change ids.
* `Artifact.bound_calls_follow_imports`, `Artifact.local_calls_have_nodes`: the two passes agree.
-/

set_option autoImplicit false

namespace SourceGraph

/-! ## Outcomes -/

theorem mem_of_lookup_eq_some {β : Type} {name : String} {b : β} {l : List (String × β)}
    (h : l.lookup name = some b) : (name, b) ∈ l := by
  obtain ⟨before, rest, rfl, _⟩ := List.lookup_eq_some_iff.mp h
  simp

namespace Scope

variable {s : Scope} {enclosing : Option String} {c : CallSite}

theorem defines_ownMember {name : String} (h : s.ownMember? enclosing c = some name) :
    s.defines name = true := by
  unfold ownMember? at h
  split at h
  · dsimp only at h
    split at h
    · rename_i hdefines
      rw [Bool.and_eq_true] at hdefines
      exact Option.some.inj h ▸ hdefines.2
    · cases h
  · cases h

/-- What the outcome of a call says about the names of its file. -/
def Explains (s : Scope) (c : CallSite) : Resolution → Prop
  | .local d => d.file = s.file ∧ s.defines d.name = true
  | .imported d => ∃ b, (c.base, b) ∈ s.bindings ∧ b.target = some d.file
  | .builtin d => d.file = builtinFile
  | .unresolved => True

theorem explains_resolve (s : Scope) (enclosing : Option String) (c : CallSite) :
    s.Explains c (s.resolve enclosing c) := by
  unfold resolve
  split
  · rename_i name hown
    exact ⟨rfl, defines_ownMember hown⟩
  · split
    · rename_i hcallee
      exact ⟨rfl, hcallee⟩
    · split
      · rename_i hbase
        exact ⟨rfl, hbase⟩
      · split
        · rename_i b hb
          split
          · rename_i target htarget
            exact ⟨b, mem_of_lookup_eq_some hb, htarget⟩
          · trivial
        · split
          · rfl
          · trivial

/-- A binding leads where an import of the file leads. -/
theorem exists_import_of_mem_bindings {a : Artifact} {builtins : List String} {name : String}
    {b : Binding} (h : (name, b) ∈ (ofArtifact a builtins).bindings) :
    ∃ i ∈ a.imports, b.target = i.target? a.file.id a.file.root? := by
  obtain ⟨i, hi, hb⟩ := List.mem_flatMap.mp (List.mem_reverse.mp h)
  unfold bindingsOf at hb
  split at hb
  · exact absurd hb List.not_mem_nil
  · obtain ⟨n, _, hn⟩ := List.mem_filterMap.mp hb
    obtain ⟨l, _, he⟩ := Option.map_eq_some_iff.mp hn
    cases he
    exact ⟨i, hi, rfl⟩

theorem mem_qualifiedNames_of_defines {a : Artifact} {builtins : List String} {name : String}
    (h : (ofArtifact a builtins).defines name = true) : name ∈ a.qualifiedNames := by
  obtain ⟨id, hid⟩ := Option.isSome_iff_exists.mp h
  obtain ⟨e, he, hpair⟩ := List.mem_map.mp (mem_of_lookup_eq_some hid)
  cases hpair
  exact List.mem_map_of_mem he

end Scope

namespace Artifact

variable {a : Artifact} {builtins : List String} {d : Definition}

/-! ## Ids -/

theorem length_assignIds (before : List String) (named : List (String × Entity)) :
    (assignIds before named).length = named.length := by
  induction named generalizing before with
  | nil => rfl
  | cons ne named ih =>
    obtain ⟨name, e⟩ := ne
    rw [assignIds, List.length_cons, List.length_cons, ih]

/-- A name that is not taken goes to the first entity that has it. -/
theorem mem_assignIds {before : List String} {named : List (String × Entity)} {name : String}
    (hname : name ∈ named.map (·.1)) (hfree : name ∉ before) : name ∈ assignIds before named := by
  induction named generalizing before with
  | nil => exact absurd hname List.not_mem_nil
  | cons ne named ih =>
    obtain ⟨first, e⟩ := ne
    rw [assignIds]
    by_cases hfirst : name = first
    · rw [← hfirst, if_neg hfree]
      exact List.mem_cons_self
    · have hrest : name ∈ named.map (·.1) := (List.mem_cons.mp hname).resolve_left hfirst
      exact List.mem_cons_of_mem _ (ih hrest (by simp [hfirst, hfree]))

theorem length_entityIds (a : Artifact) : a.entityIds.length = a.entities.length := by
  rw [entityIds, length_assignIds, List.length_zip, qualifiedNames, List.length_map, Nat.min_self]

/-- The first entity with a qualified name keeps it as its id. -/
theorem mem_entityIds {name : String} (h : name ∈ a.qualifiedNames) : name ∈ a.entityIds := by
  refine mem_assignIds ?_ List.not_mem_nil
  have hfst : (a.qualifiedNames.zip a.entities).map (·.1) = a.qualifiedNames :=
    List.map_fst_zip (by simp [qualifiedNames])
  rwa [hfst]

/-- Every id is that of a node. -/
theorem exists_entityNode {id : String} (file : String) (h : id ∈ a.entityIds) :
    ∃ n ∈ (a.fragment file).entityNodes, n.id = nodeId file id := by
  have hfst : (a.entityIds.zip a.entities).map (·.1) = a.entityIds :=
    List.map_fst_zip (Nat.le_of_eq a.length_entityIds)
  rw [← hfst] at h
  obtain ⟨ie, hie, rfl⟩ := List.mem_map.mp h
  refine ⟨entityNode file ie.1 ie.2, ?_, id_entityNode file ie.1 ie.2⟩
  rw [entityNodes_fragment]
  exact List.mem_map_of_mem hie

/-! ## Ids after the binding of calls -/

section Rewriting

variable {f : Entity → Entity} (hkind : ∀ e, (f e).kind = e.kind)
  (hname : ∀ e, (f e).name = e.name) (hspan : ∀ e, (f e).span = e.span)

include hspan in
theorem shortest_map (es : List Entity) : shortest (es.map f) = (shortest es).map f := by
  induction es with
  | nil => rfl
  | cons e es ih =>
    rw [List.map_cons, shortest, ih, shortest]
    cases shortest es with
    | none => rfl
    | some g =>
      simp only [Option.map_some, hspan]
      split <;> rfl

include hkind hname hspan in
/-- Qualified names depend on the kinds, names and spans of the entities only. -/
theorem qualifiedName_map (a : Artifact) (e : Entity) :
    qualifiedName { a with entities := a.entities.map f } (f e) = a.qualifiedName e := by
  have howner : owner? { a with entities := a.entities.map f } (f e) = (a.owner? e).map f := by
    rw [owner?, owner?, ← shortest_map hspan, List.filter_map]
    simp only [Function.comp_def, hkind, hspan]
  rw [qualifiedName, qualifiedName, hkind, hname, howner]
  cases a.owner? e <;> simp [hname]

include hspan in
theorem assignIds_map (before : List String) (named : List (String × Entity)) :
    assignIds before (named.map fun ne => (ne.1, f ne.2)) = assignIds before named := by
  induction named generalizing before with
  | nil => rfl
  | cons ne named ih =>
    obtain ⟨name, e⟩ := ne
    rw [List.map_cons, assignIds, assignIds, ih, hspan]

include hkind hname hspan in
theorem entityIds_map (a : Artifact) :
    entityIds { a with entities := a.entities.map f } = a.entityIds := by
  have hnames : qualifiedNames { a with entities := a.entities.map f } = a.qualifiedNames := by
    simp only [qualifiedNames, List.map_map]
    exact List.map_congr_left fun e _ => qualifiedName_map hkind hname hspan a e
  rw [entityIds, entityIds, hnames, List.zip_map_right]
  exact assignIds_map hspan [] _

end Rewriting

theorem entityIds_resolve (a : Artifact) (builtins : List String) :
    (a.resolve builtins).entityIds = a.entityIds :=
  entityIds_map (f := a.bindEntity (Scope.ofArtifact a builtins)) (fun _ => rfl) (fun _ => rfl)
    (fun _ => rfl) a

/-! ## Bound calls -/

/-- The calls of a bound artifact have the definitions of the outcomes, in order. -/
theorem definitions_resolve (a : Artifact) (builtins : List String) :
    ((a.resolve builtins).entities.flatMap (·.calls) ++ (a.resolve builtins).moduleCalls).map
      (·.definition) = (a.resolutions builtins).map (·.definition?) := by
  simp [resolve, resolutions, bindEntity, bindCall, List.flatMap_map, List.map_flatMap,
    Function.comp_def]

theorem explains_of_mem_resolutions {r : Resolution} (h : r ∈ a.resolutions builtins) :
    ∃ c, (Scope.ofArtifact a builtins).Explains c r := by
  rcases List.mem_append.mp h with h | h
  · obtain ⟨e, _, he⟩ := List.mem_flatMap.mp h
    obtain ⟨c, _, rfl⟩ := List.mem_map.mp he
    exact ⟨c, Scope.explains_resolve _ _ c⟩
  · obtain ⟨c, _, rfl⟩ := List.mem_map.mp h
    exact ⟨c, Scope.explains_resolve _ _ c⟩

/-- Every file that an import leads to has an edge, but the file itself. -/
theorem mem_importEdges {i : Import} {file target : String} (hi : i ∈ a.imports)
    (htarget : i.target? file a.file.root? = some target) (hne : target ≠ file) :
    ⟨file, target, .import⟩ ∈ (a.fragment file).importEdges := by
  refine List.mem_map_of_mem (List.mem_eraseDups.mpr (List.mem_filter.mpr ⟨?_, by simpa using hne⟩))
  exact List.mem_filterMap.mpr ⟨i, hi, htarget⟩

theorem imported_file (h : .imported d ∈ a.resolutions builtins) :
    d.file = a.file.id ∨ ⟨a.file.id, d.file, .import⟩ ∈ (a.fragment a.file.id).importEdges := by
  obtain ⟨c, b, hb, htarget⟩ := explains_of_mem_resolutions h
  obtain ⟨i, hi, hbi⟩ := Scope.exists_import_of_mem_bindings hb
  by_cases hself : d.file = a.file.id
  · exact Or.inl hself
  · exact Or.inr (mem_importEdges hi (hbi.symm.trans htarget) hself)

/-- A local outcome names the id of an entity. -/
theorem local_names {c : CallSite} (h : (Scope.ofArtifact a builtins).Explains c (.local d)) :
    d.file = a.file.id ∧ d.name ∈ a.entityIds :=
  ⟨h.1, mem_entityIds (Scope.mem_qualifiedNames_of_defines h.2)⟩

theorem local_file (h : .local d ∈ a.resolutions builtins) :
    d.file = a.file.id ∧ d.name ∈ a.entityIds := by
  obtain ⟨c, hc⟩ := explains_of_mem_resolutions h
  exact local_names hc

/-- A call that is bound has the definition of an outcome. -/
theorem exists_resolution {c : CallSite} (hd : c.definition = some d)
    (hc : c ∈ (a.resolve builtins).entities.flatMap (·.calls) ++ (a.resolve builtins).moduleCalls) :
    ∃ r ∈ a.resolutions builtins, r.definition? = some d := by
  have hmem := List.mem_map_of_mem (f := (·.definition)) hc
  rw [definitions_resolve, hd] at hmem
  exact List.mem_map.mp hmem

theorem mem_of_mem_number {before : List String} {calls : List (String × CallSite)}
    {n : NumberedCall} (h : n ∈ NumberedCall.number before calls) : (n.caller, n.call) ∈ calls := by
  induction calls generalizing before with
  | nil => exact absurd h List.not_mem_nil
  | cons cc calls ih =>
    obtain ⟨caller, call⟩ := cc
    rcases List.mem_cons.mp h with rfl | h
    · exact List.mem_cons_self
    · exact List.mem_cons_of_mem _ (ih h)

theorem mem_calls_of_mem_callsByCaller {caller : String} {c : CallSite}
    (h : (caller, c) ∈ a.callsByCaller) : c ∈ a.entities.flatMap (·.calls) ++ a.moduleCalls := by
  rcases List.mem_append.mp h with h | h
  · obtain ⟨c', hc, hpair⟩ := List.mem_map.mp h
    cases hpair
    exact List.mem_append_right _ hc
  · obtain ⟨ie, hie, hcalls⟩ := List.mem_flatMap.mp h
    obtain ⟨c', hc, hpair⟩ := List.mem_map.mp hcalls
    cases hpair
    exact List.mem_append_left _ (List.mem_flatMap.mpr ⟨ie.2, (List.of_mem_zip hie).2, hc⟩)

/-- A call edge ends at the definition of a call. -/
theorem exists_call_of_mem_callEdges {file : String} {e : Edge}
    (h : e ∈ (a.fragment file).callEdges) :
    ∃ c ∈ a.entities.flatMap (·.calls) ++ a.moduleCalls, ∃ d, c.definition = some d ∧
      e.target = d.nodeId := by
  obtain ⟨n, hn, hedge⟩ := List.mem_filterMap.mp (List.mem_eraseDups.mp h)
  obtain ⟨d, hd, rfl⟩ := Option.map_eq_some_iff.mp hedge
  exact ⟨n.call, mem_calls_of_mem_callsByCaller (mem_of_mem_number hn), d, hd, rfl⟩

/-- A class with two methods of one name, which calls one of them, an import and a builtin. -/
def overloaded : Artifact where
  file := { id := "src/a.ts", path := "/w/src/a.ts", language := "typescript" }
  imports :=
    [{ source := "../lib", names := [{ name := "help" }] },
     { source := "./other", names := [{ name := "help" }], reexport := true }]
  entities :=
    [{ id := "C", name := "C", kind := .classDef, span := ⟨1, 9⟩ },
     { id := "C.n", name := "n", kind := .method, span := ⟨2, 3⟩ },
     { id := "C.n@4", name := "n", kind := .method, span := ⟨4, 5⟩ },
     { id := "C.m", name := "m", kind := .method, span := ⟨6, 8⟩
       calls := [{ callee := "this.n", kind := .method }, { callee := "help", kind := .function },
         { callee := "parseInt", kind := .function }] }]

/--
A bound call leads to a builtin, into its own file, or to a file that the import graph has an edge
to; one that is bound through an import is of the last two kinds.
-/
theorem bound_calls_follow_imports (a : Artifact) (builtins : List String) :
    (∀ c ∈ (a.resolve builtins).entities.flatMap (·.calls) ++ (a.resolve builtins).moduleCalls,
      ∀ d, c.definition = some d → d.file = builtinFile ∨ d.file = a.file.id ∨
        ⟨a.file.id, d.file, .import⟩ ∈ ((a.resolve builtins).fragment a.file.id).importEdges) ∧
    ∀ d, .imported d ∈ a.resolutions builtins → d.file = a.file.id ∨
      ⟨a.file.id, d.file, .import⟩ ∈ ((a.resolve builtins).fragment a.file.id).importEdges := by
  refine ⟨fun c hc d hd => ?_, fun d hd => imported_file hd⟩
  obtain ⟨r, hr, hrd⟩ := exists_resolution hd hc
  cases r with
  | «local» d' =>
    cases hrd
    exact Or.inr (Or.inl (local_file hr).1)
  | imported d' =>
    cases hrd
    exact Or.inr (imported_file hr)
  | builtin d' =>
    cases hrd
    obtain ⟨_, hbuiltin⟩ := explains_of_mem_resolutions hr
    exact Or.inl hbuiltin
  | unresolved => cases hrd

theorem bound_calls_follow_imports_overloaded :
    .imported ⟨"lib.ts", "help"⟩ ∈ overloaded.resolutions ["parseInt"] ∧
      ⟨"src/a.ts", "lib.ts", .import⟩ ∈
        ((overloaded.resolve ["parseInt"]).fragment "src/a.ts").importEdges :=
  have h : .imported ⟨"lib.ts", "help"⟩ ∈ overloaded.resolutions ["parseInt"] := by decide +kernel
  ⟨h, ((bound_calls_follow_imports overloaded ["parseInt"]).2 _ h).resolve_left (by decide)⟩

/--
A call that is bound in its own file leads to a node of the fragment: the first entity with a
qualified name has it as its id. So does the edge of such a call.
-/
theorem local_calls_have_nodes (a : Artifact) (builtins : List String) :
    (∀ enclosing c d, (Scope.ofArtifact a builtins).resolve enclosing c = .local d →
      d.file = a.file.id ∧ ∃ n ∈ (a.fragment a.file.id).entityNodes, n.id = d.nodeId) ∧
    ∀ e ∈ ((a.resolve builtins).fragment a.file.id).callEdges,
      ∃ r ∈ a.resolutions builtins, ∃ d, r.definition? = some d ∧ e.target = d.nodeId ∧
        (r = .local d →
          ∃ n ∈ ((a.resolve builtins).fragment a.file.id).entityNodes, n.id = e.target) := by
  refine ⟨fun enclosing c d h => ?_, fun e he => ?_⟩
  · obtain ⟨hfile, hid⟩ := local_names (h ▸ Scope.explains_resolve _ enclosing c)
    rw [Definition.nodeId, hfile]
    exact ⟨rfl, exists_entityNode a.file.id hid⟩
  · obtain ⟨c, hc, d, hd, htarget⟩ := exists_call_of_mem_callEdges he
    obtain ⟨r, hr, hrd⟩ := exists_resolution hd hc
    refine ⟨r, hr, d, hrd, htarget, ?_⟩
    rintro rfl
    obtain ⟨hfile, hid⟩ := local_file hr
    rw [htarget, Definition.nodeId, hfile]
    rw [← entityIds_resolve a builtins] at hid
    exact exists_entityNode a.file.id hid

theorem local_calls_have_nodes_overloaded :
    overloaded.entityIds = ["C", "C.n", "C.n@4", "C.m"] ∧
      ∃ n ∈ (overloaded.fragment "src/a.ts").entityNodes, n.id = "src/a.ts::C.n" :=
  have h : (Scope.ofArtifact overloaded ["parseInt"]).resolve (some "C")
      { callee := "this.n", kind := .method } = .local ⟨"src/a.ts", "C.n"⟩ := by decide +kernel
  ⟨by decide +kernel, ((local_calls_have_nodes overloaded ["parseInt"]).1 _ _ _ h).2⟩

end Artifact

end SourceGraph
