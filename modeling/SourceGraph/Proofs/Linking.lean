import SourceGraph.Proofs.CallSites

/-!
# Calls of imported names

A call of a name that an import binds leads to the entity with that name in the imported file, and
the two fragments together have both ends of its edge. Descriptions are made file by file, so the
other file is known by the target of the import only.

* `Scope.binding?_eq_some`: of all imported names the last one with a local name counts.
* `Scope.resolve_plain`: the outcome for a callee without a dot.
* `UnresolvedCall.ofIndex_inj`: caller and number can be read off the id of a call site.
* `Artifact.imported_calls_linked`: calls of imported names end at nodes of the other file.
-/

set_option autoImplicit false

namespace SourceGraph

/-! ## Bindings -/

theorem lookup_reverse_append {β : Type} {l : String} {b : β} (xs : List (String × β))
    {ys : List (String × β)} (hys : ∀ y ∈ ys, y.1 ≠ l) :
    (xs ++ (l, b) :: ys).reverse.lookup l = some b := by
  rw [List.reverse_append, List.reverse_cons, List.append_assoc, List.lookup_append]
  have hnone : ys.reverse.lookup l = none := by
    rw [List.lookup_eq_none_iff]
    intro y hy
    simpa using Ne.symm (hys y (List.mem_reverse.mp hy))
  rw [hnone, Option.none_or, List.cons_append, List.lookup_cons_self]

namespace Scope

variable {b : Artifact} {builtins : List String} {before after : List Import} {i : Import}
  {firsts rest : List ImportedName} {n : ImportedName} {l : String}

theorem fst_of_mem_bindingsOf {importer : String} {root : Option String} {y : String × Binding}
    (h : y ∈ bindingsOf importer root i) :
    i.reexport = false ∧ ∃ m ∈ i.names, m.localName? = some y.1 := by
  unfold bindingsOf at h
  split at h
  · exact absurd h List.not_mem_nil
  · rename_i hbinds
    obtain ⟨m, hm, hy⟩ := List.mem_filterMap.mp h
    obtain ⟨name, hname, rfl⟩ := Option.map_eq_some_iff.mp hy
    exact ⟨by simpa using hbinds, m, hm, hname⟩

/-- Of the imported names with one local name the last one counts; re-exports bind none. -/
theorem binding?_eq_some (himports : b.imports = before ++ i :: after)
    (hbinds : i.reexport = false) (hnames : i.names = firsts ++ n :: rest)
    (hlocal : n.localName? = some l) (hrest : ∀ m ∈ rest, m.localName? ≠ some l)
    (hafter : ∀ j ∈ after, j.reexport = false → ∀ m ∈ j.names, m.localName? ≠ some l) :
    (ofArtifact b builtins).binding? l =
      some ⟨n.name, i.source, i.target? b.file.id b.file.root?⟩ := by
  let bound : ImportedName → Option (String × Binding) := fun m => m.localName?.map fun name =>
    (name, ⟨m.name, i.source, i.target? b.file.id b.file.root?⟩)
  have hi : bindingsOf b.file.id b.file.root? i = firsts.filterMap bound ++
      (l, ⟨n.name, i.source, i.target? b.file.id b.file.root?⟩) :: rest.filterMap bound := by
    have hn : bound n = some (l, ⟨n.name, i.source, i.target? b.file.id b.file.root?⟩) := by
      simp only [bound, hlocal, Option.map_some]
    rw [bindingsOf, if_neg (by simp [hbinds]), hnames, List.filterMap_append,
      ← List.filterMap_cons_some hn]
  have hbindings : (ofArtifact b builtins).bindings =
      (before.flatMap (bindingsOf b.file.id b.file.root?) ++ firsts.filterMap bound ++
        (l, ⟨n.name, i.source, i.target? b.file.id b.file.root?⟩) ::
          (rest.filterMap bound ++ after.flatMap (bindingsOf b.file.id b.file.root?))).reverse := by
    simp [ofArtifact, himports, hi]
  rw [binding?, hbindings]
  refine lookup_reverse_append _ fun y hy => ?_
  rintro rfl
  rcases List.mem_append.mp hy with hy | hy
  · obtain ⟨m, hm, hbound⟩ := List.mem_filterMap.mp hy
    obtain ⟨name, hname, rfl⟩ := Option.map_eq_some_iff.mp hbound
    exact hrest m hm hname
  · obtain ⟨j, hj, hy⟩ := List.mem_flatMap.mp hy
    obtain ⟨hjbinds, m, hm, hname⟩ := fst_of_mem_bindingsOf hy
    exact hafter j hj hjbinds m hm hname

/-! ## Plain callees -/

theorem cutFirst_dot {c : CallSite} (h : '.' ∉ c.callee.toList) :
    Text.cutFirst ['.'] c.callee.toList = none :=
  Text.cutFirst_eq_none fun hin => h (hin.subset List.mem_cons_self)

/-- A name that the file imports and does not define is bound in the imported file. -/
theorem resolve_plain {s : Scope} {bound : Binding} {target : String} {c : CallSite}
    (enclosing : Option String) (hdot : '.' ∉ c.callee.toList)
    (hown : s.defines c.callee = false) (hbound : s.binding? c.callee = some bound)
    (htarget : bound.target = some target) (hstar : bound.name ≠ "*")
    (hdefault : bound.name ≠ "default") :
    s.resolve enclosing c = .imported ⟨target, bound.name⟩ := by
  have hbase : c.base = c.callee := by rw [CallSite.base, cutFirst_dot hdot, Option.elim_none]
  have hmember : c.member? = none := by rw [CallSite.member?, cutFirst_dot hdot, Option.map_none]
  have hself : s.ownMember? enclosing c = none := by
    unfold ownMember?
    rw [hmember]
    cases enclosing <;> rfl
  have hname : nameThere bound c = bound.name := by
    rw [nameThere, if_neg hstar, if_neg hdefault]
  simp only [resolve, hself, hbase, hown, Bool.false_eq_true, ↓reduceIte, hbound, htarget, hname]

end Scope

/-! ## Ids of call sites -/

/-- The caller and the number can be read off the id: the number has no `#`. -/
theorem UnresolvedCall.ofIndex_inj {caller caller' callee callee' : String} {index index' : Nat}
    (h : (ofIndex caller callee index).siteId = (ofIndex caller' callee' index').siteId) :
    caller = caller' ∧ index = index' := by
  refine Text.append_number_inj (by decide : '#'.isDigit = false) ?_
  simpa [ofIndex] using congrArg String.toList h

/-- The id under which a call of a file is recorded if it has no definition. -/
def NumberedCall.siteId (file : String) (c : NumberedCall) : String :=
  (UnresolvedCall.ofIndex (nodeId file c.caller) c.call.callee c.index).siteId

namespace Artifact

variable {a b : Artifact} {file : String} {u : UnresolvedCall}

theorem exists_call_of_mem_unresolved (h : u ∈ (a.fragment file).unresolved) :
    ∃ c ∈ a.numberedCalls, c.call.definition = none ∧
      u = .ofIndex (nodeId file c.caller) c.call.callee c.index := by
  obtain ⟨c, hc, hu⟩ := List.mem_filterMap.mp h
  unfold NumberedCall.unresolved? at hu
  split at hu
  · cases hu
  · rename_i hnone
    exact ⟨c, hc, hnone, (Option.some.inj hu).symm⟩

theorem nodeId_inj {name name' : String} (h : nodeId file name = nodeId file name') :
    name = name' := by
  have hlists := congrArg String.toList h
  simp only [nodeId, String.toList_append, List.append_assoc, List.append_cancel_left_eq] at hlists
  exact String.toList_injective hlists

/-- A call with a definition is not recorded: no other call has its caller and number. -/
theorem siteId_ne_of_definition {c : NumberedCall} (hc : c ∈ a.numberedCalls)
    (hd : c.call.definition.isSome = true) (hu : u ∈ (a.fragment file).unresolved) :
    u.siteId ≠ c.siteId file := by
  intro hsite
  obtain ⟨c', hc', hnone, rfl⟩ := exists_call_of_mem_unresolved hu
  obtain ⟨hcaller, hindex⟩ := UnresolvedCall.ofIndex_inj hsite
  have hsame : c' = c := by
    refine List.inj_on_of_nodup_map (NumberedCall.nodup_sites [] a.callsByCaller) hc' hc ?_
    exact Prod.ext (nodeId_inj hcaller) hindex
  rw [hsame] at hnone
  rw [hnone] at hd
  cases hd

/-- Records of files with different ids have different ids. -/
theorem siteId_ne_of_file {other : String} {c : NumberedCall} (hfile : FileId.IsOwner file)
    (hother : FileId.IsOwner other) (hne : file ≠ other) (hu : u ∈ (a.fragment file).unresolved) :
    u.siteId ≠ c.siteId other := by
  intro hsite
  obtain ⟨c', _, _, rfl⟩ := exists_call_of_mem_unresolved hu
  have howner := congrArg owningFile (UnresolvedCall.ofIndex_inj hsite).1
  rw [owningFile_nodeId hfile, owningFile_nodeId hother] at howner
  exact hne howner

theorem ofArtifacts_pair (a b : Artifact) :
    Fragment.ofArtifacts [a, b] = (a.fragment a.file.id).append (b.fragment b.file.id) := by
  simp [Fragment.ofArtifacts, Fragment.append]

/-- Every call of an artifact is one of the bound artifact, with the definition of its outcome. -/
theorem exists_bound (builtins : List String) {c : NumberedCall} (hc : c ∈ a.numberedCalls) :
    ∃ enclosing, ⟨c.caller, c.index, bindCall (Scope.ofArtifact a builtins) enclosing c.call⟩ ∈
      (a.resolve builtins).numberedCalls := by
  rw [numberedCalls, callsByCaller_eq] at hc
  obtain ⟨s, _, _, hcall, hmem⟩ := NumberedCall.mem_number_map
    (fun s => bindCall (Scope.ofArtifact a builtins) s.enclosing s.call) hc
  rw [← callsByCaller_resolve] at hmem
  exact ⟨s.enclosing, hcall ▸ hmem⟩

/--
Let a file import a name of another one under a local name that has no dot, that no later import
binds and that is no entity of the file. Then every call of the local name is an edge to the node
that the other file has for the name, and the call is not recorded as unresolved.
-/
theorem imported_calls_linked (a b : Artifact) (builtins : List String)
    {before after : List Import} {i : Import} {firsts rest : List ImportedName} {n : ImportedName}
    {l : String} (hfile : a.file.id ≠ b.file.id) (himports : b.imports = before ++ i :: after)
    (hbinds : i.reexport = false) (htarget : i.target? b.file.id b.file.root? = some a.file.id)
    (hnames : i.names = firsts ++ n :: rest) (hstar : n.name ≠ "*") (hdefault : n.name ≠ "default")
    (hlocal : n.localName? = some l) (hdot : '.' ∉ l.toList)
    (hrest : ∀ m ∈ rest, m.localName? ≠ some l)
    (hafter : ∀ j ∈ after, j.reexport = false → ∀ m ∈ j.names, m.localName? ≠ some l)
    (hown : l ∉ b.qualifiedNames) (hthere : n.name ∈ a.qualifiedNames) :
    (∃ m ∈ (Fragment.ofArtifacts [a, b.resolve builtins]).entityNodes,
      m.fileId = a.file.id ∧ m.id = nodeId a.file.id n.name) ∧
    ∀ c ∈ b.numberedCalls, c.call.callee = l →
      ⟨nodeId b.file.id c.caller, nodeId a.file.id n.name, .call⟩ ∈
        (Fragment.ofArtifacts [a, b.resolve builtins]).callEdges ∧
      (∀ u ∈ ((b.resolve builtins).fragment b.file.id).unresolved,
        u.siteId ≠ c.siteId b.file.id) ∧
      (FileId.IsOwner a.file.id → FileId.IsOwner b.file.id →
        ∀ u ∈ (Fragment.ofArtifacts [a, b.resolve builtins]).unresolved,
          u.siteId ≠ c.siteId b.file.id) := by
  have hbfile : (b.resolve builtins).file.id = b.file.id := rfl
  rw [ofArtifacts_pair, hbfile]
  refine ⟨?_, fun c hc hcallee => ?_⟩
  · obtain ⟨m, hm, hid⟩ := exists_entityNode a.file.id (mem_entityIds hthere)
    refine ⟨m, ?_, ?_, hid⟩
    · rw [Fragment.entityNodes, Fragment.append, List.filter_append]
      exact List.mem_append_left _ hm
    · rw [entityNodes_fragment] at hm
      obtain ⟨ie, _, rfl⟩ := List.mem_map.mp hm
      exact fileId_entityNode a.file.id ie.1 ie.2
  · have hnot : (Scope.ofArtifact b builtins).defines l = false := by
      rw [Bool.eq_false_iff]
      exact fun hdefines => hown (Scope.mem_qualifiedNames_of_defines hdefines)
    have hbound : (Scope.ofArtifact b builtins).binding? l =
        some ⟨n.name, i.source, i.target? b.file.id b.file.root?⟩ :=
      Scope.binding?_eq_some himports hbinds hnames hlocal hrest hafter
    obtain ⟨enclosing, hmem⟩ := exists_bound builtins hc
    have hresolve : (Scope.ofArtifact b builtins).resolve enclosing c.call =
        .imported ⟨a.file.id, n.name⟩ := by
      subst hcallee
      exact Scope.resolve_plain enclosing hdot hnot hbound htarget hstar hdefault
    have hdefinition : (bindCall (Scope.ofArtifact b builtins) enclosing c.call).definition =
        some ⟨a.file.id, n.name⟩ := by
      rw [bindCall, hresolve, Resolution.definition?]
    have hsite : ∀ u ∈ ((b.resolve builtins).fragment b.file.id).unresolved,
        u.siteId ≠ NumberedCall.siteId b.file.id ⟨c.caller, c.index, _⟩ := fun u hu =>
      siteId_ne_of_definition hmem (Option.isSome_iff_exists.mpr ⟨_, hdefinition⟩) hu
    refine ⟨List.mem_append_right _ ?_, hsite, fun ha hb u hu => ?_⟩
    · refine mem_callEdges.mpr ⟨c.caller, _, _, ?_, hdefinition, rfl⟩
      rw [← map_numberedCalls]
      exact List.mem_map.mpr ⟨_, hmem, rfl⟩
    · rcases List.mem_append.mp hu with hu | hu
      · exact siteId_ne_of_file ha hb hfile hu
      · exact hsite u hu

/-- A file that defines a name twice. -/
def library : Artifact where
  file := { id := "lib.ts", path := "/w/lib.ts", language := "typescript" }
  entities :=
    [{ id := "help", name := "help", kind := .function, span := ⟨1, 2⟩ },
     { id := "help@3", name := "help", kind := .function, span := ⟨3, 4⟩ }]

theorem imported_calls_linked_overloaded :
    (∃ m ∈ (Fragment.ofArtifacts [library, overloaded.resolve ["parseInt"]]).entityNodes,
      m.id = "lib.ts::help") ∧
    ⟨"src/a.ts::C.m", "lib.ts::help", .call⟩ ∈
      (Fragment.ofArtifacts [library, overloaded.resolve ["parseInt"]]).callEdges := by
  have hlinked := @imported_calls_linked library overloaded ["parseInt"] []
    [{ source := "./other", names := [{ name := "help" }], reexport := true }]
    { source := "../lib", names := [{ name := "help" }] } [] [] { name := "help" } "help"
    (by decide) rfl rfl (by decide +kernel) rfl (by decide) (by decide) rfl (by decide) (by simp)
    (by simp) (by decide +kernel) (by decide +kernel)
  obtain ⟨⟨m, hm, _, hid⟩, hcalls⟩ := hlinked
  have hc : ⟨"C.m", 1, { callee := "help", kind := .function }⟩ ∈ overloaded.numberedCalls := by
    have hids : overloaded.entityIds = ["C", "C.n", "C.n@4", "C.m"] := by decide +kernel
    rw [numberedCalls, callsByCaller, hids]
    exact List.mem_cons_of_mem _ List.mem_cons_self
  exact ⟨⟨m, hm, hid⟩, (hcalls _ hc rfl).1⟩

end Artifact

end SourceGraph
