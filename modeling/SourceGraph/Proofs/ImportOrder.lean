import SourceGraph.Proofs.Linking

/-!
# Imports that do not matter

A name of the own file hides an imported one, so what is bound within the file does not depend on
the imports. All other calls are bound through the table of imported names, in which a later import
overwrites an earlier one and a re-export binds nothing. As long as no two imports bind the same
name, the table is the same for every order of the imports.

* `Scope.ownName?`, `Scope.resolve_eq`: the two parts of the binding of a call, in its own file and
  beyond it.
* `Scope.binding?_eq_some_iff`: the table of imported names, when no name is bound twice.
* `Artifact.SameCode`: descriptions that differ in their imports only.
* `Artifact.resolve_of_sameCode`: which changes of the imports leave the binding of calls alone.
-/

set_option autoImplicit false

namespace SourceGraph

/-! ## Tables -/

theorem lookup_flatMap_eq_some_iff {ι β : Type} {f : ι → List (String × β)} {is : List ι}
    (hdisjoint : is.Pairwise fun i j => ∀ x ∈ f i, ∀ y ∈ f j, x.1 ≠ y.1) {l : String} {b : β} :
    (is.flatMap f).lookup l = some b ↔ ∃ i ∈ is, (f i).lookup l = some b := by
  induction is with
  | nil => simp
  | cons i is ih =>
    obtain ⟨hfirst, hrest⟩ := List.pairwise_cons.mp hdisjoint
    rw [List.flatMap_cons, List.lookup_append, Option.or_eq_some_iff, ih hrest]
    simp only [List.mem_cons, exists_eq_or_imp]
    refine or_congr_right (and_iff_right_of_imp ?_)
    rintro ⟨j, hj, hb⟩
    -- the name stands in a later table, so it does not stand in the first one
    rw [List.lookup_eq_none_iff]
    intro x hx
    have hne := hfirst j hj x hx _ (mem_of_lookup_eq_some hb)
    simpa using Ne.symm hne

/-! ## The two parts of the binding -/

namespace Scope

variable {s t : Scope} {enclosing : Option String} {c : CallSite}

/-- The name in the own file that a call means, if there is one. -/
def ownName? (s : Scope) (enclosing : Option String) (c : CallSite) : Option String :=
  (s.ownMember? enclosing c).or ([c.callee, c.base].find? s.defines)

/-- What a call is bound to that means nothing in its own file. -/
def resolveBeyond (s : Scope) (c : CallSite) : Resolution :=
  match s.binding? c.base with
  | some b =>
    match b.target with
    | some target => .imported ⟨target, nameThere b c⟩
    | none => .unresolved
  | none => if s.builtins.contains c.base then .builtin (.builtin c.callee) else .unresolved

theorem resolve_eq (s : Scope) (enclosing : Option String) (c : CallSite) :
    s.resolve enclosing c = (s.ownName? enclosing c).elim (s.resolveBeyond c) fun name =>
      .local ⟨s.file, name⟩ := by
  unfold resolve ownName?
  cases s.ownMember? enclosing c with
  | some name => rfl
  | none =>
    rw [Option.none_or, List.find?_cons, List.find?_cons, List.find?_nil]
    cases s.defines c.callee with
    | true => rfl
    | false => cases s.defines c.base <;> rfl

theorem resolveBeyond_ne_local (s : Scope) (c : CallSite) (d : Definition) :
    s.resolveBeyond c ≠ .local d := by
  unfold resolveBeyond
  split
  · split <;> simp
  · split <;> simp

theorem resolve_eq_local_iff {d : Definition} : s.resolve enclosing c = .local d ↔
    d.file = s.file ∧ s.ownName? enclosing c = some d.name := by
  rw [resolve_eq]
  cases s.ownName? enclosing c with
  | none => simp [resolveBeyond_ne_local]
  | some name =>
    obtain ⟨file, name'⟩ := d
    simp [eq_comm]

theorem ownName?_congr (h : s.locals = t.locals) (enclosing : Option String) (c : CallSite) :
    s.ownName? enclosing c = t.ownName? enclosing c := by
  have hdefines : s.defines = t.defines := by
    funext name
    rw [defines, defines, local?, local?, h]
  simp only [ownName?, ownMember?, hdefines]

theorem resolveBeyond_congr (hbindings : ∀ l, s.binding? l = t.binding? l)
    (hbuiltins : s.builtins = t.builtins) (c : CallSite) :
    s.resolveBeyond c = t.resolveBeyond c := by
  rw [resolveBeyond, resolveBeyond, hbindings, hbuiltins]

end Scope

/-! ## Imported names -/

/-- The names that an import binds unless it is a re-export. -/
def Import.localNames (i : Import) : List String := i.names.filterMap (·.localName?)

namespace Artifact

/-- The imports that bind names. -/
def binders (a : Artifact) : List Import := a.imports.filter (!·.reexport)

/-- No two imports bind the same name. -/
def BindsDisjointly (a : Artifact) : Prop :=
  a.binders.Pairwise fun i j => i.localNames.Disjoint j.localNames

end Artifact

namespace Scope

variable {a : Artifact} {builtins : List String}

/-- Re-exports bind nothing. -/
theorem flatMap_bindingsOf (importer : String) (root : Option String) (is : List Import) :
    is.flatMap (bindingsOf importer root) =
      (is.filter (!·.reexport)).flatMap (bindingsOf importer root) := by
  induction is with
  | nil => rfl
  | cons i is ih =>
    cases hi : i.reexport with
    | true =>
      rw [List.filter_cons_of_neg (by simp [hi]), List.flatMap_cons, ih, bindingsOf, if_pos hi,
        List.nil_append]
    | false => rw [List.filter_cons_of_pos (by simp [hi]), List.flatMap_cons, ih, List.flatMap_cons]

theorem bindings_ofArtifact (a : Artifact) (builtins : List String) :
    (ofArtifact a builtins).bindings = a.binders.reverse.flatMap fun i =>
      (bindingsOf a.file.id a.file.root? i).reverse := by
  rw [ofArtifact, flatMap_bindingsOf, List.reverse_flatMap]
  rfl

/-- When no name is bound twice, the place of an import does not matter. -/
theorem binding?_eq_some_iff (h : a.BindsDisjointly) {l : String} {b : Binding} :
    (ofArtifact a builtins).binding? l = some b ↔
      ∃ i ∈ a.binders, (bindingsOf a.file.id a.file.root? i).reverse.lookup l = some b := by
  rw [binding?, bindings_ofArtifact, lookup_flatMap_eq_some_iff]
  · simp only [List.mem_reverse]
  · rw [List.pairwise_reverse]
    refine List.Pairwise.imp (fun {i j} hij x hx y hy hxy => ?_) h
    obtain ⟨_, m, hm, hname⟩ := fst_of_mem_bindingsOf (List.mem_reverse.mp hx)
    obtain ⟨_, n, hn, hname'⟩ := fst_of_mem_bindingsOf (List.mem_reverse.mp hy)
    refine hij (List.mem_filterMap.mpr ⟨n, hn, hname'⟩) (List.mem_filterMap.mpr ⟨m, hm, ?_⟩)
    rw [hname, hxy]

end Scope

namespace Artifact

/-- The artifacts describe the same file and the same calls in it; their imports may differ. -/
structure SameCode (a a' : Artifact) : Prop where
  file : a.file = a'.file
  entities : a.entities = a'.entities
  moduleCalls : a.moduleCalls = a'.moduleCalls

namespace SameCode

variable {a a' : Artifact} {builtins : List String}

theorem qualifiedName (h : a.SameCode a') : a.qualifiedName = a'.qualifiedName := by
  funext e
  simp only [Artifact.qualifiedName, owner?, h.entities]

theorem enclosingClass? (h : a.SameCode a') : a.enclosingClass? = a'.enclosingClass? := by
  funext e
  rw [Artifact.enclosingClass?, Artifact.enclosingClass?, h.qualifiedName]

theorem scopeFile (h : a.SameCode a') :
    (Scope.ofArtifact a builtins).file = (Scope.ofArtifact a' builtins).file :=
  congrArg FileIdentity.id h.file

theorem ownName? (h : a.SameCode a') (enclosing : Option String) (c : CallSite) :
    (Scope.ofArtifact a builtins).ownName? enclosing c =
      (Scope.ofArtifact a' builtins).ownName? enclosing c := by
  refine Scope.ownName?_congr ?_ enclosing c
  simp only [Scope.ofArtifact, h.entities, h.qualifiedName]

theorem binding?_of_perm (h : a.SameCode a') (hdisjoint : a.BindsDisjointly)
    (hperm : a'.binders.Perm a.binders) (l : String) :
    (Scope.ofArtifact a builtins).binding? l = (Scope.ofArtifact a' builtins).binding? l := by
  have hdisjoint' : a'.BindsDisjointly :=
    hperm.symm.pairwise hdisjoint fun hij => List.disjoint_symm hij
  refine Option.ext fun b => ?_
  rw [Scope.binding?_eq_some_iff hdisjoint, Scope.binding?_eq_some_iff hdisjoint', h.file]
  simp only [hperm.mem_iff]

theorem resolve_of_perm (h : a.SameCode a') (hdisjoint : a.BindsDisjointly)
    (hperm : a'.binders.Perm a.binders) :
    (Scope.ofArtifact a builtins).resolve = (Scope.ofArtifact a' builtins).resolve := by
  funext enclosing c
  rw [Scope.resolve_eq, Scope.resolve_eq, h.ownName?, h.scopeFile,
    Scope.resolveBeyond_congr (h.binding?_of_perm hdisjoint hperm) rfl]

theorem bindCall_of_perm (h : a.SameCode a') (hdisjoint : a.BindsDisjointly)
    (hperm : a'.binders.Perm a.binders) :
    bindCall (Scope.ofArtifact a builtins) = bindCall (Scope.ofArtifact a' builtins) := by
  funext enclosing c
  rw [bindCall, bindCall, h.resolve_of_perm hdisjoint hperm]

end SameCode

/--
Let two descriptions of a file differ in their imports only. If no two imports bind the same name,
then the imports may change places, and re-exports may come, go and change places as well: every
call is bound to the same definition, and the outcomes are the same in number. Whatever the imports
are, a call that is bound within the file is bound to the same definition of the file.
-/
theorem resolve_of_sameCode {a a' : Artifact} (h : a.SameCode a') (builtins : List String) :
    (a.BindsDisjointly → a'.binders.Perm a.binders →
      (a.resolve builtins).entities = (a'.resolve builtins).entities ∧
      (a.resolve builtins).moduleCalls = (a'.resolve builtins).moduleCalls ∧
      a.tally builtins = a'.tally builtins) ∧
    ∀ (e : Option Entity) (c : CallSite) (d : Definition),
      (Scope.ofArtifact a builtins).resolve (e.bind a.enclosingClass?) c = .local d →
        (Scope.ofArtifact a' builtins).resolve (e.bind a'.enclosingClass?) c = .local d := by
  refine ⟨fun hdisjoint hperm => ?_, fun e c d hlocal => ?_⟩
  · refine ⟨?_, ?_, ?_⟩
    · rw [resolve, resolve, h.entities]
      refine List.map_congr_left fun e _ => ?_
      rw [bindEntity, bindEntity, h.enclosingClass?, h.bindCall_of_perm hdisjoint hperm]
    · rw [resolve, resolve, h.moduleCalls, h.bindCall_of_perm hdisjoint hperm]
    · rw [tally, tally, resolutions, resolutions, h.entities, h.moduleCalls, h.enclosingClass?,
        h.resolve_of_perm hdisjoint hperm]
  · rw [Scope.resolve_eq_local_iff] at hlocal ⊢
    rwa [← h.enclosingClass?, ← h.ownName?, ← h.scopeFile]

/-- A file that imports a whole module, a renamed name and a name that it defines itself. -/
def shadowing : Artifact where
  file := { id := "src/m.ts", path := "/w/src/m.ts", language := "typescript" }
  imports :=
    [{ source := "./x", names := [{ name := "*", renamed := some "ns" }] },
     { source := "./y", names := [{ name := "b", renamed := some "c" }, { name := "*" }] },
     { source := "./z", names := [{ name := "c" }], reexport := true },
     { source := "./w", names := [{ name := "f" }] }]
  entities :=
    [{ id := "f", name := "f", kind := .function, span := ⟨1, 9⟩
       calls := [{ callee := "ns.go", kind := .method }, { callee := "c", kind := .function },
         { callee := "f", kind := .function }, { callee := "b", kind := .function }] }]

theorem resolve_of_sameCode_shadowing :
    let reversed := { shadowing with imports := shadowing.binders.reverse }
    let bare := { shadowing with imports := [] }
    (shadowing.resolve []).entities.flatMap (·.calls.map (·.definition)) =
      [some ⟨"src/x.ts", "go"⟩, some ⟨"src/y.ts", "b"⟩, some ⟨"src/m.ts", "f"⟩, none] ∧
    (shadowing.resolve []).entities = (reversed.resolve []).entities ∧
    (Scope.ofArtifact bare []).resolve none { callee := "f", kind := .function } =
      .local ⟨"src/m.ts", "f"⟩ := by
  intro reversed bare
  have hdisjoint : shadowing.BindsDisjointly := by
    simp [BindsDisjointly, binders, shadowing, Import.localNames, ImportedName.localName?]
  have hperm : reversed.binders.Perm shadowing.binders := by decide +kernel
  refine ⟨by decide +kernel, ?_, ?_⟩
  · exact ((@resolve_of_sameCode shadowing reversed ⟨rfl, rfl, rfl⟩ []).1 hdisjoint hperm).1
  · exact (@resolve_of_sameCode shadowing bare ⟨rfl, rfl, rfl⟩ []).2 none _ _ (by decide +kernel)

end Artifact

end SourceGraph
