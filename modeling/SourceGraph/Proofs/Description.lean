import SourceGraph.Proofs.Runs

/-!
# Descriptions under other spellings

The imports of a file that is described from its text never lead to an absolute path, so none of
them is resolved by the root that the path of the file implies. The fragment of the file therefore
depends on its id and its text, and not on the spelling of its path.

* `Import.IsRootless`: imports whose target does not depend on the root.
* `Script.isRootless_findings`, `Python.isRootless_imports`: the imports in a text are such.
* `Artifact.fragment_withPath`: the fragment of an artifact with another path.
* `Workspace.index_congr`: a file is put into the graphs in the same way under other spellings.
-/

set_option autoImplicit false

namespace SourceGraph

/-! ## Imports -/

/-- The import does not state an absolute path. -/
def Import.IsRootless (i : Import) : Prop :=
  ∀ stated ∈ i.resolvedPath, Text.begins "." (Text.replaceChar '\\' '/' stated) = true

theorem Import.IsRootless.target? {i : Import} (h : i.IsRootless) (importer : String)
    (root root' : Option String) : i.target? importer root = i.target? importer root' := by
  rw [Import.target?, Import.target?]
  cases hpath : i.resolvedPath with
  | none => rfl
  | some stated => simp only [Import.statedTarget?, h stated hpath, if_true]

namespace Script

variable {source : List Char}

/-- The imports do not state absolute paths. -/
def Findings.IsRootless (f : Findings) : Prop := ∀ i ∈ f.imports, i.IsRootless

theorem Findings.IsRootless.append {f g : Findings} (hf : f.IsRootless) (hg : g.IsRootless) :
    (f.append g).IsRootless := by
  intro i hi
  exact (List.mem_append.mp hi).elim (hf i) (hg i)

theorem Findings.IsRootless.concat {fs : List Findings} (h : ∀ f ∈ fs, f.IsRootless) :
    (Findings.concat fs).IsRootless := by
  induction fs with
  | nil => simp [Findings.concat, IsRootless]
  | cons f fs ih =>
    obtain ⟨hf, hfs⟩ := List.forall_mem_cons.mp h
    exact hf.append (ih hfs)

theorem isRootless_importStatement (t : SyntaxTree) : (importStatement source t).IsRootless := by
  fun_cases importStatement source t <;> simp [Findings.IsRootless, Import.IsRootless]

theorem isRootless_declarator (keyword : String) (isExported : Bool) (t : SyntaxTree) :
    (declarator source keyword isExported t).IsRootless := by
  fun_cases declarator source keyword isExported t <;>
    simp [Findings.IsRootless, Import.IsRootless]

theorem isRootless_expression (t : SyntaxTree) : (expression source t).IsRootless := by
  fun_cases expression source t <;> simp [Findings.IsRootless, Import.IsRootless]

theorem isRootless_exportList (t : SyntaxTree) : (exportList source t).IsRootless := by
  fun_cases exportList source t
  · simp [Findings.IsRootless]
  · cases t.child? "value" with
    | none => simp [Findings.IsRootless]
    | some value =>
      rw [Option.elim_some]
      fun_cases defaultExport source value <;> simp [Findings.IsRootless]

mutual

theorem isRootless_statement (isExported : Bool) :
    ∀ t : SyntaxTree, (statement source isExported t).IsRootless
  | .mk kind named field start stop children => by
    have hempty : ∀ f : Findings, f.imports = [] → f.IsRootless := by
      intro f hf
      simp [Findings.IsRootless, hf]
    rw [statement]
    dsimp only
    split
    · exact isRootless_importStatement _
    split
    · split
      · simp [Findings.IsRootless, Import.IsRootless, reexport]
      · split
        · rename_i found hfound
          exact (hempty _ rfl).append (isRootless_declared? children found hfound)
        · exact (hempty _ rfl).append (isRootless_exportList _)
    split
    · exact hempty _ rfl
    split
    · exact hempty _ rfl
    split
    · exact .concat (List.forall_mem_map.mpr fun t _ => isRootless_declarator _ _ t)
    split
    · exact isRootless_expression _
    split
    · exact hempty _ rfl
    · exact hempty _ rfl

theorem isRootless_declared? :
    ∀ (ts : List SyntaxTree) (f : Findings), declared? source ts = some f → f.IsRootless
  | [], _, h => by simp [declared?] at h
  | t :: ts, f, h => by
    rw [declared?] at h
    split at h
    · cases h
      exact isRootless_statement true t
    · exact isRootless_declared? ts f h

end

theorem isRootless_findings (root : SyntaxTree) : (findings source root).IsRootless :=
  .concat (List.forall_mem_map.mpr fun t _ => isRootless_statement false t)

end Script

namespace Python

variable {source : List Char}

theorem begins_levels (dots : Nat) (rest : String) :
    Text.begins "." (Text.replaceChar '\\' '/' (levels dots ++ rest)) = true := by
  have hlevels : ∃ cs, (levels dots).toList = '.' :: cs := by
    rw [levels]
    split
    · exact ⟨['/'], rfl⟩
    · rename_i hdots
      obtain ⟨n, hn⟩ := Nat.exists_eq_succ_of_ne_zero (n := dots - 1) (by omega)
      rw [hn, List.replicate_succ]
      simp [String.join_cons]
  obtain ⟨cs, hcs⟩ := hlevels
  simp [Text.begins, Text.replaceChar, hcs]

theorem isRootless_plainImport {t : SyntaxTree} {i : Import} (h : i ∈ plainImport source t) :
    i.IsRootless := by
  obtain ⟨n, -, hn⟩ := List.mem_filterMap.mp h
  split at hn
  · cases hn
    simp [Import.IsRootless, wholeModule]
  · split at hn
    · obtain ⟨names, -, rfl⟩ := Option.map_eq_some_iff.mp hn
      simp [Import.IsRootless, wholeModule]
    · cases hn

theorem isRootless_relativeImport {module : String} {names : List ImportedName} {line : Nat}
    {i : Import} (h : i ∈ relativeImport module names line) : i.IsRootless := by
  unfold relativeImport at h
  dsimp only at h
  split at h
  · rw [List.mem_singleton.mp h]
    rintro stated ⟨⟩
    exact begins_levels _ _
  · obtain ⟨n, -, rfl⟩ := List.mem_map.mp h
    rintro stated ⟨⟩
    exact begins_levels _ _

theorem isRootless_imports (root : SyntaxTree) : ∀ i ∈ imports source root, i.IsRootless := by
  intro i hi
  obtain ⟨t, -, hi⟩ := List.mem_flatMap.mp hi
  split at hi
  · exact isRootless_plainImport hi
  split at hi
  · unfold fromImport at hi
    split at hi
    · simp at hi
    dsimp only at hi
    split at hi
    · exact isRootless_relativeImport hi
    · rw [List.mem_singleton.mp hi]
      simp [Import.IsRootless]
  · simp at hi

end Python

/-! ## Fragments -/

namespace Artifact

variable {a : Artifact}

/-- The artifact with another path of its file. -/
def withPath (a : Artifact) (path : String) : Artifact := { a with file := { a.file with path } }

theorem scope_withPath (h : ∀ i ∈ a.imports, i.IsRootless) (path : String)
    (builtins : List String) :
    Scope.ofArtifact (a.withPath path) builtins = Scope.ofArtifact a builtins := by
  have hbindings : a.imports.flatMap (Scope.bindingsOf a.file.id (a.withPath path).file.root?) =
      a.imports.flatMap (Scope.bindingsOf a.file.id a.file.root?) := by
    refine List.flatMap_congr fun i hi => ?_
    rw [Scope.bindingsOf, Scope.bindingsOf, (h i hi).target? _ _ a.file.root?]
  exact congrArg (fun bindings => (⟨a.file.id, a.entities.map fun e => (a.qualifiedName e, e.id),
    bindings.reverse, builtins⟩ : Scope)) hbindings

theorem resolve_withPath (h : ∀ i ∈ a.imports, i.IsRootless) (path : String)
    (builtins : List String) :
    (a.withPath path).resolve builtins = (a.resolve builtins).withPath path := by
  rw [resolve, resolve, scope_withPath h]
  rfl

theorem fragment_withPath (h : ∀ i ∈ a.imports, i.IsRootless) (path file : String) :
    (a.withPath path).fragment file = a.fragment file := by
  have htargets : (a.withPath path).importTargets file = a.importTargets file := by
    have hfound : a.imports.filterMap (·.target? file (a.withPath path).file.root?) =
        a.imports.filterMap (·.target? file a.file.root?) :=
      List.filterMap_congr fun i hi => (h i hi).target? file _ _
    exact congrArg (fun found => (found.filter (· ≠ file)).eraseDups) hfound
  rw [fragment, fragment, htargets]
  rfl

/-- The fragment of an artifact with its calls bound does not depend on its path. -/
theorem fragment_resolve_withPath (h : ∀ i ∈ a.imports, i.IsRootless) (path file : String)
    (builtins : List String) :
    ((a.withPath path).resolve builtins).fragment file = (a.resolve builtins).fragment file := by
  rw [resolve_withPath h]
  exact fragment_withPath (a := a.resolve builtins) h path file

end Artifact

theorem Script.fragment_artifact (file : FileIdentity) (path id : String) (source : List Char)
    (root : SyntaxTree) :
    (artifact { file with path } source root).fragment id =
      (artifact file source root).fragment id :=
  Artifact.fragment_resolve_withPath (a := (describe file (findings source root)).withEntityIds)
    (isRootless_findings root) path id Language.scriptBuiltins

theorem Python.fragment_artifact (file : FileIdentity) (path id : String) (source : List Char)
    (root : SyntaxTree) :
    (artifact { file with path } source root).fragment id =
      (artifact file source root).fragment id := by
  have hmoved : ∀ f : Findings, describe { file with path } (imports source root) f =
      (describe file (imports source root) f).withPath path := by
    intro f
    unfold describe
    split <;> rfl
  have hrootless : ∀ f : Findings, ∀ i ∈ (describe file (imports source root) f).imports,
      i.IsRootless := by
    intro f i hi
    unfold describe at hi
    split at hi <;> exact isRootless_imports root i hi
  rw [artifact, artifact, hmoved]
  exact Artifact.fragment_resolve_withPath
    (a := (describe file (imports source root) (findings source root)).withEntityIds)
    (hrootless _) path id Language.pythonBuiltins

/-- The fragment of a text does not depend on the path of its file. -/
theorem Language.fragment_artifact? (l : Language) (g : Grammar) (file : FileIdentity)
    (path text id : String) :
    (l.artifact? g { file with path } text).map (·.fragment id) =
      (l.artifact? g file text).map (·.fragment id) := by
  rw [artifact?, artifact?, Option.map_map, Option.map_map]
  refine Option.map_congr fun root _ => ?_
  cases l with
  | python => exact Python.fragment_artifact file path id text.toList root
  | typescript => exact Script.fragment_artifact file path id text.toList root
  | tsx => exact Script.fragment_artifact file path id text.toList root
  | javascript => exact Script.fragment_artifact file path id text.toList root

/-! ## Files -/

theorem FileId.ofPath?_congr {root p q : Path} (h : p.components = q.components) :
    ofPath? root p = ofPath? root q := by
  rw [ofPath?, ofPath?, Path.relativeTo?, Path.relativeTo?, h]

theorem Disk.readText_congr {d : Disk} {p q : Path}
    (h : (d.read p).toOption = (d.read q).toOption) :
    (∃ text, d.readText p = .ok text ∧ d.readText q = .ok text) ∨
      ∃ f g, d.readText p = .error f ∧ d.readText q = .error g := by
  rw [readText, readText]
  cases hp : d.read p with
  | error f =>
    cases hq : d.read q with
    | error g => exact Or.inr ⟨f, g, rfl, rfl⟩
    | ok content => simp [hp, hq, Except.toOption] at h
  | ok content =>
    cases hq : d.read q with
    | error g => simp [hp, hq, Except.toOption] at h
    | ok content' =>
      obtain rfl : content = content' := by simpa [hp, hq, Except.toOption] using h
      cases htext : String.fromUTF8? content with
      | none => exact Or.inr ⟨.notText, .notText, by simp [bind, Except.bind, htext]⟩
      | some text => exact Or.inl ⟨text, by simp [bind, Except.bind, htext]⟩

/-- A file is described in the same way under spellings that are read in the same way. -/
theorem Workspace.index_congr {k : Toolkit} {d : Disk} {w : Workspace} {p q : Path}
    (h : p.components = q.components) (hread : (d.read p).toOption = (d.read q).toOption) :
    w.index k d p = w.index k d q := by
  have hlanguage : Language.among? w.languages p = Language.among? w.languages q := by
    rw [Language.among?, Language.among?, Path.extension?_congr h]
  have hid : FileId.ofPath? w.root p = FileId.ofPath? w.root q := FileId.ofPath?_congr h
  simp only [index, describe, extract, identify, hlanguage, hid]
  cases Language.among? w.languages q with
  | none => cases FileId.ofPath? w.root q <;> rfl
  | some l =>
    cases FileId.ofPath? w.root q with
    | none => rfl
    | some id =>
      rcases Disk.readText_congr hread with ⟨text, hp, hq⟩ | ⟨f, g, hp, hq⟩
      · -- the artifacts differ in their paths, which the fragments do not show
        have hfragment := l.fragment_artifact? (k.grammars l) ⟨id, q.normalized, l.id⟩
          p.normalized text id
        simp only [hp, hq, Except.mapError, bind, Except.bind]
        generalize l.artifact? (k.grammars l) ⟨id, p.normalized, l.id⟩ text = a at hfragment ⊢
        generalize l.artifact? (k.grammars l) ⟨id, q.normalized, l.id⟩ text = b at hfragment ⊢
        cases a with
        | none =>
          rw [Option.map_none, eq_comm, Option.map_eq_none_iff] at hfragment
          rw [hfragment]
        | some a =>
          rw [Option.map_some, eq_comm, Option.map_eq_some_iff] at hfragment
          obtain ⟨b, rfl, hfragment⟩ := hfragment
          simp only [hfragment]
      · rw [hp, hq]
        rfl

end SourceGraph
