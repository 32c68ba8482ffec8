import SourceGraph.Proofs.Linking

/-!
# Calls of the own class

A call through `this`, `self` or `cls` means a member of the class around it. The class is read off
the qualified name of the caller, up to its last dot. This is the class for every caller without a
dot in its own name, whatever the class is called; a name such as `[Symbol.iterator]` is cut in two.

* `CallSite.base_of_dotted`, `CallSite.member?_of_dotted`: the parts of a dotted callee.
* `Artifact.enclosingClass?_of_owner?`: the class that is read off a qualified name.
* `Scope.name_of_resolve`: the names that a call can be bound to without an import.
* `Artifact.self_calls_bind_unless_dotted`: which calls are bound to a member of the own class.
-/

set_option autoImplicit false

namespace SourceGraph

/-! ## Dotted callees -/

namespace CallSite

variable {c : CallSite} {r m : String}

theorem cutFirst_of_dotted (hr : '.' ∉ r.toList) (hcallee : c.callee = r ++ "." ++ m) :
    Text.cutFirst ['.'] c.callee.toList = some (r.toList, m.toList) := by
  have hlist : c.callee.toList = r.toList ++ ['.'] ++ m.toList := by simp [hcallee]
  rw [hlist]
  refine Text.cutFirst_append _ _ _ (by simp) fun hin => hr ?_
  simpa using hin.subset List.mem_cons_self

theorem base_of_dotted (hr : '.' ∉ r.toList) (hcallee : c.callee = r ++ "." ++ m) :
    c.base = r := by
  rw [base, cutFirst_of_dotted hr hcallee, Option.elim_some, String.ofList_toList]

theorem member?_of_dotted (hr : '.' ∉ r.toList) (hcallee : c.callee = r ++ "." ++ m) :
    c.member? = some m := by
  rw [member?, cutFirst_of_dotted hr hcallee, Option.map_some, String.ofList_toList]

end CallSite

/-! ## Outcomes -/

namespace Scope

variable {s : Scope} {enclosing : Option String} {c : CallSite}

/-- Self receivers are plain names. -/
theorem not_mem_selfReceiver {r : String} (h : r ∈ selfReceivers) : '.' ∉ r.toList := by
  revert r
  decide

theorem defines_iff {a : Artifact} {builtins : List String} {name : String} :
    (ofArtifact a builtins).defines name = true ↔ name ∈ a.qualifiedNames := by
  refine ⟨mem_qualifiedNames_of_defines, fun h => ?_⟩
  obtain ⟨e, he, rfl⟩ := List.mem_map.mp h
  rw [defines, local?, ← Option.not_isNone, Bool.not_eq_true', ← Bool.not_eq_true,
    Option.isNone_iff_eq_none, List.lookup_eq_none_iff]
  intro hnone
  simpa using hnone _ (List.mem_map_of_mem he)

/-- A call through a self receiver means the member of that name, if the class has one. -/
theorem ownMember?_of_dotted {cls r m : String} (hr : r ∈ selfReceivers)
    (hcallee : c.callee = r ++ "." ++ m) :
    s.ownMember? (some cls) c =
      if s.defines (cls ++ "." ++ m) then some (cls ++ "." ++ m) else none := by
  have hplain := not_mem_selfReceiver hr
  have hself : selfReceivers.contains r = true := List.contains_iff_mem.mpr hr
  simp only [ownMember?, CallSite.member?_of_dotted hplain hcallee,
    CallSite.base_of_dotted hplain hcallee, hself, Bool.true_and]

/-- A call is bound to its own member, its callee or its base, unless an import binds the base. -/
theorem name_of_resolve {d : Definition} (hbinding : s.binding? c.base = none)
    (h : (s.resolve enclosing c).definition? = some d) :
    s.ownMember? enclosing c = some d.name ∨ d.name = c.callee ∨ d.name = c.base := by
  unfold resolve at h
  split at h
  · rename_i name hown
    cases h
    exact Or.inl hown
  · refine Or.inr ?_
    split at h
    · cases h
      exact Or.inl rfl
    · split at h
      · cases h
        exact Or.inr rfl
      · rw [hbinding] at h
        dsimp only at h
        split at h
        · cases h
          exact Or.inl rfl
        · cases h

/-- A name that no import binds. -/
theorem binding?_eq_none {a : Artifact} {builtins : List String} {l : String}
    (h : ∀ i ∈ a.imports, i.reexport = false → ∀ n ∈ i.names, n.localName? ≠ some l) :
    (ofArtifact a builtins).binding? l = none := by
  rw [binding?, List.lookup_eq_none_iff]
  intro y hy
  obtain ⟨i, hi, hy⟩ := List.mem_flatMap.mp (List.mem_reverse.mp hy)
  obtain ⟨hbinds, n, hn, hname⟩ := fst_of_mem_bindingsOf hy
  have hne : l ≠ y.1 := fun hl => h i hi hbinds n hn (hl ▸ hname)
  simpa using hne

end Scope

/-! ## Classes -/

namespace Artifact

variable {a : Artifact} {e cls : Entity}

theorem qualifiedName_of_owner? (hkind : e.kind ≠ .classDef) (h : a.owner? e = some cls) :
    a.qualifiedName e = cls.name ++ "." ++ e.name := by
  rw [qualifiedName, if_neg hkind, h]

/--
The class that is read off the qualified name of an entity: the class around it, with what stands
before the last dot of its own name.
-/
theorem enclosingClass?_of_owner? (hkind : e.kind ≠ .classDef) (h : a.owner? e = some cls) :
    a.enclosingClass? e = some ((Text.cutLast '.' e.name.toList).elim cls.name fun cut =>
      cls.name ++ "." ++ String.ofList cut.1) := by
  have hname : (a.qualifiedName e).toList = cls.name.toList ++ '.' :: e.name.toList := by
    rw [qualifiedName_of_owner? hkind h]
    simp
  rw [enclosingClass?, if_neg hkind, hname]
  cases hcut : Text.cutLast '.' e.name.toList with
  | none =>
    rw [Text.cutLast_append _ (Text.cutLast_eq_none_iff.mp hcut), Option.map_some,
      String.ofList_toList, Option.elim_none]
  | some cut =>
    obtain ⟨heq, hdot⟩ := Text.cutLast_eq_some hcut
    have hlist : cls.name.toList ++ '.' :: e.name.toList =
        (cls.name.toList ++ '.' :: cut.1) ++ '.' :: cut.2 := by
      rw [heq, List.append_assoc, List.cons_append]
    rw [hlist, Text.cutLast_append _ hdot, Option.map_some, Option.elim_some]
    refine congrArg some (String.toList_injective ?_)
    simp

/-- A call of a file after the binding. -/
theorem getElem?_resolve (builtins : List String) {i j : Nat} {c : CallSite}
    (he : a.entities[i]? = some e) (hc : e.calls[j]? = some c) :
    ∃ e', (a.resolve builtins).entities[i]? = some e' ∧
      e'.calls[j]? =
        some (bindCall (Scope.ofArtifact a builtins) (a.enclosingClass? e) c) := by
  refine ⟨a.bindEntity (Scope.ofArtifact a builtins) e, ?_, ?_⟩
  · rw [resolve, List.getElem?_map, he, Option.map_some]
  · rw [bindEntity, List.getElem?_map, hc, Option.map_some]

section SelfReceivers

variable {builtins : List String} {c : CallSite} {r m : String}

/-- A caller without a dot in its name reaches the members of its class. -/
theorem bindCall_of_plain (hkind : e.kind ≠ .classDef) (hcls : a.owner? e = some cls)
    (hr : r ∈ Scope.selfReceivers) (hcallee : c.callee = r ++ "." ++ m)
    (hmember : cls.name ++ "." ++ m ∈ a.qualifiedNames) (hdot : '.' ∉ e.name.toList) :
    (bindCall (Scope.ofArtifact a builtins) (a.enclosingClass? e) c).definition =
      some ⟨a.file.id, cls.name ++ "." ++ m⟩ := by
  have hdefines : (Scope.ofArtifact a builtins).defines (cls.name ++ "." ++ m) = true :=
    Scope.defines_iff.mpr hmember
  have hown : (Scope.ofArtifact a builtins).ownMember? (a.enclosingClass? e) c =
      some (cls.name ++ "." ++ m) := by
    rw [enclosingClass?_of_owner? hkind hcls, Text.cutLast_eq_none_iff.mpr hdot, Option.elim_none,
      Scope.ownMember?_of_dotted hr hcallee, if_pos hdefines]
  rw [bindCall, Scope.resolve, hown]
  rfl

/-- A caller with a dot in its name is taken for a member of another class. -/
theorem ownMember?_ne_of_dotted (hkind : e.kind ≠ .classDef) (hcls : a.owner? e = some cls)
    (hr : r ∈ Scope.selfReceivers) (hcallee : c.callee = r ++ "." ++ m)
    (hdot : '.' ∈ e.name.toList) :
    (Scope.ofArtifact a builtins).ownMember? (a.enclosingClass? e) c ≠
      some (cls.name ++ "." ++ m) := by
  intro hown
  -- the class that is read off has a longer name than the class around the caller
  obtain ⟨cut, hcut⟩ := Option.ne_none_iff_exists'.mp
    fun hnone => Text.cutLast_eq_none_iff.mp hnone hdot
  rw [enclosingClass?_of_owner? hkind hcls, hcut, Option.elim_some,
    Scope.ownMember?_of_dotted hr hcallee] at hown
  split at hown
  · have hlength := congrArg (fun s : String => s.toList.length) (Option.some.inj hown)
    simp at hlength
    omega
  · cases hown

end SelfReceivers

/--
A call of a member through a self receiver is bound to the member of the class around the caller,
unless the name of the caller has a dot. With a dot it never is, but for a class that is called like
the receiver or an import of the receiver.
-/
theorem self_calls_bind_unless_dotted (a : Artifact) (builtins : List String) {i j : Nat}
    {e cls : Entity} {c : CallSite} {r m : String} (he : a.entities[i]? = some e)
    (hkind : e.kind ≠ .classDef) (hcls : a.owner? e = some cls) (hc : e.calls[j]? = some c)
    (hr : r ∈ Scope.selfReceivers) (hcallee : c.callee = r ++ "." ++ m)
    (hmember : cls.name ++ "." ++ m ∈ a.qualifiedNames) :
    ∃ e' c', (a.resolve builtins).entities[i]? = some e' ∧ e'.calls[j]? = some c' ∧
      ('.' ∉ e.name.toList → c'.definition = some ⟨a.file.id, cls.name ++ "." ++ m⟩) ∧
      ('.' ∈ e.name.toList → cls.name ≠ r →
        (∀ k ∈ a.imports, k.reexport = false → ∀ n ∈ k.names, n.localName? ≠ some r) →
          c'.definition ≠ some ⟨a.file.id, cls.name ++ "." ++ m⟩) := by
  obtain ⟨e', he', hc'⟩ := getElem?_resolve builtins he hc
  have hplain := Scope.not_mem_selfReceiver hr
  refine ⟨e', _, he', hc', bindCall_of_plain hkind hcls hr hcallee hmember,
    fun hdot hname himports hbound => ?_⟩
  have hbinding : (Scope.ofArtifact a builtins).binding? r = none :=
    Scope.binding?_eq_none himports
  rw [← CallSite.base_of_dotted hplain hcallee] at hbinding
  rcases Scope.name_of_resolve hbinding hbound with hown | hwhole | hbase
  · exact ownMember?_ne_of_dotted hkind hcls hr hcallee hdot hown
  · rw [hcallee] at hwhole
    refine hname (String.toList_injective ?_)
    have hlists := congrArg String.toList hwhole
    simpa using hlists
  · rw [CallSite.base_of_dotted hplain hcallee] at hbase
    rw [← hbase] at hplain
    simp at hplain

/-- A class with an iterator and a method, which both call another method of the class. -/
def iterable : Artifact where
  file := { id := "src/c.ts", path := "/w/src/c.ts", language := "typescript" }
  entities :=
    [{ id := "C", name := "C", kind := .classDef, span := ⟨1, 9⟩ },
     { id := "C.[Symbol.iterator]", name := "[Symbol.iterator]", kind := .method, span := ⟨2, 3⟩
       calls := [{ callee := "this.size", kind := .method }] },
     { id := "C.each", name := "each", kind := .method, span := ⟨4, 5⟩
       calls := [{ callee := "this.size", kind := .method }] },
     { id := "C.size", name := "size", kind := .method, span := ⟨6, 8⟩ }]

theorem self_calls_bind_unless_dotted_iterable :
    (∃ e c, (iterable.resolve []).entities[2]? = some e ∧ e.calls[0]? = some c ∧
      c.definition = some ⟨"src/c.ts", "C.size"⟩) ∧
    ∃ e c, (iterable.resolve []).entities[1]? = some e ∧ e.calls[0]? = some c ∧
      c.definition ≠ some ⟨"src/c.ts", "C.size"⟩ := by
  have hmember : "C" ++ "." ++ "size" ∈ iterable.qualifiedNames := by decide +kernel
  obtain ⟨e, c, he, hc, hplain, -⟩ := self_calls_bind_unless_dotted iterable [] (i := 2) (j := 0)
    (r := "this") (m := "size") rfl (by decide) rfl rfl (by decide) (by decide) hmember
  obtain ⟨f, d, hf, hd, -, hdotted⟩ := self_calls_bind_unless_dotted iterable [] (i := 1) (j := 0)
    (r := "this") (m := "size") rfl (by decide) rfl rfl (by decide) (by decide) hmember
  exact ⟨⟨e, c, he, hc, hplain (by decide)⟩,
    f, d, hf, hd, hdotted (by decide) (by decide) (by simp [iterable])⟩

end Artifact

end SourceGraph
