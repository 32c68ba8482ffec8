import SourceGraph.Proofs.Declarations

/-!
# Calls of functions

A function of a script file has the calls of its body, at any depth, and no others: a call in the
default value of a parameter is not recorded. In Python the calls of the parameters are recorded as
well.

* `SyntaxTree.callsIn`: the calls anywhere in some parts of a node.
* `SyntaxTree.callsIn_singleton`: the search through named nodes finds all of them.
* `Artifact.function_calls_complete_iff`: which functions have all their calls.
-/

set_option autoImplicit false

namespace SourceGraph

/-! ## Calls in parts of a node -/

namespace SyntaxTree

variable {f : SyntaxTree → Option CallSite} {t n : SyntaxTree}

/-- The calls anywhere in the children that fill some fields, if `f` tells which call a node is. -/
def callsIn (f : SyntaxTree → Option CallSite) (t : SyntaxTree) (fields : List String) :
    List CallSite :=
  fields.flatMap fun field => (t.child? field).elim [] fun n => n.preorder.filterMap f

theorem callsIn_append (fields fields' : List String) :
    t.callsIn f (fields ++ fields') = t.callsIn f fields ++ t.callsIn f fields' :=
  List.flatMap_append

theorem CallsAreNamed.of_mem (h : t.CallsAreNamed f) (hn : n ∈ t.preorder) :
    n.CallsAreNamed f := fun m hm => h m (mem_preorder_trans hn hm)

theorem callsIn_singleton (h : t.CallsAreNamed f) (field : String) :
    t.callsIn f [field] = (t.child? field).elim [] fun n => n.namedPreorder.filterMap f := by
  rw [callsIn, List.flatMap_singleton]
  cases hn : t.child? field with
  | none => rfl
  | some n => exact (filterMap_namedPreorder n (h.of_mem (mem_preorder_of_child? hn))).symm

end SyntaxTree

/-- Calls are part of some of them only if there are no others. -/
theorem append_le_iff {α : Type} {xs ys : List α} :
    ((xs ++ ys : List α) : Multiset α) ≤ ys ↔ xs = [] := by
  refine ⟨fun h => ?_, fun h => by rw [h, List.nil_append]⟩
  have hlength := (Multiset.coe_le.mp h).length_le
  rw [List.length_append] at hlength
  exact List.length_eq_zero_iff.mp (by omega)

/-! ## Functions -/

/-- What is neither a class nor a constant is a function, which has the calls of its body. -/
theorem Script.exists_function {file : FileIdentity} {source : List Char} {root : SyntaxTree}
    (hroot : root.CallsAreNamed (callOf? source)) {i : Nat} {e : Entity}
    (he : (artifact file source root).entities[i]? = some e) (hclass : e.kind ≠ .classDef)
    (hconst : e.kind ≠ .const) :
    ∃ p f, (places source root)[i]? = some p ∧ Describes source p.2 e ∧ p.2.role = .function f ∧
      e.calls.map CallSite.unbound = f.callsIn (callOf? source) ["body"] := by
  obtain ⟨p, hp, hdescribes⟩ := exists_place he
  have hrole := hdescribes.role
  cases hf : p.2.role with
  | classDef =>
    rw [hf] at hrole
    exact absurd hrole hclass
  | constant =>
    rw [hf] at hrole
    exact absurd hrole hconst
  | function f =>
    rw [hf] at hrole
    have hin : f ∈ root.preorder := (isIn_of_mem_places (List.mem_of_getElem? hp)).function f hf
    refine ⟨p, f, hp, hdescribes, hf, ?_⟩
    rw [SyntaxTree.callsIn_singleton (hroot.of_mem hin)]
    exact hrole.2

/-- A function of a Python file has the calls of its parameters and of its body. -/
theorem Python.callsIn_le_of_mem_functionEntity {source : List Char} {inClass : Bool}
    {wrapper : Option SyntaxTree} {t : SyntaxTree} {e : Entity}
    (ht : t.CallsAreNamed (callOf? source))
    (he : e ∈ functionEntity source inClass wrapper t) :
    (t.callsIn (callOf? source) ["parameters", "body"] : Multiset CallSite) ≤
      e.calls.map CallSite.unbound := by
  have hparts : t.callsIn (callOf? source) ["parameters", "body"] =
      callsAt source t "parameters" ++ callsAt source t "body" := by
    have happend := t.callsIn_append (f := callOf? source) ["parameters"] ["body"]
    rw [SyntaxTree.callsIn_singleton ht, SyntaxTree.callsIn_singleton ht] at happend
    exact happend
  have hunbound : ∀ field, (callsAt source t field).map CallSite.unbound =
      callsAt source t field := fun field => map_unbound_elim unbound_callOf? (t.child? field)
  unfold functionEntity at he
  split at he
  · cases he
  · obtain rfl := List.mem_singleton.mp he
    rw [hparts, Multiset.coe_le, List.append_assoc, List.map_append, List.map_append, hunbound,
      hunbound]
    exact (List.sublist_append_right _ _).subperm

/--
Let no call lie below an unnamed node. Every entity of a script file that is neither a class nor a
constant is made from a function. It has all calls of the body, at any depth, and no other calls; it
has those of the parameters too exactly if the parameters have none. A function in Python always has
them.
-/
theorem Artifact.function_calls_complete_iff (source : List Char) (root : SyntaxTree) :
    (root.CallsAreNamed (Script.callOf? source) →
      ∀ (file : FileIdentity) (i : Nat) (e : Entity),
        (Script.artifact file source root).entities[i]? = some e → e.kind ≠ .classDef →
        e.kind ≠ .const → ∃ p f, (Script.places source root)[i]? = some p ∧ e.name = p.2.name ∧
          e.span = p.2.site.span source ∧ p.2.role = .function f ∧
          e.calls.map CallSite.unbound = f.callsIn (Script.callOf? source) ["body"] ∧
          ((f.callsIn (Script.callOf? source) ["parameters", "parameter", "body"] :
            Multiset CallSite) ≤ e.calls.map CallSite.unbound ↔
              f.callsIn (Script.callOf? source) ["parameters", "parameter"] = [])) ∧
    (root.CallsAreNamed (Python.callOf? source) →
      ∀ (inClass : Bool) (wrapper : Option SyntaxTree) (t : SyntaxTree) (e : Entity),
        t ∈ root.preorder → e ∈ Python.functionEntity source inClass wrapper t →
          (t.callsIn (Python.callOf? source) ["parameters", "body"] : Multiset CallSite) ≤
            e.calls.map CallSite.unbound) := by
  refine ⟨fun hroot file i e he hclass hconst => ?_, fun hroot inClass wrapper t e ht he => ?_⟩
  · obtain ⟨p, f, hp, hdescribes, hf, hbody⟩ := Script.exists_function hroot he hclass hconst
    refine ⟨p, f, hp, hdescribes.name, hdescribes.span, hf, hbody, ?_⟩
    have happend := f.callsIn_append (f := Script.callOf? source) ["parameters", "parameter"]
      ["body"]
    rw [hbody, ← append_le_iff, ← happend]
    rfl
  · exact Python.callsIn_le_of_mem_functionEntity (hroot.of_mem ht) he

/-- The syntax tree of the function `function f(a = g()) { h() }`. -/
def Script.defaulted : SyntaxTree :=
  let call := fun start stop : Nat => (⟨"call_expression", true, none, start, stop,
    [⟨"identifier", true, some "function", start, start + 1, []⟩]⟩ : SyntaxTree)
  ⟨"function_declaration", true, none, 0, 27,
    [⟨"function", false, none, 0, 8, []⟩, ⟨"identifier", true, some "name", 9, 10, []⟩,
      ⟨"formal_parameters", true, some "parameters", 10, 19, [call 15 18]⟩,
      ⟨"statement_block", true, some "body", 20, 27, [call 22 25]⟩]⟩

/-- The syntax tree of a function `f` with a parameter `a=g()`, which calls `h`. -/
def Python.defaulted : SyntaxTree :=
  let call := fun start stop : Nat => (⟨"call", true, none, start, stop,
    [⟨"identifier", true, some "function", start, start + 1, []⟩]⟩ : SyntaxTree)
  ⟨"function_definition", true, none, 0, 18,
    [⟨"def", false, none, 0, 3, []⟩, ⟨"identifier", true, some "name", 4, 5, []⟩,
      ⟨"parameters", true, some "parameters", 5, 12, [call 8 11]⟩,
      ⟨"block", true, some "body", 14, 17, [call 14 17]⟩]⟩

theorem Artifact.function_calls_complete_iff_defaulted :
    let source := "function f(a = g()) \x7b h() \x7d".toList
    let root : SyntaxTree := ⟨"program", true, none, 0, 27, [Script.defaulted]⟩
    root.CallsAreNamed (Script.callOf? source) ∧
    (∃ e, (Script.artifact default source root).entities[0]? = some e ∧
      (Script.defaulted.callsIn (Script.callOf? source) ["parameters", "parameter"]).map
        (·.callee) = ["g"] ∧
      ¬ (Script.defaulted.callsIn (Script.callOf? source) ["parameters", "parameter", "body"] :
        Multiset CallSite) ≤ e.calls.map CallSite.unbound) ∧
    Python.defaulted.CallsAreNamed (Python.callOf? "def f(a=g()): h()".toList) ∧
    ∃ e ∈ Python.functionEntity "def f(a=g()): h()".toList false none Python.defaulted,
      (Python.defaulted.callsIn (Python.callOf? "def f(a=g()): h()".toList)
        ["parameters", "body"] : Multiset CallSite) ≤ e.calls.map CallSite.unbound := by
  intro source root
  have hscript : root.CallsAreNamed (Script.callOf? source) := by
    unfold SyntaxTree.CallsAreNamed
    decide +kernel
  have hpython : Python.defaulted.CallsAreNamed (Python.callOf? "def f(a=g()): h()".toList) := by
    unfold SyntaxTree.CallsAreNamed
    decide +kernel
  have hcallees : (Script.defaulted.callsIn (Script.callOf? source) ["parameters", "parameter"]).map
      (·.callee) = ["g"] := by decide +kernel
  obtain ⟨e, he, hkind⟩ := Option.map_eq_some_iff.mp (by decide +kernel :
    (Script.artifact default source root).entities[0]?.map (·.kind) = some .function)
  obtain ⟨p, f, hp, -, -, hf, -, hiff⟩ :=
    (function_calls_complete_iff source _).1 hscript default 0 e he (by simp [hkind])
      (by simp [hkind])
  have hplace : (Script.places source root)[0]? =
    some (none, ⟨"f", Script.defaulted, .function Script.defaulted⟩) := rfl
  cases hplace.symm.trans hp
  cases hf
  refine ⟨hscript, ⟨e, he, hcallees, fun hle => ?_⟩, hpython, _, List.mem_singleton_self _, ?_⟩
  · rw [hiff.mp hle] at hcallees
    cases hcallees
  · exact (function_calls_complete_iff _ _).2 hpython false none _ _
      (SyntaxTree.self_mem_preorder _) (List.mem_singleton_self _)

end SourceGraph
