import Mathlib.Data.List.Flatten
import Mathlib.Data.List.Nodup
import SourceGraph.Proofs.Linking
import SourceGraph.Proofs.Ownership

/-!
# Ids of call sites

An unresolved call is known by its caller and its number among the calls of that caller, with a `#`
between them. Calls of entities that share an id are numbered together, so the pair is unique within
a file whatever the entities are called, and over several files as long as the file can be read off
the caller.

* `NumberedCall.siteId_eq_iff`: file, caller and number can be read off the id of a call site.
* `Artifact.siteIds`: the ids of all calls of a file, bound or not.
* `Fragment.siteIds_ofArtifacts`: the ids of the unresolved calls of several files.
* `Fragment.siteIds_nodup`: no two calls have the same id.
-/

set_option autoImplicit false

namespace SourceGraph

namespace NumberedCall

variable {file other : String} {c d : NumberedCall}

/-- File, caller and number can be read off the id of a call site. -/
theorem siteId_eq_iff (hfile : FileId.IsOwner file) (hother : FileId.IsOwner other) :
    c.siteId file = d.siteId other ↔ file = other ∧ c.caller = d.caller ∧ c.index = d.index := by
  constructor
  · intro h
    obtain ⟨hcaller, hindex⟩ := UnresolvedCall.ofIndex_inj h
    have howner := congrArg owningFile hcaller
    rw [owningFile_nodeId hfile, owningFile_nodeId hother] at howner
    subst howner
    exact ⟨rfl, Artifact.nodeId_inj hcaller, hindex⟩
  · rintro ⟨rfl, hcaller, hindex⟩
    rw [siteId, siteId, hcaller, hindex]
    rfl

/-- The id of the record that a call leaves, if it leaves one. -/
theorem siteId_unresolved? (file : String) (c : NumberedCall) :
    (c.unresolved? file).map (·.siteId) =
      if c.call.definition.isNone then some (c.siteId file) else none := by
  unfold unresolved?
  cases c.call.definition <;> rfl

end NumberedCall

namespace Artifact

/-- The ids of all calls of a file, bound or not. -/
def siteIds (a : Artifact) (file : String) : List String := a.numberedCalls.map (·.siteId file)

/-- Within one file the ids differ whatever the file and its entities are called. -/
theorem nodup_siteIds (a : Artifact) (file : String) : (a.siteIds file).Nodup := by
  have hsites := NumberedCall.nodup_sites [] a.callsByCaller
  refine (List.nodup_map_iff_inj_on hsites.of_map).mpr fun c hc d hd hid => ?_
  obtain ⟨hcaller, hindex⟩ := UnresolvedCall.ofIndex_inj hid
  exact List.inj_on_of_nodup_map hsites hc hd (Prod.ext (nodeId_inj hcaller) hindex)

/-- The unresolved calls of a file have the ids of its calls without a definition, in order. -/
theorem siteIds_fragment (a : Artifact) (file : String) :
    (a.fragment file).unresolved.map (·.siteId) =
      (a.numberedCalls.filter (·.call.definition.isNone)).map (·.siteId file) := by
  rw [fragment, List.map_filterMap, ← List.filterMap_eq_map, List.filterMap_filter]
  exact List.filterMap_congr fun c _ => NumberedCall.siteId_unresolved? file c

end Artifact

namespace Fragment

theorem unresolved_foldl (as : List Artifact) (acc : Fragment) :
    (as.foldl (fun acc a => acc.append (a.fragment a.file.id)) acc).unresolved =
      acc.unresolved ++ as.flatMap fun a => (a.fragment a.file.id).unresolved := by
  induction as generalizing acc with
  | nil => simp
  | cons a as ih => rw [List.foldl_cons, ih, append, List.flatMap_cons, List.append_assoc]

/-- The ids of the unresolved calls of several files, file by file. -/
theorem siteIds_ofArtifacts (as : List Artifact) :
    (ofArtifacts as).unresolved.map (·.siteId) = as.flatMap fun a =>
      (a.numberedCalls.filter (·.call.definition.isNone)).map (·.siteId a.file.id) := by
  rw [ofArtifacts, unresolved_foldl, List.nil_append, List.map_flatMap]
  exact List.flatMap_congr fun a _ => a.siteIds_fragment a.file.id

/--
Let files have different ids, none of them with a `::` or with a `:` at its end. Then the ids of all
their calls differ, whatever their entities are called and however many of them share an id. The
unresolved calls of the files are recorded under the ids of the calls without a definition, each of
them once.
-/
theorem siteIds_nodup (as : List Artifact) (hfiles : (as.map (·.file.id)).Nodup)
    (hsep : ∀ a ∈ as, ¬ idSeparator <:+: a.file.id.toList)
    (hend : ∀ a ∈ as, a.file.id.toList.getLast? ≠ some ':') :
    ((ofArtifacts as).unresolved.map (·.siteId)).Nodup ∧
    (as.flatMap fun a => a.siteIds a.file.id).Nodup ∧
    (ofArtifacts as).unresolved.map (·.siteId) = as.flatMap fun a =>
      (a.numberedCalls.filter (·.call.definition.isNone)).map (·.siteId a.file.id) := by
  have howner : ∀ a ∈ as, FileId.IsOwner a.file.id := fun a ha =>
    FileId.isOwner_iff.mpr ⟨hsep a ha, hend a ha⟩
  have hall : (as.flatMap fun a => a.siteIds a.file.id).Nodup := by
    refine List.nodup_flatMap.mpr ⟨fun a _ => a.nodup_siteIds a.file.id, ?_⟩
    refine (List.pairwise_map.mp hfiles).imp_of_mem fun {a b} ha hb hne => ?_
    refine List.disjoint_left.mpr fun id hida hidb => ?_
    obtain ⟨c, _, rfl⟩ := List.mem_map.mp hida
    obtain ⟨d, _, hid⟩ := List.mem_map.mp hidb
    exact hne ((NumberedCall.siteId_eq_iff (howner b hb) (howner a ha)).mp hid).1.symm
  refine ⟨?_, hall, siteIds_ofArtifacts as⟩
  rw [siteIds_ofArtifacts]
  exact hall.sublist (List.Sublist.flatMap_right as fun a _ => List.filter_sublist.map _)

end Fragment

/--
A file whose entities are called like the ids of its call sites and like its module scope, and of
which two share an id.
-/
def Artifact.lookalikes : Artifact where
  file := { id := "a.ts", path := "/w/a.ts", language := "typescript" }
  entities :=
    [{ id := "f", name := "f", kind := .function, span := ⟨1, 1⟩
       calls := [{ callee := "g", kind := .function }] },
     { id := "f@2", name := "f", kind := .function, span := ⟨2, 2⟩
       calls := [{ callee := "g", kind := .function }] },
     { id := "f@2", name := "f", kind := .arrow, span := ⟨2, 3⟩
       calls := [{ callee := "g", kind := .function }] },
     { id := "f#0", name := "f#0", kind := .function, span := ⟨4, 4⟩
       calls := [{ callee := "g", kind := .function }] },
     { id := "<module>", name := "<module>", kind := .function, span := ⟨5, 5⟩
       calls := [{ callee := "g", kind := .function }] }]
  moduleCalls := [{ callee := "g", kind := .function }]

theorem Fragment.siteIds_nodup_lookalikes :
    (ofArtifacts [.lookalikes, .coloned]).unresolved.map (·.siteId) =
      ["a.ts::<module>#0", "a.ts::f#0", "a.ts::f@2#0", "a.ts::f@2#1", "a.ts::f#0#0",
        "a.ts::<module>#1", "a:b.ts::<module>#0"] ∧
    ((ofArtifacts [.lookalikes, .coloned]).unresolved.map (·.siteId)).Nodup :=
  ⟨by decide +kernel, (siteIds_nodup _ (by decide) (by decide) (by decide)).1⟩

end SourceGraph
