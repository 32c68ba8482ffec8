import Mathlib.Data.List.Nodup
import SourceGraph.Proofs.Resolution

/-!
# Call sites

The binding of calls goes through the entities first and the module last, the numbering of calls the
other way round. Both are views of one list, in which every call stands once with its caller.

* `Artifact.sites`: that list.
* `Artifact.callsByCaller_resolve`, `Artifact.resolutions_perm`: the two passes over it.
* `NumberedCall.nodup_sites`: no two calls of a file have the same caller and number.
* `Artifact.Accounts`: a fragment has an edge or a record for every call of an artifact.
-/

set_option autoImplicit false

namespace SourceGraph

/-! ## Outcomes in numbers -/

namespace Resolution

/-- The number of outcomes in a tally. -/
def Tally.total (t : Tally) : Nat := t.local + t.imported + t.builtin + t.unresolved

theorem total_foldl (rs : List Resolution) (t : Tally) :
    (rs.foldl Tally.add t).total = t.total + rs.length := by
  induction rs generalizing t with
  | nil => rfl
  | cons r rs ih =>
    have hadd : (t.add r).total = t.total + 1 := by
      cases r <;> simp only [Tally.add, Tally.total] <;> omega
    rw [List.foldl_cons, ih, hadd, List.length_cons]
    omega

theorem unresolved_foldl (rs : List Resolution) (t : Tally) :
    (rs.foldl Tally.add t).unresolved =
      t.unresolved + rs.countP (·.definition?.isNone) := by
  induction rs generalizing t with
  | nil => rfl
  | cons r rs ih =>
    rw [List.foldl_cons, ih, List.countP_cons]
    cases r with
    | unresolved =>
      simp [Tally.add, definition?]
      omega
    | _ => simp [Tally.add, definition?]

end Resolution

/-! ## Sites -/

/-- A call with its caller and the class whose members it reaches through a self receiver. -/
structure Site where
  caller : String
  enclosing : Option String
  call : CallSite

namespace Artifact

variable {a : Artifact} {builtins : List String}

/-- Every call once: those outside of any entity, then entity by entity. -/
def sites (a : Artifact) : List Site :=
  a.moduleCalls.map (⟨moduleScope, none, ·⟩) ++
    (a.entityIds.zip a.entities).flatMap fun ie =>
      ie.2.calls.map (⟨ie.1, a.enclosingClass? ie.2, ·⟩)

theorem callsByCaller_eq (a : Artifact) :
    a.callsByCaller = a.sites.map fun s => (s.caller, s.call) := by
  simp [callsByCaller, sites, List.map_flatMap, Function.comp_def]

theorem map_snd_ids (a : Artifact) : (a.entityIds.zip a.entities).map (·.2) = a.entities :=
  List.map_snd_zip (Nat.le_of_eq a.length_entityIds.symm)

theorem length_sites (a : Artifact) : a.sites.length = a.callCount := by
  have hentities : ((a.entityIds.zip a.entities).flatMap fun ie =>
      ie.2.calls.map (Site.mk ie.1 (a.enclosingClass? ie.2))).length =
      (a.entities.flatMap (·.calls)).length := by
    rw [← congrArg (List.flatMap (·.calls)) a.map_snd_ids, List.flatMap_map]
    simp only [List.length_flatMap, List.length_map]
  rw [sites, callCount, List.length_append, List.length_append, List.length_map, hentities]

/-- The binding keeps every call with its caller and changes its definition only. -/
theorem callsByCaller_resolve (a : Artifact) (builtins : List String) :
    (a.resolve builtins).callsByCaller = a.sites.map fun s =>
      (s.caller, bindCall (Scope.ofArtifact a builtins) s.enclosing s.call) := by
  have hentities : (a.resolve builtins).entities =
      a.entities.map (a.bindEntity (Scope.ofArtifact a builtins)) := rfl
  have hmodule : (a.resolve builtins).moduleCalls =
      a.moduleCalls.map (bindCall (Scope.ofArtifact a builtins) none) := rfl
  rw [callsByCaller, entityIds_resolve, hentities, hmodule, List.zip_map_right, List.flatMap_map]
  simp [sites, List.map_flatMap, Function.comp_def, bindEntity]

/-- The outcomes are those of the sites, in another order. -/
theorem resolutions_perm (a : Artifact) (builtins : List String) :
    (a.resolutions builtins).Perm
      (a.sites.map fun s => (Scope.ofArtifact a builtins).resolve s.enclosing s.call) := by
  have hentities : (a.entities.flatMap fun e =>
      e.calls.map ((Scope.ofArtifact a builtins).resolve (a.enclosingClass? e))) =
      (a.entityIds.zip a.entities).flatMap fun ie =>
        ie.2.calls.map ((Scope.ofArtifact a builtins).resolve (a.enclosingClass? ie.2)) := by
    conv_lhs => rw [← a.map_snd_ids]
    rw [List.flatMap_map]
  rw [resolutions, hentities, sites, List.map_append, List.map_flatMap]
  simp only [List.map_map, Function.comp_def]
  exact List.perm_append_comm

end Artifact

/-! ## Numbers -/

namespace NumberedCall

variable {before : List String} {calls : List (String × CallSite)} {n : NumberedCall}

theorem map_number (before : List String) (calls : List (String × CallSite)) :
    (number before calls).map (fun n => (n.caller, n.call)) = calls := by
  induction calls generalizing before with
  | nil => rfl
  | cons cc calls ih =>
    obtain ⟨caller, call⟩ := cc
    rw [number, List.map_cons, ih]

/-- Calls are numbered by their callers alone, whatever is known about each of them. -/
theorem mem_number_map {σ : Type} {caller : σ → String} {f : σ → CallSite} (g : σ → CallSite)
    {ss : List σ} (h : n ∈ number before (ss.map fun s => (caller s, f s))) :
    ∃ s ∈ ss, n.caller = caller s ∧ n.call = f s ∧
      ⟨n.caller, n.index, g s⟩ ∈ number before (ss.map fun s => (caller s, g s)) := by
  induction ss generalizing before with
  | nil => exact absurd h List.not_mem_nil
  | cons s ss ih =>
    rw [List.map_cons, number] at h
    rcases List.mem_cons.mp h with rfl | h
    · exact ⟨s, List.mem_cons_self, rfl, rfl, List.mem_cons_self⟩
    · obtain ⟨s', hs', hcaller, hcall, hmem⟩ := ih h
      exact ⟨s', List.mem_cons_of_mem _ hs', hcaller, hcall, List.mem_cons_of_mem _ hmem⟩

theorem count_le_index (h : n ∈ number before calls) : before.count n.caller ≤ n.index := by
  induction calls generalizing before with
  | nil => exact absurd h List.not_mem_nil
  | cons cc calls ih =>
    obtain ⟨caller, call⟩ := cc
    rcases List.mem_cons.mp h with rfl | h
    · exact Nat.le_refl _
    · have hrest := ih h
      rw [List.count_cons] at hrest
      omega

/-- No two calls have the same caller and number. -/
theorem nodup_sites (before : List String) (calls : List (String × CallSite)) :
    ((number before calls).map fun n => (n.caller, n.index)).Nodup := by
  induction calls generalizing before with
  | nil => exact List.nodup_nil
  | cons cc calls ih =>
    obtain ⟨caller, call⟩ := cc
    rw [number, List.map_cons, List.nodup_cons]
    refine ⟨fun hmem => ?_, ih (caller :: before)⟩
    obtain ⟨n, hn, hpair⟩ := List.mem_map.mp hmem
    simp only [Prod.mk.injEq] at hpair
    -- a later call of the same caller has a larger number
    have hlater := count_le_index hn
    rw [hpair.1, List.count_cons_self, hpair.2] at hlater
    omega

theorem map_unresolved (file : String) (ns : List NumberedCall) :
    (ns.filterMap (·.unresolved? file)).map (fun u => (u.caller, u.callee)) =
      ((ns.map fun n => (n.caller, n.call)).filter (·.2.definition.isNone)).map fun c =>
        (nodeId file c.1, c.2.callee) := by
  induction ns with
  | nil => rfl
  | cons n ns ih =>
    cases hd : n.call.definition with
    | none =>
      have hsome : n.unresolved? file =
          some (.ofIndex (nodeId file n.caller) n.call.callee n.index) := by
        simp only [unresolved?, hd]
      rw [List.filterMap_cons_some hsome, List.map_cons, ih, List.map_cons,
        List.filter_cons_of_pos (by simp [hd]), List.map_cons]
      rfl
    | some d =>
      have hnone : n.unresolved? file = none := by
        simp only [unresolved?, hd]
      rw [List.filterMap_cons_none hnone, ih, List.map_cons,
        List.filter_cons_of_neg (by simp [hd])]

end NumberedCall

/-! ## Accounts -/

theorem nodup_eraseDups {α : Type} [BEq α] [LawfulBEq α] (l : List α) : l.eraseDups.Nodup := by
  induction hn : l.length using Nat.strongRecOn generalizing l with
  | _ n ih =>
    cases l with
    | nil => simp
    | cons x l =>
      rw [List.eraseDups_cons, List.nodup_cons, List.mem_eraseDups]
      have hlen : (l.filter fun y => !y == x).length < n := by
        have hle := List.length_filter_le (fun y => !y == x) l
        rw [List.length_cons] at hn
        omega
      exact ⟨by simp, ih _ hlen _ rfl⟩

/-- A fragment has one edge or one record for every call of an artifact, and nothing else. -/
structure Artifact.Accounts (a : Artifact) (file : String) (f : Fragment) : Prop where
  unresolved : f.unresolved.map (fun u => (u.caller, u.callee)) =
    (a.callsByCaller.filter (·.2.definition.isNone)).map fun c => (nodeId file c.1, c.2.callee)
  nodup_callEdges : f.callEdges.Nodup
  mem_callEdges : ∀ e, e ∈ f.callEdges ↔ ∃ caller c d, (caller, c) ∈ a.callsByCaller ∧
    c.definition = some d ∧ e = ⟨nodeId file caller, d.nodeId, .call⟩
  nodup_importEdges : f.importEdges.Nodup
  importEdges : ∀ e ∈ f.importEdges, e.kind = .import ∧ e.source = file ∧ e.target ≠ file
  fileNodes : f.fileNodes = [Node.file file]
  entityNodes : f.entityNodes.map (·.id) = a.entityIds.map (nodeId file)
  nodes : f.nodes.length = a.entities.length + 1

namespace Artifact

variable {a : Artifact} {file : String}

theorem map_numberedCalls (a : Artifact) :
    a.numberedCalls.map (fun n => (n.caller, n.call)) = a.callsByCaller :=
  NumberedCall.map_number [] a.callsByCaller

theorem mem_callEdges {e : Edge} :
    e ∈ (a.fragment file).callEdges ↔ ∃ caller c d, (caller, c) ∈ a.callsByCaller ∧
      c.definition = some d ∧ e = ⟨nodeId file caller, d.nodeId, .call⟩ := by
  have hedges : e ∈ (a.fragment file).callEdges ↔
      ∃ n ∈ a.numberedCalls, n.edge? file = some e := by
    rw [fragment, List.mem_eraseDups, List.mem_filterMap]
  rw [hedges, ← map_numberedCalls]
  constructor
  · rintro ⟨n, hn, he⟩
    obtain ⟨d, hd, rfl⟩ := Option.map_eq_some_iff.mp he
    exact ⟨n.caller, n.call, d, List.mem_map.mpr ⟨n, hn, rfl⟩, hd, rfl⟩
  · rintro ⟨caller, c, d, hc, hd, rfl⟩
    obtain ⟨n, hn, hpair⟩ := List.mem_map.mp hc
    cases hpair
    exact ⟨n, hn, by rw [NumberedCall.edge?, hd, Option.map_some]⟩

theorem accounts_fragment (a : Artifact) (file : String) : a.Accounts file (a.fragment file) where
  unresolved := by
    rw [← map_numberedCalls]
    exact NumberedCall.map_unresolved file a.numberedCalls
  nodup_callEdges := nodup_eraseDups _
  mem_callEdges _ := mem_callEdges
  nodup_importEdges := by
    refine List.Nodup.map (fun x y hxy => ?_) (nodup_eraseDups _)
    exact congrArg Edge.target hxy
  importEdges e he := by
    obtain ⟨target, htarget, rfl⟩ := List.mem_map.mp he
    have hother := (List.mem_filter.mp (List.mem_eraseDups.mp htarget)).2
    exact ⟨rfl, rfl, by simpa using hother⟩
  fileNodes := a.fileNodes_fragment file
  entityNodes := by
    have hfst : (a.entityIds.zip a.entities).map (·.1) = a.entityIds :=
      List.map_fst_zip (Nat.le_of_eq a.length_entityIds)
    conv_rhs => rw [← hfst]
    rw [entityNodes_fragment, List.map_map, List.map_map]
    exact List.map_congr_left fun ie _ => id_entityNode file ie.1 ie.2
  nodes := by
    simp [fragment, length_entityIds]

/-- The records of a bound artifact are as many as the calls that could not be bound. -/
theorem length_unresolved_resolve (a : Artifact) (builtins : List String) (file : String) :
    ((a.resolve builtins).fragment file).unresolved.length = (a.tally builtins).unresolved := by
  have hlist := congrArg List.length ((a.resolve builtins).accounts_fragment file).unresolved
  rw [List.length_map, List.length_map, ← List.countP_eq_length_filter, callsByCaller_resolve,
    List.countP_map] at hlist
  have htally := Resolution.unresolved_foldl (a.resolutions builtins) {}
  rw [(a.resolutions_perm builtins).countP_eq, List.countP_map, Nat.zero_add] at htally
  exact hlist.trans htally.symm

theorem total_tally (a : Artifact) (builtins : List String) :
    (a.tally builtins).total = a.callCount := by
  have htotal := Resolution.total_foldl (a.resolutions builtins) {}
  rw [(a.resolutions_perm builtins).length_eq, List.length_map, length_sites] at htotal
  exact htotal.trans (Nat.zero_add _)

/--
No call is lost or counted twice: every call has one outcome, the binding keeps all calls with their
callers, and in the fragment each of them is an edge or an unresolved call.
-/
theorem call_sites_conserved (a : Artifact) (builtins : List String) (file : String) :
    (a.tally builtins).local + (a.tally builtins).imported + (a.tally builtins).builtin +
        (a.tally builtins).unresolved = a.callCount ∧
      (a.resolve builtins).callsByCaller.map (fun c => (c.1, c.2.callee)) =
        a.callsByCaller.map (fun c => (c.1, c.2.callee)) ∧
      ((a.resolve builtins).fragment file).unresolved.length = (a.tally builtins).unresolved ∧
      (a.resolve builtins).Accounts file ((a.resolve builtins).fragment file) := by
  refine ⟨total_tally a builtins, ?_, length_unresolved_resolve a builtins file,
    accounts_fragment _ file⟩
  rw [callsByCaller_resolve, callsByCaller_eq, List.map_map, List.map_map]
  rfl

end Artifact

end SourceGraph
