import Mathlib.Data.List.Nodup
import SourceGraph.Proofs.Resolution

/-!
# Ids of entities

The first entity with a qualified name has that name as its id, every later one the name and its
line. As long as no name has an `@`, two ids are the same only if both entities are later ones with
the same name and line.

* `Artifact.IsFirst`: no earlier entity has the same qualified name.
* `Artifact.getElem?_entityIds`: the id of each entity.
* `Artifact.id_eq_iff`: which ids are the same.
* `Artifact.entityIds_nodup_iff`: when all ids differ.
-/

set_option autoImplicit false

namespace SourceGraph.Artifact

variable {a : Artifact} {e f : Entity} {i j : Nat}

/-! ## Qualified names -/

theorem mem_of_shortest {es : List Entity} (h : shortest es = some e) : e ∈ es := by
  induction es with
  | nil => cases h
  | cons g es ih =>
    rw [shortest] at h
    split at h
    · exact Option.some.inj h ▸ List.mem_cons_self
    · rename_i f hf
      split at h
      · exact Option.some.inj h ▸ List.mem_cons_self
      · exact List.mem_cons_of_mem _ (ih (Option.some.inj h ▸ hf))

/-- The class around an entity is an entity itself, around its lines. -/
theorem of_owner? (h : a.owner? e = some f) :
    f ∈ a.entities ∧ f.kind = .classDef ∧ f.span.strictlyContains e.span = true := by
  simpa using mem_of_shortest h

/-- A qualified name has no characters but those of names, and dots. -/
theorem not_mem_qualifiedName {c : Char} (hc : c ≠ '.') (h : ∀ g ∈ a.entities, c ∉ g.name.toList)
    (he : e ∈ a.entities) : c ∉ (a.qualifiedName e).toList := by
  unfold qualifiedName
  split
  · exact h e he
  · split
    · rename_i owner howner
      simp [h e he, h owner (of_owner? howner).1, hc]
    · exact h e he

/-! ## Ids -/

/-- A name that is taken, before or by an earlier entity, gets the line of the entity. -/
theorem getElem?_assignIds {before : List String} {named : List (String × Entity)} {name : String}
    (h : named[i]? = some (name, e)) :
    (assignIds before named)[i]? =
      some (if name ∈ before ++ (named.take i).map (·.1) then name ++ "@" ++ toString e.span.first
        else name) := by
  induction named generalizing before i with
  | nil => cases h
  | cons ne named ih =>
    obtain ⟨first, g⟩ := ne
    cases i with
    | zero =>
      cases h
      simp [assignIds]
    | succ i =>
      rw [assignIds, List.getElem?_cons_succ, ih h]
      simp only [List.take_succ_cons, List.map_cons, List.cons_append, List.mem_cons,
        List.mem_append]
      simp only [or_left_comm]

/-- No earlier entity has the qualified name of the entity at `i`. -/
def IsFirst (a : Artifact) (i : Nat) : Prop :=
  ∀ j < i, a.qualifiedNames[j]? ≠ a.qualifiedNames[i]?

instance (a : Artifact) (i : Nat) : Decidable (a.IsFirst i) :=
  inferInstanceAs (Decidable (∀ j < i, _))

theorem getElem?_qualifiedNames (h : a.entities[i]? = some e) :
    a.qualifiedNames[i]? = some (a.qualifiedName e) := by
  rw [qualifiedNames, List.getElem?_map, h, Option.map_some]

theorem isFirst_iff (h : a.entities[i]? = some e) :
    a.IsFirst i ↔ a.qualifiedName e ∉ a.qualifiedNames.take i := by
  rw [IsFirst, getElem?_qualifiedNames h, List.mem_iff_getElem?, not_exists]
  refine forall_congr' fun j => ?_
  rw [List.getElem?_take]
  split <;> simp [*]

/-- The id of an entity. -/
theorem getElem?_entityIds (h : a.entities[i]? = some e) :
    a.entityIds[i]? =
      some (if a.IsFirst i then a.qualifiedName e
        else a.qualifiedName e ++ "@" ++ toString e.span.first) := by
  have hnamed : (a.qualifiedNames.zip a.entities)[i]? = some (a.qualifiedName e, e) :=
    List.getElem?_zip_eq_some.mpr ⟨getElem?_qualifiedNames h, h⟩
  have htaken : ((a.qualifiedNames.zip a.entities).take i).map (·.1) = a.qualifiedNames.take i := by
    rw [List.map_take, List.map_fst_zip (by simp [qualifiedNames])]
  rw [entityIds, getElem?_assignIds hnamed, htaken, List.nil_append]
  simp only [isFirst_iff h, ite_not]

/-- Without an `@` in names, two entities have one id only if both have the line in it. -/
theorem id_eq_iff (hat : ∀ g ∈ a.entities, '@' ∉ g.name.toList) (hne : i ≠ j)
    (he : a.entities[i]? = some e) (hf : a.entities[j]? = some f) :
    a.entityIds[i]? = a.entityIds[j]? ↔ ¬ a.IsFirst i ∧ ¬ a.IsFirst j ∧
      a.qualifiedName e = a.qualifiedName f ∧ e.span.first = f.span.first := by
  have hplain : '@' ∉ (a.qualifiedName e).toList ∧ '@' ∉ (a.qualifiedName f).toList :=
    ⟨not_mem_qualifiedName (by decide) hat (List.mem_of_getElem? he),
      not_mem_qualifiedName (by decide) hat (List.mem_of_getElem? hf)⟩
  rw [getElem?_entityIds he, getElem?_entityIds hf, Option.some.injEq]
  by_cases hi : a.IsFirst i
  · refine ⟨fun h => ?_, fun h => absurd hi h.1⟩
    rw [if_pos hi] at h
    by_cases hj : a.IsFirst j
    · -- of two first entities the one in front has the name of the other
      rw [if_pos hj] at h
      have hnames : a.qualifiedNames[i]? = a.qualifiedNames[j]? := by
        rw [getElem?_qualifiedNames he, getElem?_qualifiedNames hf, h]
      rcases Nat.lt_or_gt_of_ne hne with hlt | hlt
      · exact absurd hnames (hj i hlt)
      · exact absurd hnames.symm (hi j hlt)
    · rw [if_neg hj] at h
      rw [h] at hplain
      simp at hplain
  · rw [if_neg hi]
    by_cases hj : a.IsFirst j
    · refine ⟨fun h => ?_, fun h => absurd hj h.2.1⟩
      rw [if_pos hj] at h
      rw [← h] at hplain
      simp at hplain
    · rw [if_neg hj]
      refine ⟨fun h => ⟨hi, hj, Text.append_number_inj (by decide : '@'.isDigit = false) ?_⟩, ?_⟩
      · simpa using congrArg String.toList h
      · rintro ⟨-, -, hname, hline⟩
        rw [hname, hline]

/--
If no name has an `@`, the ids of a file differ exactly if no two entities share their qualified
name and their first line, other than with the first entity of that name. Whatever the names are,
the first entity with a qualified name has it as its id.
-/
theorem entityIds_nodup_iff (a : Artifact) :
    ((∀ e ∈ a.entities, '@' ∉ e.name.toList) →
      (a.entityIds.Nodup ↔ ∀ (i j : Nat) (e f : Entity), i ≠ j → a.entities[i]? = some e →
        a.entities[j]? = some f → ¬ a.IsFirst i → ¬ a.IsFirst j →
          ¬ (a.qualifiedName e = a.qualifiedName f ∧ e.span.first = f.span.first))) ∧
    ∀ (i : Nat) (e : Entity), a.entities[i]? = some e → a.IsFirst i →
      a.entityIds[i]? = some (a.qualifiedName e) := by
  refine ⟨fun hat => ?_, fun i e he hi => ?_⟩
  · rw [List.nodup_iff_getElem?_ne_getElem?, length_entityIds]
    constructor
    · intro hnodup i j e f hne he hf hi hj hsame
      have hid : a.entityIds[i]? = a.entityIds[j]? := (id_eq_iff hat hne he hf).mpr ⟨hi, hj, hsame⟩
      have hibound := (List.getElem?_eq_some_iff.mp he).1
      have hjbound := (List.getElem?_eq_some_iff.mp hf).1
      rcases Nat.lt_or_gt_of_ne hne with hlt | hlt
      · exact hnodup i j hlt hjbound hid
      · exact hnodup j i hlt hibound hid.symm
    · intro hdistinct i j hlt hj hid
      have he := List.getElem?_eq_getElem (hlt.trans hj)
      have hf := List.getElem?_eq_getElem hj
      obtain ⟨hlater, hlater', hsame⟩ := (id_eq_iff hat (Nat.ne_of_lt hlt) he hf).mp hid
      exact hdistinct i j _ _ (Nat.ne_of_lt hlt) he hf hlater hlater' hsame
  · rw [getElem?_entityIds he, if_pos hi]

/-- A class with three methods of one name, the last two of them on one line. -/
def crowded : Artifact where
  file := { id := "src/b.ts", path := "/w/src/b.ts", language := "typescript" }
  entities :=
    [{ id := "C", name := "C", kind := .classDef, span := ⟨1, 9⟩ },
     { id := "C.n", name := "n", kind := .method, span := ⟨2, 3⟩ },
     { id := "C.n@4", name := "n", kind := .getter, span := ⟨4, 4⟩ },
     { id := "C.n@4", name := "n", kind := .setter, span := ⟨4, 5⟩ }]

theorem entityIds_nodup_iff_crowded :
    overloaded.entityIds.Nodup ∧ ¬ crowded.entityIds.Nodup ∧
      crowded.entityIds[1]? = some "C.n" := by
  refine ⟨((entityIds_nodup_iff overloaded).1 (by decide)).mpr ?_, fun hnodup => ?_, ?_⟩
  · intro i j e f hne he hf hi hj
    have hlater : ∀ k < 4, ¬ overloaded.IsFirst k → k = 2 := by decide +kernel
    have hi' := hlater i (List.getElem?_eq_some_iff.mp he).1 hi
    have hj' := hlater j (List.getElem?_eq_some_iff.mp hf).1 hj
    exact absurd (hi'.trans hj'.symm) hne
  · exact ((entityIds_nodup_iff crowded).1 (by decide)).mp hnodup 2 3 _ _ (by decide) rfl rfl
      (by decide +kernel) (by decide +kernel) (by decide +kernel)
  · exact (entityIds_nodup_iff crowded).2 1 _ rfl (by decide +kernel)

end SourceGraph.Artifact
