import SourceGraph.Proofs.Path

/-!
# Folder scopes

A folder holds the paths whose segments begin with its own. The comparison is made on characters,
with the separators at the end of the folder cut off; the empty folder and `.` hold everything, and
separators alone hold the absolute paths.

* `FileId.isWithin_iff_segments`: outside of these cases, scoping compares whole segments.
* `FileId.isWithin_refl`, `FileId.isWithin_trans`: scopes nest.
-/

set_option autoImplicit false

namespace SourceGraph

/-- What is cut off at the end of a text are separators, and all of them; one alone stays. -/
theorem Path.trimSeparators_spec (s : String) :
    (trimSeparators s = "/" ∧ ∃ n, s.toList = List.replicate (n + 1) '/') ∨
      (trimSeparators s = "" → s = "") ∧ (trimSeparators s).toList.getLast? ≠ some '/' ∧
        ∃ n, s.toList = (trimSeparators s).toList ++ List.replicate n '/' := by
  refine (trimSeparators_cases s).imp_left ?_
  rintro ⟨hroot, n, hn⟩
  cases n with
  | zero =>
    rw [String.toList_eq_nil_iff.mp hn] at hroot
    exact absurd hroot (by decide)
  | succ n => exact ⟨hroot, n, hn⟩

namespace FileId

variable {path folder outer : String}

theorem isWithin_empty (path : String) : isWithin path "" = true := by
  simp [isWithin, show Path.trimSeparators "" = "" by decide]

theorem isWithin_here (path : String) : isWithin path "." = true := by
  simp [isWithin, show Path.trimSeparators "." = "." by decide]

/-- The scopes that a folder can have: everything, the absolute paths, or what it leads to. -/
theorem scope_cases (folder : String) :
    (∀ path, isWithin path folder = true) ∨
    (Path.trimSeparators folder = "/" ∧ folder.toList.head? = some '/') ∨
    ((Path.trimSeparators folder).toList.getLast? ≠ some '/' ∧ Path.trimSeparators folder ≠ "" ∧
      Path.trimSeparators folder ≠ "." ∧ Leads (Path.trimSeparators folder).toList folder.toList) := by
  rcases Path.trimSeparators_spec folder with ⟨hroot, n, hn⟩ | ⟨_, hlast, n, hn⟩
  · exact .inr (.inl ⟨hroot, by rw [hn]; rfl⟩)
  by_cases hempty : Path.trimSeparators folder = ""
  · exact .inl fun path => by rw [← isWithin_trimSeparators, hempty, isWithin_empty]
  by_cases hhere : Path.trimSeparators folder = "."
  · exact .inl fun path => by rw [← isWithin_trimSeparators, hhere, isWithin_here]
  refine .inr (.inr ⟨hlast, hempty, hhere, ?_⟩)
  cases n with
  | zero => exact .inl (by simpa using hn)
  | succ n => exact .inr ⟨_, by rw [hn, List.replicate_succ]⟩

theorem isWithin_refl (path : String) : isWithin path path = true := by
  rcases scope_cases path with hall | ⟨hroot, hhead⟩ | ⟨hlast, hempty, hhere, hleads⟩
  · exact hall path
  · rw [← isWithin_trimSeparators, hroot]
    exact isWithin_root.mpr hhead
  · rw [← isWithin_trimSeparators, isWithin_iff hlast hempty hhere]
    exact hleads

/-- What stands in a folder stands in every folder that holds it. -/
theorem isWithin_trans (h : isWithin path folder = true) (h' : isWithin folder outer = true) :
    isWithin path outer = true := by
  rcases scope_cases outer with hall | ⟨hroot, _⟩ | ⟨hlast, hempty, hhere, _⟩
  · exact hall path
  · rw [← isWithin_trimSeparators, hroot, isWithin_root] at h' ⊢
    exact head?_of_isWithin h' h
  · rw [← isWithin_trimSeparators] at h' ⊢
    rw [isWithin_iff hlast hempty hhere] at h'
    exact isWithin_of_leads hlast hempty hhere h' h

/-- A folder with a scope of its own holds what its segments begin. -/
theorem isWithin_iff_segments (hempty : Path.trimSeparators folder ≠ "")
    (hhere : Path.trimSeparators folder ≠ ".") (hroot : Path.trimSeparators folder ≠ "/") :
    isWithin path folder = true ↔
      Text.segments '/' (Path.trimSeparators folder) <+: Text.segments '/' path := by
  have hlast : (Path.trimSeparators folder).toList.getLast? ≠ some '/' := by
    rcases Path.trimSeparators_spec folder with ⟨h, _⟩ | ⟨_, hlast, _⟩
    · exact absurd h hroot
    · exact hlast
  have hinjective : Function.Injective String.ofList := fun _ _ => String.ofList_inj.mp
  rw [← isWithin_trimSeparators, isWithin_iff hlast hempty hhere, ← Text.splitOn_prefix_iff,
    Text.segments, Text.segments, List.prefix_map_iff_of_injective hinjective]

/--
Without the separators at its end, a folder that is not empty, `.` or `/` holds exactly the paths
whose segments begin with its own. Every path is within itself, and scopes nest.
-/
theorem isWithin_prefix_order (path folder : String) :
    ((Path.trimSeparators folder = "/" ∧ ∃ n, folder.toList = List.replicate (n + 1) '/') ∨
      (Path.trimSeparators folder = "" → folder = "") ∧
        (Path.trimSeparators folder).toList.getLast? ≠ some '/' ∧
        ∃ n, folder.toList = (Path.trimSeparators folder).toList ++ List.replicate n '/') ∧
    (Path.trimSeparators folder ≠ "" → Path.trimSeparators folder ≠ "." →
      Path.trimSeparators folder ≠ "/" →
      (isWithin path folder = true ↔
        Text.segments '/' (Path.trimSeparators folder) <+: Text.segments '/' path)) ∧
    isWithin path path = true ∧
    ∀ outer, isWithin path folder = true → isWithin folder outer = true →
      isWithin path outer = true :=
  ⟨Path.trimSeparators_spec folder, isWithin_iff_segments, isWithin_refl path,
    fun _ => isWithin_trans⟩

/-- `src/parser//` holds `src/parser/a.ts` but not `src/parsers/a.ts`, and lies within `src`. -/
theorem isWithin_prefix_order_nested :
    isWithin "src/parser/a.ts" "src/parser//" = true ∧
    isWithin "src/parsers/a.ts" "src/parser//" = false ∧
    isWithin "src/parser/a.ts" "src" = true := by
  have hscope : Path.trimSeparators "src/parser//" = "src/parser" := by decide
  have hsegments : Text.segments '/' "src/parser" = ["src", "parser"] := by decide
  have hin : isWithin "src/parser/a.ts" "src/parser//" = true := by
    refine ((isWithin_prefix_order _ "src/parser//").2.1 ?_ ?_ ?_).mpr ?_
    · decide
    · decide
    · decide
    · rw [hscope, hsegments]
      decide
  have hout : isWithin "src/parsers/a.ts" "src/parser//" ≠ true := by
    rw [Ne, (isWithin_prefix_order _ "src/parser//").2.1 (by decide) (by decide) (by decide),
      hscope, hsegments]
    decide
  exact ⟨hin, Bool.eq_false_iff.mpr hout,
    (isWithin_prefix_order _ _).2.2.2 "src" hin (by decide)⟩

end FileId

end SourceGraph
