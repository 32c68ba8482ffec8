import SourceGraph.Proofs.Expansion
import SourceGraph.Proofs.Reflection
import SourceGraph.Settings.Discovery

/-!
# Where documents are kept

The settings say where the two graphs and the tracked files are kept. A graph is written to a
temporary file beside its document, which then is renamed. The check of the settings compares the
two graphs as they are written; what is saved are the paths seen from the state folder. So settings
without problems can name one file twice, and this module says in which ways.

* `Path.steps`: a path after lexical clean-up, without `.` and repeated separators.
* `Path.steps_join`, `Path.steps_withExtension`: the steps of a path that was put together.
* `WorkspaceSettings.KeepsApart`: no document is another one or a temporary file.
* `Settings.Clash`: the ways in which it happens all the same.
* `Settings.documents_apart_iff`: there are no others.
-/

set_option autoImplicit false

namespace SourceGraph

/-! ## Steps -/

namespace Path

variable {p q : Path} {name : String}

/-- The components of a path without a `.` in front. -/
def steps (p : Path) : List Component := p.components.filter (· ≠ .here)

/-- Whether a `.` in front counts as a component. -/
def isDotted (p : Path) : Bool := !p.isAbsolute && p.segments.head? == some "."

theorem steps_eq (p : Path) : p.steps =
    (if p.isAbsolute then [.root] else []) ++ (p.segments.filter counts).map .ofSegment := by
  have hkept : ((p.segments.filter counts).map Component.ofSegment).filter (· ≠ .here) =
      (p.segments.filter counts).map .ofSegment := by
    rw [List.filter_eq_self]
    intro c hc
    obtain ⟨s, -, rfl⟩ := List.mem_map.mp hc
    simpa using (ofSegment_ne s).2
  rw [steps, components, List.filter_append, hkept]
  split
  · rfl
  · split <;> rfl

theorem steps_of_relative (h : p.isAbsolute = false) :
    p.steps = (p.segments.filter counts).map .ofSegment := by
  rw [steps_eq, h]
  rfl

theorem here_not_mem_steps (p : Path) : .here ∉ p.steps := by
  simp [steps]

theorem root_mem_steps : .root ∈ p.steps ↔ p.isAbsolute = true := by
  rw [← root_mem_components, steps, List.mem_filter]
  simp

theorem components_eq_steps (p : Path) :
    p.components = (if p.isDotted then [.here] else []) ++ p.steps := by
  rw [steps_eq, components, isDotted]
  by_cases habs : p.isAbsolute = true
  · simp [habs]
  · by_cases hdot : p.segments.head? = some "."
    · simp [habs, hdot]
    · simp [habs, hdot]

/-- Paths are compared by their steps, and by whether there is a `.` in front. -/
theorem same_iff_steps : p.same q = true ↔ p.steps = q.steps ∧ p.isDotted = q.isDotted := by
  rw [same_iff_components]
  constructor
  · intro h
    refine ⟨by rw [steps, steps, h], ?_⟩
    have hmem : ∀ r : Path, .here ∈ r.components ↔ r.isDotted = true := by
      intro r
      rw [components_eq_steps, List.mem_append, or_iff_left r.here_not_mem_steps]
      split <;> simp_all
    rw [Bool.eq_iff_iff, ← hmem p, ← hmem q, h]
  · rintro ⟨hsteps, hdot⟩
    rw [components_eq_steps, components_eq_steps, hsteps, hdot]

theorem fileName?_eq (p : Path) : p.fileName? = p.steps.getLast?.bind Component.name? := by
  rw [fileName?, components_eq_steps]
  by_cases hnil : p.steps = []
  · rw [hnil, List.append_nil]
    split <;> rfl
  · rw [List.getLast?_append_of_ne_nil _ hnil]

/-- What is joined to a path adds its steps. -/
theorem steps_join (p : Path) (hq : q.isAbsolute = false) : (p.join q).steps = p.steps ++ q.steps := by
  by_cases hempty : p.text = ""
  · have hp : p.steps = [] := by
      obtain ⟨text⟩ := p
      obtain rfl : text = "" := hempty
      decide
    rw [join, if_neg (by simp [hq]), if_pos hempty, hp, List.nil_append]
  · have habs : (p.join q).isAbsolute = p.isAbsolute := by
      have htext : p.text.toList ≠ [] := fun hnil => hempty (String.toList_injective hnil)
      rw [join, if_neg (by simp [hq]), if_neg hempty]
      split <;> simp only [isAbsolute, String.toList_append, List.append_assoc,
        List.head?_append_of_ne_nil _ htext]
    rw [steps_eq, steps_eq p, steps_of_relative hq, habs, filter_segments_join hempty hq,
      List.map_append, List.append_assoc]

/-! ## File names -/

/-- A path that names a file has the name as its last segment that counts. -/
theorem segments_of_fileName? (h : p.fileName? = some name) : IsName name ∧
    ∃ front rest, p.segments = front ++ name :: rest ∧ rest.filter counts = [] := by
  rw [fileName?_eq, Option.bind_eq_some_iff] at h
  obtain ⟨c, hlast, hc⟩ := h
  obtain rfl : c = .name name := by
    cases c <;> simp_all [Component.name?]
  have hname : IsName name :=
    isName_of_mem_components (List.mem_of_mem_filter (List.mem_of_getLast? hlast))
  refine ⟨hname, ?_⟩
  by_cases hnil : p.segments.filter counts = []
  · rw [steps_eq, hnil] at hlast
    split at hlast <;> simp at hlast
  · rw [steps_eq, List.getLast?_append_of_ne_nil _ (by simpa using hnil), List.getLast?_map] at hlast
    obtain ⟨s, hs, hseg⟩ := Option.map_eq_some_iff.mp hlast
    obtain rfl : s = name := ofSegment_injective (hseg.trans hname.ofSegment.symm)
    obtain ⟨init, hinit⟩ := List.getLast?_eq_some_iff.mp hs
    obtain ⟨before, behind, hsegs, -, hbehind⟩ := List.filter_eq_append_iff.mp hinit
    obtain ⟨skipped, rest, hsplit, -, -, hrest⟩ := List.filter_eq_cons_iff.mp hbehind
    exact ⟨before ++ skipped, rest, by rw [hsegs, hsplit, List.append_assoc], hrest⟩

theorem settle_eq {front rest : List String} (hname : IsName name)
    (hrest : rest.filter counts = []) : settle (front ++ name :: rest) = front ++ [name] := by
  have hskip : ∀ s ∈ rest.reverse, (!counts s) = true := by
    intro s hs
    simpa using List.filter_eq_nil_iff.mp hrest s (List.mem_reverse.mp hs)
  have hdrop : (front ++ name :: rest).reverse.dropWhile (!counts ·) = name :: front.reverse := by
    rw [List.reverse_append, List.reverse_cons, List.append_assoc,
      List.dropWhile_append_of_pos hskip]
    simp [hname.counts]
  rw [settle, hdrop, List.reverse_cons, List.reverse_reverse]
  cases front <;> rfl

theorem isAbsolute_iff_segments :
    p.isAbsolute = true ↔ ∃ more, more ≠ [] ∧ p.segments = "" :: more := by
  constructor
  · intro h
    obtain ⟨cs, hcs⟩ : ∃ cs, p.text.toList = '/' :: cs := by
      simpa [isAbsolute, List.head?_eq_some_iff] using h
    refine ⟨(cs.splitOn '/').map String.ofList, by simp [List.splitOn_ne_nil], ?_⟩
    rw [segments, Text.segments, hcs, List.splitOn_cons_eq_if_modifyHead]
    rfl
  · rintro ⟨more, hne, hsegs⟩
    have htext : p.text = "" ++ "/" ++ "/".intercalate more := by
      rw [← String.intercalate_cons_of_ne_nil hne, ← hsegs, segments, Text.intercalate_segments]
    simp [isAbsolute, htext]

/-- A path is absolute if there is nothing in front of its first separator. -/
theorem isAbsolute_iff_head? {front rest : List String} (hname : IsName name)
    (h : p.segments = front ++ name :: rest) : p.isAbsolute = true ↔ front.head? = some "" := by
  rw [isAbsolute_iff_segments, h]
  cases front with
  | nil => simp [hname.ne_empty]
  | cons s front => simp

theorem steps_of_segments {front rest : List String} (hname : IsName name)
    (hrest : rest.filter counts = []) (h : p.segments = front ++ name :: rest) :
    p.steps = (if front.head? = some "" then [.root] else []) ++
      (front.filter counts).map .ofSegment ++ [.name name] := by
  simp only [steps_eq, isAbsolute_iff_head? hname h, h, List.filter_append,
    List.filter_cons_of_pos hname.counts, hrest, List.map_append, List.map_singleton,
    hname.ofSegment, List.append_assoc]

/-- A file name up to its last dot, unless that is its first character. -/
def stem (name : String) : String := (cutName name).elim name (·.1)

theorem not_mem_stem {c : Char} (h : c ∉ name.toList) : c ∉ (stem name).toList := by
  unfold stem
  cases hcut : cutName name with
  | none => exact h
  | some cut =>
    have htext := (cutName_eq_some_iff.mp hcut).1
    exact fun hc => h (by rw [htext]; exact List.mem_append_left _ hc)

theorem isName_stem_append {ext : String} (hname : IsName name) (hext : '/' ∉ ext.toList)
    (hlong : 3 ≤ ext.toList.length) : IsName (stem name ++ ext) := by
  have hlength : ∀ s : String, stem name ++ ext = s → 3 ≤ s.toList.length := by
    rintro _ rfl
    rw [String.toList_append, List.length_append]
    omega
  refine ⟨fun h => ?_, fun h => ?_, fun h => ?_, ?_⟩
  · exact absurd (hlength _ h) (by decide)
  · exact absurd (hlength _ h) (by decide)
  · exact absurd (hlength _ h) (by decide)
  · simp [not_mem_stem hname.no_separator, hext]

end Path

/-! ## Temporary files -/

namespace Disk

open SourceGraph.Path (IsName stem)

variable {p : Path} {name : String}

/-- The name of the temporary file for a file name. -/
def temporaryName (name : String) : String := stem name ++ ".json.tmp"

theorem isName_temporaryName (h : IsName name) : IsName (temporaryName name) :=
  Path.isName_stem_append h (by decide) (by decide)

theorem temporary_of_segments {front rest : List String} (hname : IsName name)
    (hrest : rest.filter Path.counts = []) (h : p.segments = front ++ name :: rest) :
    temporary p = ⟨"/".intercalate (front ++ [temporaryName name])⟩ := by
  have hfile : p.fileName? = some name := by
    rw [Path.fileName?_eq, Path.steps_of_segments hname hrest h, List.getLast?_concat]
    rfl
  have hnew : stem name ++ "." ++ "json.tmp" = temporaryName name := by
    rw [temporaryName, String.append_assoc]
    rfl
  rw [temporary, Path.withExtension, hfile, h, Path.settle_eq hname hrest, List.dropLast_concat,
    ← hnew]
  rfl

/-- The name at the end of a place. -/
def lastName? (place : List Component) : Option String := place.getLast?.bind Component.name?

/-- The place of the temporary file; a place without a name at its end has no other one. -/
def temporaryPlace (place : List Component) : List Component :=
  (lastName? place).elim place fun name => place.dropLast ++ [.name (temporaryName name)]

theorem steps_temporary (p : Path) : (temporary p).steps = temporaryPlace p.steps := by
  rw [temporaryPlace, lastName?, ← Path.fileName?_eq]
  cases hfile : p.fileName? with
  | none =>
    rw [temporary, Path.withExtension, hfile]
    rfl
  | some name =>
    obtain ⟨hname, front, rest, hsegs, hrest⟩ := Path.segments_of_fileName? hfile
    have hnew := isName_temporaryName hname
    have hsplit : (Path.mk ("/".intercalate (front ++ [temporaryName name]))).segments =
        front ++ temporaryName name :: [] := by
      refine Text.segments_intercalate (by simp) fun s hs => ?_
      rcases List.mem_append.mp hs with hs | hs
      · exact Text.not_mem_of_mem_segments (s := p.text) (by
          change s ∈ p.segments
          rw [hsegs]
          exact List.mem_append_left _ hs)
      · rw [List.mem_singleton.mp hs]
        exact hnew.no_separator
    rw [temporary_of_segments hname hrest hsegs, Path.steps_of_segments hnew rfl hsplit,
      Path.steps_of_segments hname hrest hsegs, Option.elim_some, List.dropLast_concat]

theorem temporaryPlace_append (front : List Component) {place : List Component} (h : place ≠ []) :
    temporaryPlace (front ++ place) = front ++ temporaryPlace place := by
  rw [temporaryPlace, temporaryPlace, lastName?, lastName?, List.getLast?_append_of_ne_nil _ h,
    List.dropLast_append_of_ne_nil h]
  cases place.getLast?.bind Component.name? with
  | none => rfl
  | some name => exact List.append_assoc _ _ _

end Disk

/-! ## Documents -/

namespace WorkspaceSettings

/-- The temporary files that are written when the graphs are saved. -/
def temporaries (w : WorkspaceSettings) : List Path :=
  (w.importGraph.toList ++ w.callGraph.toList).map Disk.temporary

/-- After clean-up the documents are different files, and none of them is a temporary file. -/
def KeepsApart (w : WorkspaceSettings) : Prop :=
  w.documents.Pairwise (fun p q => p.steps ≠ q.steps) ∧
    ∀ p ∈ w.documents, ∀ t ∈ w.temporaries, p.steps ≠ t.steps

end WorkspaceSettings

namespace Settings

open Disk (lastName? temporaryName temporaryPlace)

variable {s : Settings} {dir p q : Path}

/-- The graphs as they are written. -/
def graphs (s : Settings) : List Path := [s.importGraph, s.callGraph]

/-- The documents as they are written. -/
def documents (s : Settings) : List Path := [s.importGraph, s.callGraph, s.watchState]

/-- The file that a written path stands for, seen from the state folder. -/
def destination (dir p : Path) : List Component :=
  if p.isAbsolute then p.steps else dir.steps ++ p.steps

theorem steps_storagePath (dir p : Path) : (storagePath dir p).steps = destination dir p := by
  rw [storagePath, Path.absolutize, destination]
  split
  · rfl
  · rename_i habs
    exact Path.steps_join dir (Bool.not_eq_true _ ▸ habs)

theorem problems_eq_nil_iff : s.problems = [] ↔ (∀ p ∈ s.documents, p.text ≠ "") ∧
    s.importGraph.same s.callGraph = false ∧ s.quietPeriod ≠ 0 := by
  have hmessage : ∀ (c : Prop) [Decidable c] (m : String), (if c then [m] else []) = [] ↔ ¬ c := by
    intro c _ m
    split <;> simp_all
  simp only [problems, List.append_eq_nil_iff, hmessage, documents, List.forall_mem_cons,
    List.not_mem_nil, false_implies, implies_true, and_true, and_assoc, Bool.not_eq_true, ne_eq]

/-- What the files of a workspace are, in terms of the written paths. -/
theorem keepsApart_iff (s : Settings) (d : Disk) (dir : Path) : (s.workspace d dir).KeepsApart ↔
    (s.documents.map (destination dir)).Nodup ∧
      ∀ graph ∈ s.graphs, ∀ p ∈ s.documents,
        destination dir p ≠ temporaryPlace (destination dir graph) := by
  have hdocuments : (s.workspace d dir).documents = s.documents.map (storagePath dir) := rfl
  have htemporaries : (s.workspace d dir).temporaries =
      s.graphs.map (Disk.temporary ∘ storagePath dir) := rfl
  rw [WorkspaceSettings.KeepsApart, hdocuments, htemporaries, List.Nodup, List.pairwise_map,
    List.pairwise_map]
  simp only [List.forall_mem_map, Function.comp_apply, Disk.steps_temporary, steps_storagePath]
  exact and_congr_right fun _ => ⟨fun h graph hg p hp => h p hp graph hg,
    fun h p hp graph hg => h graph hg p hp⟩

/--
The ways in which settings without problems name one file twice: the two graphs are written with and
without a `.` in front, or from the top and from the state folder; the tracked files are kept in a
graph; a graph names no file; a document is the temporary file of a graph.
-/
inductive Clash (s : Settings) (dir : Path) : Prop
  | dotted (hdot : s.importGraph.isDotted ≠ s.callGraph.isDotted)
      (hsteps : s.importGraph.steps = s.callGraph.steps)
  | rooted (habs : s.importGraph.isAbsolute ≠ s.callGraph.isAbsolute)
      (hplace : destination dir s.importGraph = destination dir s.callGraph)
  | tracked (graph : Path) (hgraph : graph ∈ s.graphs)
      (hplace : destination dir graph = destination dir s.watchState)
  | nameless (graph : Path) (hgraph : graph ∈ s.graphs)
      (hname : lastName? (destination dir graph) = none)
  | temporary (graph p : Path) (name : String) (hgraph : graph ∈ s.graphs) (hp : p ∈ s.documents)
      (hname : lastName? (destination dir graph) = some name)
      (hplace : destination dir p =
        (destination dir graph).dropLast ++ [.name (temporaryName name)])

theorem nodup_documents_iff : (s.documents.map (destination dir)).Nodup ↔
    destination dir s.importGraph ≠ destination dir s.callGraph ∧
      ∀ graph ∈ s.graphs, destination dir graph ≠ destination dir s.watchState := by
  simp only [documents, graphs, List.map_cons, List.map_nil, List.nodup_cons, List.mem_cons,
    List.not_mem_nil, or_false, not_or, not_false_eq_true, List.nodup_nil, and_true,
    forall_eq_or_imp, forall_eq, ne_eq, and_assoc]

/-- The check for different graphs leaves two ways in which they are one file. -/
theorem destination_eq_iff (h : p.same q = false) : destination dir p = destination dir q ↔
    (p.isDotted ≠ q.isDotted ∧ p.steps = q.steps) ∨
      (p.isAbsolute ≠ q.isAbsolute ∧ destination dir p = destination dir q) := by
  have hdot : p.steps = q.steps → p.isDotted ≠ q.isDotted := by
    intro hsteps hdot
    rw [Path.same_iff_steps.mpr ⟨hsteps, hdot⟩] at h
    cases h
  by_cases habs : p.isAbsolute = q.isAbsolute
  · have hplace : destination dir p = destination dir q ↔ p.steps = q.steps := by
      rw [destination, destination, habs]
      split
      · rfl
      · exact List.append_right_inj _
    rw [hplace]
    exact ⟨fun hsteps => .inl ⟨hdot hsteps, hsteps⟩, fun hor => hor.elim (·.2) fun hr => absurd habs hr.1⟩
  · refine ⟨fun hplace => .inr ⟨habs, hplace⟩, fun hor => hor.elim (fun hl => ?_) (·.2)⟩
    refine absurd (Bool.eq_iff_iff.mpr ?_) habs
    rw [← Path.root_mem_steps, ← Path.root_mem_steps, hl.2]

theorem keepsApart_iff_not_clash (h : s.problems = []) (d : Disk) (dir : Path) :
    (s.workspace d dir).KeepsApart ↔ ¬ s.Clash dir := by
  have hsame := (problems_eq_nil_iff.mp h).2.1
  rw [keepsApart_iff, nodup_documents_iff]
  constructor
  · rintro ⟨⟨hgraphs, htracked⟩, htemporary⟩ hclash
    cases hclash with
    | dotted hdot hsteps => exact hgraphs ((destination_eq_iff hsame).mpr (.inl ⟨hdot, hsteps⟩))
    | rooted habs hplace => exact hgraphs hplace
    | tracked graph hgraph hplace => exact htracked graph hgraph hplace
    | nameless graph hgraph hname =>
      have hdocument : graph ∈ s.documents := List.mem_append_left [s.watchState] hgraph
      exact htemporary graph hgraph graph hdocument (by rw [temporaryPlace, hname]; rfl)
    | temporary graph p name hgraph hp hname hplace =>
      exact htemporary graph hgraph p hp (by rw [temporaryPlace, hname]; exact hplace)
  · intro hno
    refine ⟨⟨fun hplace => ?_, fun graph hgraph hplace => hno (.tracked graph hgraph hplace)⟩,
      fun graph hgraph p hp hplace => ?_⟩
    · rcases (destination_eq_iff hsame).mp hplace with ⟨hdot, hsteps⟩ | ⟨habs, hplace⟩
      · exact hno (.dotted hdot hsteps)
      · exact hno (.rooted habs hplace)
    · cases hname : lastName? (destination dir graph) with
      | none => exact hno (.nameless graph hgraph hname)
      | some name =>
        rw [temporaryPlace, hname] at hplace
        exact hno (.temporary graph p name hgraph hp hname hplace)

end Settings

/-! ## Ordinary paths -/

/-- A relative path that is written as names with one separator between them. -/
def Path.IsOrdinary (p : Path) : Prop :=
  ∃ names, names ≠ [] ∧ (∀ n ∈ names, IsName n) ∧ p = ⟨"/".intercalate names⟩

namespace Path.IsOrdinary

open Disk (temporaryName temporaryPlace)
open Settings (destination)

variable {p q dir : Path}

theorem isAbsolute (h : p.IsOrdinary) : p.isAbsolute = false := by
  obtain ⟨names, hne, hnames, rfl⟩ := h
  exact isAbsolute_intercalate hne hnames

theorem segments (h : p.IsOrdinary) :
    p.segments ≠ [] ∧ (∀ n ∈ p.segments, IsName n) ∧ p.steps = p.segments.map .name := by
  have hrelative := h.isAbsolute
  obtain ⟨names, hne, hnames, rfl⟩ := h
  have hsegs : (Path.mk ("/".intercalate names)).segments = names :=
    Text.segments_intercalate hne fun n hn => (hnames n hn).no_separator
  rw [steps_of_relative hrelative, hsegs]
  exact ⟨hne, hnames, components_of_names hnames⟩

theorem destination (h : p.IsOrdinary) (dir : Path) : destination dir p = dir.steps ++ p.steps := by
  rw [Settings.destination, h.isAbsolute]
  rfl

/-- Ordinary paths are written differently if they are different files. -/
theorem destination_inj (hp : p.IsOrdinary) (hq : q.IsOrdinary) :
    Settings.destination dir p = Settings.destination dir q ↔ p = q := by
  rw [hp.destination, hq.destination, List.append_right_inj, hp.segments.2.2, hq.segments.2.2,
    List.map_inj_right fun _ _ => Component.name.inj]
  refine ⟨fun h => ?_, fun h => h ▸ rfl⟩
  have htext := congrArg ("/".intercalate ·) h
  simp only [Path.segments, Text.intercalate_segments] at htext
  exact congrArg Path.mk htext

theorem not_mem_iff (hq : q.IsOrdinary) {ps : List Path} (hps : ∀ p ∈ ps, p.IsOrdinary) :
    q ∉ ps ↔ ∀ p ∈ ps, Settings.destination dir p ≠ Settings.destination dir q := by
  refine ⟨fun h p hp hplace => ?_, fun h hmem => h q hmem rfl⟩
  rw [(hps p hp).destination_inj hq] at hplace
  exact h (hplace ▸ hp)

theorem temporary (h : p.IsOrdinary) : (Disk.temporary p).IsOrdinary := by
  obtain ⟨hne, hnames, -⟩ := h.segments
  obtain ⟨front, name, hsegs⟩ := (List.eq_nil_or_concat' p.segments).resolve_left hne
  rw [hsegs] at hnames
  have hname := hnames name (by simp)
  refine ⟨front ++ [temporaryName name], by simp, fun n hn => ?_,
    Disk.temporary_of_segments hname rfl hsegs⟩
  rcases List.mem_append.mp hn with hn | hn
  · exact hnames n (List.mem_append_left _ hn)
  · rw [List.mem_singleton.mp hn]
    exact Disk.isName_temporaryName hname

theorem destination_temporary (h : p.IsOrdinary) :
    temporaryPlace (Settings.destination dir p) = Settings.destination dir (Disk.temporary p) := by
  have hne : p.steps ≠ [] := by
    rw [h.segments.2.2, Ne, List.map_eq_nil_iff]
    exact h.segments.1
  rw [h.destination, h.temporary.destination, Disk.temporaryPlace_append _ hne,
    Disk.steps_temporary]

end Path.IsOrdinary

namespace Settings

variable {s : Settings}

theorem keepsApart_iff_of_ordinary (h : s.problems = []) (hall : ∀ p ∈ s.documents, p.IsOrdinary)
    (d : Disk) (dir : Path) : (s.workspace d dir).KeepsApart ↔
      s.watchState ∉ s.graphs ∧ ∀ graph ∈ s.graphs, Disk.temporary graph ∉ s.documents := by
  have hgraphs : ∀ graph ∈ s.graphs, graph.IsOrdinary := fun graph hgraph =>
    hall graph (List.mem_append_left [s.watchState] hgraph)
  have hdiffer : destination dir s.importGraph ≠ destination dir s.callGraph := by
    rw [Ne, (hgraphs _ (by simp [graphs])).destination_inj (hgraphs _ (by simp [graphs]))]
    intro heq
    have hsame := (problems_eq_nil_iff.mp h).2.1
    rw [heq, Path.same_iff_steps.mpr ⟨rfl, rfl⟩] at hsame
    cases hsame
  rw [keepsApart_iff, nodup_documents_iff, and_iff_right hdiffer,
    (hall s.watchState (by simp [documents])).not_mem_iff hgraphs]
  refine and_congr_right fun _ => forall₂_congr fun graph hgraph => ?_
  rw [(hgraphs graph hgraph).destination_temporary, (hgraphs graph hgraph).temporary.not_mem_iff hall]

/--
Settings without problems keep the documents apart, in every state folder, exactly if none of the
five clashes happens. If the documents are written as ordinary paths, this means that the tracked
files are not kept in a graph, and that no document has the name of a temporary file.
-/
theorem documents_apart_iff (h : s.problems = []) (d : Disk) (dir : Path) :
    ((s.workspace d dir).KeepsApart ↔ ¬ s.Clash dir) ∧
    ((∀ p ∈ s.documents, p.IsOrdinary) → ((s.workspace d dir).KeepsApart ↔
      s.watchState ∉ s.graphs ∧ ∀ graph ∈ s.graphs, Disk.temporary graph ∉ s.documents)) :=
  ⟨keepsApart_iff_not_clash h d dir, fun hall => keepsApart_iff_of_ordinary h hall d dir⟩

/--
The defaults are apart in `/ws/.codeweave`. The two graphs in `g.json` and `./g.json` are not, though
the settings have no problem.
-/
theorem documents_apart_iff_dotted :
    (({} : Settings).workspace default ⟨"/ws/.codeweave"⟩).KeepsApart ∧
    ({ importGraph := ⟨"g.json"⟩, callGraph := ⟨"./g.json"⟩ } : Settings).problems = [] ∧
    ¬ (({ importGraph := ⟨"g.json"⟩, callGraph := ⟨"./g.json"⟩ } : Settings).workspace default
      ⟨"/ws/.codeweave"⟩).KeepsApart := by
  have hordinary : ∀ n : String, Path.IsName n → (Path.mk n).IsOrdinary := fun n hn =>
    ⟨[n], by simp, by simpa using hn, by simp⟩
  have hdefaults : ({} : Settings).problems = [] := by decide
  have hdotted : ({ importGraph := ⟨"g.json"⟩, callGraph := ⟨"./g.json"⟩ } : Settings).problems = [] := by
    decide
  refine ⟨((documents_apart_iff hdefaults _ _).2 ?_).mpr ?_, hdotted, fun hapart => ?_⟩
  · rintro p hp
    simp only [documents, List.mem_cons, List.not_mem_nil, or_false] at hp
    rcases hp with rfl | rfl | rfl <;> exact hordinary _ (by decide)
  · decide
  · exact (documents_apart_iff hdotted _ _).1.mp hapart (.dotted (by decide) (by decide))

end Settings

end SourceGraph
