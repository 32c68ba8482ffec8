import SourceGraph.Proofs.Document

/-!
# Artifacts and graphs are read back

A value is read back from what was written for it if its lines are integers of 64 bits. Only such
values are read, however a document spells them: with other fields beside the known ones, with
fields left out, or with arrays in place of objects. So a document that was read and written again
means the same.

* `Json.Restores`: a reader gives only values of a kind, and reads each of them back.
* `Artifact.LinesFit`: the lines of an artifact have 64 bits.
* `Artifact.restores`, `GraphDocument.restores`: the two kinds of documents.
* `Artifact.documents_read_back`: what is written is read back, and so is what was read.
-/

set_option autoImplicit false

namespace SourceGraph

open Json

namespace Json

/-! ## Readers -/

/-- A reader gives only values with `P`, and reads each of them back from what is written. -/
structure Restores {α : Type} (read : Json → Option α) (write : α → Json) (P : α → Prop) :
    Prop where
  sound : ∀ {j a}, read j = some a → P a
  back : ∀ {a}, P a → read (write a) = some a

/-- What is read twice is what was read once. -/
theorem Restores.again {α : Type} {read : Json → Option α} {write : α → Json} {P : α → Prop}
    (h : Restores read write P) {j : Json} {a : α} (hread : read j = some a) :
    read (write a) = some a :=
  h.back (h.sound hread)

theorem nat?_lt {j : Json} {n : Nat} (h : nat? j = some n) : n < UInt64.size := by
  rw [nat?.eq_def] at h
  split at h
  · obtain ⟨hlt, hn⟩ := Option.ite_none_right_eq_some.mp h
    exact Option.some.inj hn ▸ hlt
  · cases h

section Fields

variable {α : Type} {read : Json → Option α} {write : α → Json} {P : α → Prop} {r : Record}
  {name : String}

theorem Restores.list (h : Restores read write P) :
    Restores (list? read) (fun xs => array (xs.map write)) fun xs => ∀ x ∈ xs, P x where
  sound := by
    intro j xs hread
    rw [list?.eq_def] at hread
    split at hread
    · rename_i items
      induction items generalizing xs with
      | nil =>
        cases hread
        simp
      | cons i items ih =>
        rw [List.mapM_cons] at hread
        obtain ⟨x, hx, hread⟩ := Option.bind_eq_some_iff.mp hread
        obtain ⟨rest, hrest, hxs⟩ := Option.bind_eq_some_iff.mp hread
        cases hxs
        exact List.forall_mem_cons.mpr ⟨h.sound hx, ih hrest⟩
    · cases hread
  back hall := list?_map fun x hx => h.back (hall x hx)

theorem Record.sound_required? (h : ∀ {j a}, read j = some a → P a) {a : α}
    (hread : r.required? name read = some a) : P a := by
  obtain ⟨j, -, hj⟩ := Option.bind_eq_some_iff.mp hread
  exact h hj

theorem Record.sound_default? (h : ∀ {j a}, read j = some a → P a) {a default : α}
    (hdefault : P default) (hread : r.default? name read default = some a) : P a := by
  rw [Record.default?] at hread
  split at hread
  · cases hread
    exact hdefault
  · exact h hread

theorem Record.sound_optional? (h : ∀ {j a}, read j = some a → P a) {x : Option α}
    (hread : r.optional? name read = some x) : ∀ a ∈ x, P a := by
  rw [Record.optional?] at hread
  split at hread
  · cases hread
    simp
  · cases hread
    simp
  · obtain ⟨b, hb, rfl⟩ := Option.map_eq_some_iff.mp hread
    intro a ha
    cases ha
    exact h hb

end Fields

end Json

/-! ## Parts of artifacts -/

theorem CallKind.kindOf?_text (k : CallKind) :
    kindOf? CallKind.text CallKind.all (.string k.text) = some k := by
  cases k <;> decide

theorem EntityKind.kindOf?_text (k : EntityKind) :
    kindOf? EntityKind.text EntityKind.all (.string k.text) = some k := by
  cases k <;> decide

/-- The lines of a span are integers of 64 bits. -/
def LineSpan.LinesFit (s : LineSpan) : Prop := s.first < UInt64.size ∧ s.last < UInt64.size

theorem LineSpan.restores : Restores ofJson? toJson LinesFit where
  sound h := by
    obtain ⟨r, -, h⟩ := Option.bind_eq_some_iff.mp h
    obtain ⟨first, hfirst, h⟩ := Option.bind_eq_some_iff.mp h
    obtain ⟨last, hlast, h⟩ := Option.bind_eq_some_iff.mp h
    cases h
    exact ⟨Record.sound_required? nat?_lt hfirst, Record.sound_required? nat?_lt hlast⟩
  back {s} h := by
    have hrecord : record? ["startLine", "endLine"] s.toJson =
        some ⟨[("startLine", .number s.first), ("endLine", .number s.last)]⟩ :=
      record?_object (by decide) (List.Sublist.refl _)
    rw [ofJson?, hrecord]
    change (nat? (.number s.first)).bind _ = _
    rw [nat?_of_lt h.1]
    change (nat? (.number s.last)).bind _ = _
    rw [nat?_of_lt h.2]
    rfl

theorem FileIdentity.ofJson?_toJson (f : FileIdentity) : ofJson? f.toJson = some f := by
  have hrecord : record? ["id", "path", "language"] f.toJson =
      some ⟨[("id", .string f.id), ("path", .string f.path), ("language", .string f.language)]⟩ :=
    record?_object (by decide) (List.Sublist.refl _)
  rw [ofJson?, hrecord]
  rfl

theorem Definition.ofJson?_toJson (d : Definition) : ofJson? d.toJson = some d := by
  have hrecord : record? ["file", "name"] d.toJson =
      some ⟨[("file", .string d.file), ("name", .string d.name)]⟩ :=
    record?_object (by decide) (List.Sublist.refl _)
  rw [ofJson?, hrecord]
  rfl

theorem ImportedName.ofJson?_toJson (n : ImportedName) : ofJson? n.toJson = some n := by
  have hwritten : n.toJson = object (written [("name", some (.string n.name)),
      ("alias", n.renamed.map .string)]) := by
    simp [toJson, written, present]
  obtain ⟨r, hr, hget⟩ := record?_written ["name", "alias"] (by decide) hwritten rfl
  simp only [List.forall_mem_cons] at hget
  obtain ⟨hname, hrenamed, -⟩ := hget
  have hrenamed? : r.optional? "alias" string? = some n.renamed :=
    Record.optional?_eq hrenamed (fun _ _ => rfl) (by simp)
  simp only [ofJson?, hr, Record.required?_eq hname, string?, hrenamed?, Option.bind_eq_bind,
    Option.bind_some, Option.pure_def]

/-- The line of an import is an integer of 64 bits. -/
def Import.LinesFit (i : Import) : Prop := ∀ line ∈ i.line, line < UInt64.size

theorem Import.restores : Restores ofJson? toJson LinesFit where
  sound h := by
    obtain ⟨r, -, h⟩ := Option.bind_eq_some_iff.mp h
    obtain ⟨source, -, h⟩ := Option.bind_eq_some_iff.mp h
    obtain ⟨names, -, h⟩ := Option.bind_eq_some_iff.mp h
    obtain ⟨resolvedPath, -, h⟩ := Option.bind_eq_some_iff.mp h
    obtain ⟨reexport, -, h⟩ := Option.bind_eq_some_iff.mp h
    obtain ⟨line, hline, h⟩ := Option.bind_eq_some_iff.mp h
    cases h
    exact Record.sound_optional? nat?_lt hline
  back {i} h := by
    -- a re-export is written only where there is one
    have hreexport : (if i.reexport then [("reexport", Json.bool true)] else []) =
        present "reexport" (if i.reexport then some (.bool true) else none) := by
      cases i.reexport <;> rfl
    have hwritten : i.toJson = object (written [("source", some (.string i.source)),
        ("specifiers", some (.array (i.names.map (·.toJson)))),
        ("resolvedPath", i.resolvedPath.map .string),
        ("reexport", if i.reexport then some (.bool true) else none),
        ("line", i.line.map .number)]) := by
      rw [toJson, hreexport]
      simp [written, present]
    obtain ⟨r, hr, hget⟩ := record?_written
      ["source", "specifiers", "resolvedPath", "reexport", "line"] (by decide) hwritten rfl
    simp only [List.forall_mem_cons] at hget
    obtain ⟨hsource, hnames, hpath, hreexport, hline, -⟩ := hget
    have hnames? : list? ImportedName.ofJson? (.array (i.names.map (·.toJson))) = some i.names :=
      list?_map fun n _ => ImportedName.ofJson?_toJson n
    have hpath? : r.optional? "resolvedPath" string? = some i.resolvedPath :=
      Record.optional?_eq hpath (fun _ _ => rfl) (by simp)
    have hreexport? : r.default? "reexport" bool? false = some i.reexport := by
      rw [Record.default?, hreexport]
      cases i.reexport <;> rfl
    have hline? : r.optional? "line" nat? = some i.line :=
      Record.optional?_eq hline (fun n hn => nat?_of_lt (h n hn)) (by simp)
    simp only [ofJson?, hr, Record.required?_eq hsource, Record.default?_eq hnames, string?,
      hnames?, hpath?, hreexport?, hline?, Option.bind_eq_bind, Option.bind_some, Option.pure_def]

/-- The lines of a call are integers of 64 bits. -/
def CallSite.LinesFit (c : CallSite) : Prop := ∀ span ∈ c.span, span.LinesFit

theorem CallSite.restores : Restores ofJson? toJson LinesFit where
  sound h := by
    obtain ⟨r, -, h⟩ := Option.bind_eq_some_iff.mp h
    obtain ⟨callee, -, h⟩ := Option.bind_eq_some_iff.mp h
    obtain ⟨kind, -, h⟩ := Option.bind_eq_some_iff.mp h
    obtain ⟨span, hspan, h⟩ := Option.bind_eq_some_iff.mp h
    obtain ⟨definition, -, h⟩ := Option.bind_eq_some_iff.mp h
    cases h
    exact Record.sound_optional? LineSpan.restores.sound hspan
  back {c} h := by
    have hwritten : c.toJson = object (written [("calleeName", some (.string c.callee)),
        ("kind", some (.string c.kind.text)), ("loc", c.span.map (·.toJson)),
        ("resolvedDefinition", c.definition.map (·.toJson))]) := by
      simp [toJson, written, present]
    obtain ⟨r, hr, hget⟩ := record?_written ["calleeName", "kind", "loc", "resolvedDefinition"]
      (by decide) hwritten rfl
    simp only [List.forall_mem_cons] at hget
    obtain ⟨hcallee, hkind, hspan, hdefinition, -⟩ := hget
    have hspan? : r.optional? "loc" LineSpan.ofJson? = some c.span :=
      Record.optional?_eq hspan (fun s hs => LineSpan.restores.back (h s hs))
        (by simp [LineSpan.toJson])
    have hdefinition? : r.optional? "resolvedDefinition" Definition.ofJson? = some c.definition :=
      Record.optional?_eq hdefinition (fun d _ => Definition.ofJson?_toJson d)
        (by simp [Definition.toJson])
    simp only [ofJson?, hr, Record.required?_eq hcallee, Record.required?_eq hkind, string?,
      CallKind.kindOf?_text, hspan?, hdefinition?, Option.bind_eq_bind, Option.bind_some,
      Option.pure_def]

/-- The lines of an entity and of its calls are integers of 64 bits. -/
def Entity.LinesFit (e : Entity) : Prop := e.span.LinesFit ∧ ∀ c ∈ e.calls, c.LinesFit

theorem Entity.restores : Restores ofJson? toJson LinesFit where
  sound h := by
    obtain ⟨r, -, h⟩ := Option.bind_eq_some_iff.mp h
    obtain ⟨id, -, h⟩ := Option.bind_eq_some_iff.mp h
    obtain ⟨name, -, h⟩ := Option.bind_eq_some_iff.mp h
    obtain ⟨kind, -, h⟩ := Option.bind_eq_some_iff.mp h
    obtain ⟨signature, -, h⟩ := Option.bind_eq_some_iff.mp h
    obtain ⟨span, hspan, h⟩ := Option.bind_eq_some_iff.mp h
    obtain ⟨isExported, -, h⟩ := Option.bind_eq_some_iff.mp h
    obtain ⟨isAsync, -, h⟩ := Option.bind_eq_some_iff.mp h
    obtain ⟨calls, hcalls, h⟩ := Option.bind_eq_some_iff.mp h
    cases h
    exact ⟨Record.sound_required? LineSpan.restores.sound hspan,
      Record.sound_default? CallSite.restores.list.sound (by simp) hcalls⟩
  back {e} h := by
    have hrecord : record?
        ["id", "name", "kind", "signature", "loc", "isExported", "isAsync", "calls"] e.toJson =
          some ⟨[("id", .string e.id), ("name", .string e.name), ("kind", .string e.kind.text),
            ("signature", .string e.signature), ("loc", e.span.toJson),
            ("isExported", .bool e.isExported), ("isAsync", .bool e.isAsync),
            ("calls", .array (e.calls.map (·.toJson)))]⟩ :=
      record?_object (by decide) (List.Sublist.refl _)
    have hspan? : LineSpan.ofJson? e.span.toJson = some e.span := LineSpan.restores.back h.1
    have hcalls? : list? CallSite.ofJson? (.array (e.calls.map (·.toJson))) = some e.calls :=
      CallSite.restores.list.back h.2
    rw [ofJson?, hrecord]
    change (kindOf? EntityKind.text EntityKind.all (.string e.kind.text)).bind _ = _
    rw [EntityKind.kindOf?_text]
    change (LineSpan.ofJson? e.span.toJson).bind _ = _
    rw [hspan?]
    change (list? CallSite.ofJson? (.array (e.calls.map (·.toJson)))).bind _ = _
    rw [hcalls?]
    rfl

/-! ## Documents -/

/-- All lines of an artifact are integers of 64 bits. -/
structure Artifact.LinesFit (a : Artifact) : Prop where
  imports : ∀ i ∈ a.imports, i.LinesFit
  entities : ∀ e ∈ a.entities, e.LinesFit
  moduleCalls : ∀ c ∈ a.moduleCalls, c.LinesFit

theorem Artifact.restores : Restores ofJson? toJson LinesFit where
  sound h := by
    obtain ⟨r, -, h⟩ := Option.bind_eq_some_iff.mp h
    obtain ⟨schemaVersion, -, h⟩ := Option.bind_eq_some_iff.mp h
    obtain ⟨file, -, h⟩ := Option.bind_eq_some_iff.mp h
    obtain ⟨imports, himports, h⟩ := Option.bind_eq_some_iff.mp h
    obtain ⟨entities, hentities, h⟩ := Option.bind_eq_some_iff.mp h
    obtain ⟨moduleCalls, hcalls, h⟩ := Option.bind_eq_some_iff.mp h
    obtain ⟨exports, -, h⟩ := Option.bind_eq_some_iff.mp h
    cases h
    exact ⟨Record.sound_default? Import.restores.list.sound (by simp) himports,
      Record.sound_default? Entity.restores.list.sound (by simp) hentities,
      Record.sound_default? CallSite.restores.list.sound (by simp) hcalls⟩
  back {a} h := by
    have hwritten : a.toJson = object (written [("schemaVersion", some (.string a.schemaVersion)),
        ("file", some a.file.toJson), ("imports", some (.array (a.imports.map (·.toJson)))),
        ("entities", some (.array (a.entities.map (·.toJson)))),
        ("moduleCalls", some (.array (a.moduleCalls.map (·.toJson)))),
        ("exports", a.exports.map fun names => .array (names.map .string))]) := by
      simp [toJson, written, present]
    obtain ⟨r, hr, hget⟩ := record?_written
      ["schemaVersion", "file", "imports", "entities", "moduleCalls", "exports"] (by decide)
      hwritten rfl
    simp only [List.forall_mem_cons] at hget
    obtain ⟨hversion, hfile, himports, hentities, hcalls, hexports, -⟩ := hget
    have hexports? : r.optional? "exports" (list? string?) = some a.exports :=
      Record.optional?_eq hexports (fun _ _ => list?_map fun _ _ => rfl) (by simp)
    have himports? := Import.restores.list.back h.imports
    have hentities? := Entity.restores.list.back h.entities
    have hcalls? := CallSite.restores.list.back h.moduleCalls
    simp only [ofJson?, hr, Record.required?_eq hversion, Record.required?_eq hfile,
      Record.default?_eq himports, Record.default?_eq hentities, Record.default?_eq hcalls, string?,
      FileIdentity.ofJson?_toJson, himports?, hentities?, hcalls?, hexports?, Option.bind_eq_bind,
      Option.bind_some, Option.pure_def]

/-! ## Graphs -/

theorem Node.restores : Restores ofJson? toJson LinesFit where
  sound h := by
    obtain ⟨r, -, h⟩ := Option.bind_eq_some_iff.mp h
    obtain ⟨id, -, h⟩ := Option.bind_eq_some_iff.mp h
    obtain ⟨name, -, h⟩ := Option.bind_eq_some_iff.mp h
    obtain ⟨kind, -, h⟩ := Option.bind_eq_some_iff.mp h
    obtain ⟨fileId, -, h⟩ := Option.bind_eq_some_iff.mp h
    obtain ⟨signature, -, h⟩ := Option.bind_eq_some_iff.mp h
    obtain ⟨startLine, hstart, h⟩ := Option.bind_eq_some_iff.mp h
    obtain ⟨endLine, hend, h⟩ := Option.bind_eq_some_iff.mp h
    cases h
    exact ⟨Record.sound_optional? nat?_lt hstart, Record.sound_optional? nat?_lt hend⟩
  back := Node.ofJson?_toJson

theorem GraphDocument.restores : Restores ofJson? toJson fun d =>
    d.savedAt.IsValid ∧ ∀ n ∈ d.nodes, n.LinesFit where
  sound h := by
    obtain ⟨r, -, h⟩ := Option.bind_eq_some_iff.mp h
    obtain ⟨version, -, h⟩ := Option.bind_eq_some_iff.mp h
    obtain ⟨savedAt, hsaved, h⟩ := Option.bind_eq_some_iff.mp h
    obtain ⟨nodes, hnodes, h⟩ := Option.bind_eq_some_iff.mp h
    obtain ⟨edges, -, h⟩ := Option.bind_eq_some_iff.mp h
    obtain ⟨unresolved, -, h⟩ := Option.bind_eq_some_iff.mp h
    cases h
    have htime : ∀ {j t}, (string? j).bind Timestamp.parse? = some t → t.IsValid := by
      intro j t hread
      obtain ⟨s, -, ht⟩ := Option.bind_eq_some_iff.mp hread
      exact Timestamp.isValid_of_parse? ht
    exact ⟨Record.sound_required? htime hsaved,
      Record.sound_default? Node.restores.list.sound (by simp) hnodes⟩
  back h := ofJson?_toJson h.1 h.2

/--
An artifact and a graph are read back from what is written for them. What was read from any value
is read again from what is written for it.
-/
theorem Artifact.documents_read_back :
    (∀ a : Artifact, a.LinesFit → Artifact.ofJson? a.toJson = some a) ∧
      (∀ d : GraphDocument, d.savedAt.IsValid → (∀ n ∈ d.nodes, n.LinesFit) →
        GraphDocument.ofJson? d.toJson = some d) ∧
      (∀ (j : Json) (a : Artifact), Artifact.ofJson? j = some a →
        Artifact.ofJson? a.toJson = some a) ∧
      ∀ (j : Json) (d : GraphDocument), GraphDocument.ofJson? j = some d →
        GraphDocument.ofJson? d.toJson = some d :=
  ⟨fun _ => Artifact.restores.back,
    fun _ hsaved hlines => GraphDocument.restores.back ⟨hsaved, hlines⟩,
    fun _ _ => Artifact.restores.again, fun _ _ => GraphDocument.restores.again⟩

/-- An artifact as arrays and objects, with a field that is not known and others left out. -/
def Json.mixed : Json :=
  .array [.string "1.0.0", .object [("id", .string "a.ts"), ("size", .number 3),
      ("language", .string "typescript"), ("path", .string "/w/a.ts")],
    .array [.array [.string "./b", .array [.array [.string "b"]], .null, .bool true, .number 1]],
    .array [.object [("kind", .object [("function", .null)]), ("name", .string "f"),
      ("id", .string "f"), ("loc", .array [.number 2, .number 3]),
      ("calls", .array [.array [.string "b", .string "function", .array [.number 2, .number 2]]])]]]

/-- A graph whose time has an offset, with one node and without edges. -/
def Json.shifted : Json :=
  .object [("timestamp", .string "2024-03-01 00:30:00.5+01:00"), ("version", .string "1.0.0"),
    ("nodes", .array [.array [.string "f", .string "f", .string "function", .string "a.ts",
      .null, .number 2]]), ("unresolved", .array [])]

theorem Artifact.documents_read_back_mixed :
    (∃ a, Artifact.ofJson? Json.mixed = some a ∧ a.entities.length = 1 ∧ a.LinesFit ∧
        Artifact.ofJson? a.toJson = some a) ∧
      ∃ d, GraphDocument.ofJson? Json.shifted = some d ∧
        d.savedAt.text = "2024-02-29T23:30:00.500Z" ∧ d.unresolved = some [] ∧
        d.savedAt.IsValid ∧ (∀ n ∈ d.nodes, n.LinesFit) ∧
        GraphDocument.ofJson? d.toJson = some d := by
  obtain ⟨hartifact, hgraph, -, -⟩ := documents_read_back
  have hmixed : (Artifact.ofJson? Json.mixed).any (·.entities.length == 1) = true := by
    decide +kernel
  have hshifted : (GraphDocument.ofJson? Json.shifted).any (fun d =>
      d.savedAt.text == "2024-02-29T23:30:00.500Z" && d.unresolved == some []) = true := by
    decide +kernel
  rw [Option.any_eq_true] at hmixed hshifted
  obtain ⟨a, ha, hcount⟩ := hmixed
  obtain ⟨d, hd, htext⟩ := hshifted
  rw [Bool.and_eq_true, beq_iff_eq, beq_iff_eq] at htext
  obtain ⟨hsaved, hlines⟩ := GraphDocument.restores.sound hd
  exact ⟨⟨a, ha, beq_iff_eq.mp hcount, Artifact.restores.sound ha,
      hartifact a (Artifact.restores.sound ha)⟩,
    d, hd, htext.1, htext.2, hsaved, hlines, hgraph d hsaved hlines⟩

end SourceGraph
