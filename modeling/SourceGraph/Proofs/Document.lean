import SourceGraph.Proofs.Json
import SourceGraph.Proofs.Slice
import SourceGraph.Proofs.Timestamp
import SourceGraph.Tracker.Document

/-!
# Documents are read back

What is saved as a document is loaded again as it was, provided that the time of saving is one that
a clock can show and that line numbers have 64 bits.

* `GraphDocument.parse?_pretty`, `TrackerDocument.general?_pretty`: documents and their texts.
* `Store.openAt_of_read`: a store is opened as it was saved.
* `Tracker.load_of_read`: a tracker is loaded as it was saved.
-/

set_option autoImplicit false

namespace SourceGraph

open Json

namespace Json

/-! ## Records -/

variable {names : List String} {fields : List (String × Json)}

/-- An object whose fields are known ones in their order, some left out, is read as a record. -/
theorem record?_object (hnames : names.Nodup) (hfields : (fields.map (·.1)).Sublist names) :
    record? names (object fields) = some ⟨fields⟩ := by
  have hknown : fields.filter (fun f => names.contains f.1) = fields := by
    rw [List.filter_eq_self]
    intro f hf
    rw [List.contains_iff_mem]
    exact hfields.subset (List.mem_map_of_mem hf)
  rw [record?, hknown]
  exact if_pos (hfields.nodup hnames)

theorem map_present (name : String) (j : Option Json) :
    ((present name j).map (·.1)).Sublist [name] := by
  cases j with
  | none => exact List.nil_sublist _
  | some j => exact List.Sublist.refl _

theorem lookup_present (name other : String) (j : Option Json) :
    (present name j).lookup other = if other = name then j else none := by
  cases j with
  | none => simp [present]
  | some j =>
    by_cases h : other = name
    · simp [present, h]
    · have hbeq : (other == name) = false := beq_eq_false_iff_ne.mpr h
      simp [present, List.lookup_cons, h, hbeq]

/-- The fields that are written for some parts, some of which have no value. -/
def written (parts : List (String × Option Json)) : List (String × Json) :=
  parts.flatMap fun p => present p.1 p.2

theorem written_cons (p : String × Option Json) (parts : List (String × Option Json)) :
    written (p :: parts) = present p.1 p.2 ++ written parts := List.flatMap_cons

theorem map_written (parts : List (String × Option Json)) :
    ((written parts).map (·.1)).Sublist (parts.map (·.1)) := by
  induction parts with
  | nil => exact List.Sublist.refl []
  | cons p parts ih =>
    rw [written_cons, List.map_append]
    exact (map_present p.1 p.2).append ih

theorem lookup_written {parts : List (String × Option Json)} (hnames : (parts.map (·.1)).Nodup) :
    ∀ p ∈ parts, (written parts).lookup p.1 = p.2 := by
  induction parts with
  | nil => simp
  | cons p parts ih =>
    obtain ⟨hfirst, hrest⟩ := List.nodup_cons.mp hnames
    have hnone : (written parts).lookup p.1 = none := by
      rw [List.lookup_eq_none_iff]
      intro f hf
      have hne : f.1 ≠ p.1 :=
        ne_of_mem_of_not_mem ((map_written parts).subset (List.mem_map_of_mem hf)) hfirst
      simpa using hne.symm
    refine List.forall_mem_cons.mpr ⟨?_, fun q hq => ?_⟩
    · rw [written_cons, List.lookup_append, lookup_present, if_pos rfl, hnone, Option.or_none]
    · have hne : q.1 ≠ p.1 := ne_of_mem_of_not_mem (List.mem_map_of_mem hq) hfirst
      rw [written_cons, List.lookup_append, lookup_present, if_neg hne, Option.none_or, ih hrest q hq]

/-- What is written for some parts is read as a record with each of them. -/
theorem record?_written (names : List String) {parts : List (String × Option Json)} {j : Json}
    (hnames : names.Nodup) (hj : j = object (written parts)) (hparts : parts.map (·.1) = names) :
    ∃ r, record? names j = some r ∧ ∀ p ∈ parts, r.get? p.1 = p.2 := by
  subst hparts hj
  exact ⟨_, record?_object hnames (map_written parts), lookup_written hnames⟩

theorem list?_map {α : Type} {read : Json → Option α} {write : α → Json} {xs : List α}
    (h : ∀ x ∈ xs, read (write x) = some x) : list? read (array (xs.map write)) = some xs := by
  rw [list?]
  induction xs with
  | nil => rfl
  | cons x xs ih =>
    obtain ⟨hx, hxs⟩ := List.forall_mem_cons.mp h
    rw [List.map_cons, List.mapM_cons, hx, ih hxs]
    rfl

theorem table?_map {α : Type} {read : Json → Option α} {write : α → Json}
    {xs : List (String × α)} (h : ∀ x, read (write x) = some x) :
    table? read (object (xs.map fun x => (x.1, write x.2))) = some xs := by
  rw [table?]
  induction xs with
  | nil => rfl
  | cons x xs ih =>
    rw [List.map_cons, List.mapM_cons, ih]
    dsimp only
    rw [h]
    rfl

end Json

/-! ## Nodes and edges -/

/-- The lines of a node are integers of 64 bits. -/
def Node.LinesFit (n : Node) : Prop :=
  (∀ line ∈ n.startLine, line < UInt64.size) ∧ ∀ line ∈ n.endLine, line < UInt64.size

instance : DecidablePred Node.LinesFit := fun n =>
  inferInstanceAs (Decidable ((∀ line ∈ n.startLine, line < UInt64.size) ∧
    ∀ line ∈ n.endLine, line < UInt64.size))

theorem NodeKind.kindOf?_text (k : NodeKind) :
    kindOf? NodeKind.text NodeKind.all (.string k.text) = some k := by
  cases k with
  | file => decide
  | entity kind => cases kind <;> decide

theorem EdgeKind.kindOf?_text (k : EdgeKind) :
    kindOf? EdgeKind.text EdgeKind.all (.string k.text) = some k := by
  cases k <;> decide

theorem Json.nat?_of_lt {line : Nat} (h : line < UInt64.size) : nat? (number line) = some line :=
  if_pos h

theorem Json.Record.required?_eq {α : Type} {r : Record} {name : String} {j : Json}
    (h : r.get? name = some j) (read : Json → Option α) : r.required? name read = read j := by
  rw [Record.required?, h, Option.bind_some]

theorem Json.Record.default?_eq {α : Type} {r : Record} {name : String} {j : Json}
    (h : r.get? name = some j) (read : Json → Option α) (default : α) :
    r.default? name read default = read j := by
  rw [Record.default?, h]

/-- A value that was written if there was one. -/
theorem Json.Record.optional?_eq {α : Type} {r : Record} {name : String} {x : Option α}
    {write : α → Json} {read : Json → Option α} (h : r.get? name = x.map write)
    (hread : ∀ a ∈ x, read (write a) = some a) (hnull : ∀ a, write a ≠ null) :
    r.optional? name read = some x := by
  rw [Record.optional?, h]
  cases x with
  | none => rfl
  | some a =>
    rw [Option.map_some]
    split
    · rename_i hnone
      cases hnone
    · rename_i hsome
      exact absurd (Option.some.inj hsome) (hnull a)
    · rename_i j _ hsome
      rw [← Option.some.inj hsome, hread a rfl]
      rfl

theorem Node.ofJson?_toJson {n : Node} (h : n.LinesFit) : Node.ofJson? n.toJson = some n := by
  have hwritten : n.toJson = object (written [("id", some (.string n.id)),
      ("name", some (.string n.name)), ("kind", some (.string n.kind.text)),
      ("fileId", some (.string n.fileId)), ("signature", n.signature.map .string),
      ("startLine", n.startLine.map .number), ("endLine", n.endLine.map .number)]) := by
    simp [toJson, written, present]
  obtain ⟨r, hr, hget⟩ := record?_written
    ["id", "name", "kind", "fileId", "signature", "startLine", "endLine"] (by decide) hwritten rfl
  simp only [List.forall_mem_cons] at hget
  obtain ⟨hid, hname, hkind, hfile, hsignature, hstart, hend, -⟩ := hget
  have hsignature? : r.optional? "signature" string? = some n.signature :=
    Record.optional?_eq hsignature (fun _ _ => rfl) (by simp)
  have hstart? : r.optional? "startLine" nat? = some n.startLine :=
    Record.optional?_eq hstart (fun line hline => nat?_of_lt (h.1 line hline)) (by simp)
  have hend? : r.optional? "endLine" nat? = some n.endLine :=
    Record.optional?_eq hend (fun line hline => nat?_of_lt (h.2 line hline)) (by simp)
  simp only [ofJson?, hr, Record.required?_eq hid, Record.required?_eq hname,
    Record.required?_eq hkind, Record.required?_eq hfile, string?, NodeKind.kindOf?_text,
    hsignature?, hstart?, hend?, Option.bind_eq_bind, Option.bind_some, Option.pure_def]

theorem Edge.ofJson?_toJson (e : Edge) : Edge.ofJson? e.toJson = some e := by
  have hrecord : record? ["source", "target", "kind"] e.toJson =
      some ⟨[("source", .string e.source), ("target", .string e.target),
        ("kind", .string e.kind.text)]⟩ :=
    record?_object (by decide) (List.Sublist.refl _)
  have hkind := EdgeKind.kindOf?_text e.kind
  rw [ofJson?, hrecord]
  change (kindOf? EdgeKind.text EdgeKind.all (.string e.kind.text)).bind _ = _
  rw [hkind]
  rfl

theorem UnresolvedCall.ofJson?_toJson (u : UnresolvedCall) :
    UnresolvedCall.ofJson? u.toJson = some u := by
  have hrecord : record? ["from", "calleeName", "callSiteId"] u.toJson =
      some ⟨[("from", .string u.caller), ("calleeName", .string u.callee),
        ("callSiteId", .string u.siteId)]⟩ :=
    record?_object (by decide) (List.Sublist.refl _)
  rw [ofJson?, hrecord]
  rfl

theorem Json.fits_present {name : String} {j : Option Json} {depth : Nat}
    (h : ∀ i ∈ j, i.Fits depth) : ∀ f ∈ present name j, f.2.Fits depth := by
  intro f hf
  cases j with
  | none => cases hf
  | some i =>
    rw [List.mem_singleton.mp hf]
    exact h i rfl

theorem Node.fits_toJson (n : Node) (depth : Nat) : n.toJson.Fits (depth + 1) := by
  have htext : ∀ i ∈ n.signature.map Json.string, i.Fits depth := by
    intro i hi
    obtain ⟨s, _, rfl⟩ := Option.map_eq_some_iff.mp hi
    trivial
  have hline : ∀ o : Option Nat, ∀ i ∈ o.map Json.number, i.Fits depth := by
    intro o i hi
    obtain ⟨line, _, rfl⟩ := Option.map_eq_some_iff.mp hi
    trivial
  refine fitsFields_iff.mpr fun f hf => ?_
  simp only [List.mem_append] at hf
  rcases hf with ((hf | hf) | hf) | hf
  · simp only [List.mem_cons, List.not_mem_nil, or_false] at hf
    rcases hf with rfl | rfl | rfl | rfl <;> trivial
  · exact fits_present htext f hf
  · exact fits_present (hline _) f hf
  · exact fits_present (hline _) f hf

theorem Edge.fits_toJson (e : Edge) (depth : Nat) : e.toJson.Fits (depth + 1) :=
  ⟨trivial, trivial, trivial, trivial⟩

theorem UnresolvedCall.fits_toJson (u : UnresolvedCall) (depth : Nat) :
    u.toJson.Fits (depth + 1) :=
  ⟨trivial, trivial, trivial, trivial⟩

theorem Json.fits_array_map {α : Type} {write : α → Json} {depth : Nat} (xs : List α)
    (h : ∀ x, (write x).Fits depth) : (array (xs.map write)).Fits (depth + 1) := by
  refine fitsAll_iff.mpr fun j hj => ?_
  obtain ⟨x, _, rfl⟩ := List.mem_map.mp hj
  exact h x

/-! ## Graphs -/

namespace GraphDocument

theorem ofJson?_toJson {d : GraphDocument} (hsaved : d.savedAt.IsValid)
    (hlines : ∀ n ∈ d.nodes, n.LinesFit) : ofJson? d.toJson = some d := by
  have hwritten : d.toJson = object (written [("version", some (.string d.version)),
      ("timestamp", some (.string d.savedAt.text)),
      ("nodes", some (.array (d.nodes.map (·.toJson)))),
      ("edges", some (.array (d.edges.map (·.toJson)))),
      ("unresolved", d.unresolved.map fun us => .array (us.map (·.toJson)))]) := by
    simp [toJson, written, present]
  obtain ⟨r, hr, hget⟩ := record?_written ["version", "timestamp", "nodes", "edges", "unresolved"]
    (by decide) hwritten rfl
  simp only [List.forall_mem_cons] at hget
  obtain ⟨hversion, htime, hnodes, hedges, hunresolved, -⟩ := hget
  have hunresolved? : r.optional? "unresolved" (list? UnresolvedCall.ofJson?) =
      some d.unresolved :=
    Record.optional?_eq hunresolved
      (fun us _ => list?_map fun u _ => UnresolvedCall.ofJson?_toJson u) (by simp)
  have hnodes? : list? Node.ofJson? (.array (d.nodes.map (·.toJson))) = some d.nodes :=
    list?_map fun n hn => Node.ofJson?_toJson (hlines n hn)
  have hedges? : list? Edge.ofJson? (.array (d.edges.map (·.toJson))) = some d.edges :=
    list?_map fun e _ => Edge.ofJson?_toJson e
  have htime? : Timestamp.parse? d.savedAt.text = some d.savedAt := Timestamp.parse?_text hsaved
  simp only [ofJson?, hr, Record.required?_eq hversion, Record.required?_eq htime,
    Record.default?_eq hnodes, Record.default?_eq hedges, string?, htime?, hnodes?, hedges?,
    hunresolved?, Option.bind_eq_bind, Option.bind_some, Option.pure_def]

theorem fits_toJson (d : GraphDocument) (depth : Nat) : d.toJson.Fits (depth + 3) := by
  refine fitsFields_iff.mpr fun f hf => ?_
  rcases List.mem_append.mp hf with hf | hf
  · simp only [List.mem_cons, List.not_mem_nil, or_false] at hf
    rcases hf with rfl | rfl | rfl | rfl
    · trivial
    · trivial
    · exact fits_array_map d.nodes fun n => n.fits_toJson depth
    · exact fits_array_map d.edges fun e => e.fits_toJson depth
  · refine fits_present (fun i hi => ?_) f hf
    obtain ⟨us, _, rfl⟩ := Option.map_eq_some_iff.mp hi
    exact fits_array_map us fun u => u.fits_toJson depth

/-- A document is read back from its text. -/
theorem parse?_pretty {d : GraphDocument} (hsaved : d.savedAt.IsValid)
    (hlines : ∀ n ∈ d.nodes, n.LinesFit) : parse? d.toJson.pretty = some d := by
  have hlength : 3 ≤ d.toJson.pretty.length := by
    rw [← String.length_toList, pretty, String.toList_ofList, toJson, List.cons_append, write]
    simp only [List.length_cons, List.length_append, writeString]
    omega
  obtain ⟨depth, hdepth⟩ : ∃ depth, d.toJson.pretty.length = depth + 3 :=
    ⟨d.toJson.pretty.length - 3, by omega⟩
  rw [parse?, hdepth, Json.parse?_pretty (d.fits_toJson depth), Option.bind_some,
    ofJson?_toJson hsaved hlines]

end GraphDocument

/-! ## Tracked files -/

namespace Json

theorem lastWins_of_nodup {fields : List (String × Json)} (h : (fields.map (·.1)).Nodup) :
    lastWins fields = fields := by
  have hstep : ∀ (fs acc : List (String × Json)), ((acc ++ fs).map (·.1)).Nodup →
      fs.foldl (fun acc f => if acc.any (·.1 == f.1) then
        acc.map fun g => if g.1 == f.1 then f else g else acc ++ [f]) acc = acc ++ fs := by
    intro fs
    induction fs with
    | nil => simp
    | cons f fs ih =>
      intro acc hnodup
      have hnew : acc.any (·.1 == f.1) = false := by
        rw [List.any_eq_false]
        intro g hg hsame
        rw [List.map_append, List.map_cons, List.nodup_append] at hnodup
        exact hnodup.2.2 g.1 (List.mem_map_of_mem hg) f.1 List.mem_cons_self (beq_iff_eq.mp hsame)
      have hsplit : acc ++ f :: fs = acc ++ [f] ++ fs := by simp
      rw [List.foldl_cons, hnew, hsplit]
      exact ih (acc ++ [f]) (hsplit ▸ hnodup)
  exact hstep fields [] h

theorem settle_string (s : String) : settle (string s) = string s := rfl

theorem inRange_string (s : String) : inRange (string s) = true := rfl

theorem settleAll_texts (texts : List String) :
    settleAll (texts.map .string) = texts.map .string := by
  induction texts with
  | nil => rfl
  | cons s texts ih => rw [List.map_cons, settleAll, ih, settle_string]

theorem settleFields_texts (texts : List (String × String)) :
    settleFields (texts.map fun t => (t.1, .string t.2)) =
      texts.map fun t => (t.1, .string t.2) := by
  induction texts with
  | nil => rfl
  | cons t texts ih => rw [List.map_cons, settleFields, ih, settle_string]

theorem allInRange_texts (texts : List String) : allInRange (texts.map .string) = true := by
  induction texts with
  | nil => rfl
  | cons s texts ih => rw [List.map_cons, allInRange, ih, inRange_string, Bool.and_self]

theorem fieldsInRange_texts (texts : List (String × String)) :
    fieldsInRange (texts.map fun t => (t.1, .string t.2)) = true := by
  induction texts with
  | nil => rfl
  | cons t texts ih => rw [List.map_cons, fieldsInRange, ih, inRange_string, Bool.and_self]

end Json

namespace TrackerDocument

theorem ofJson?_toJson {d : TrackerDocument} (hsaved : d.savedAt.IsValid) :
    ofJson? d.toJson = some d := by
  obtain ⟨version, savedAt, files, hashes⟩ := d
  let fields := [("version", Json.string version), ("timestamp", .string savedAt.text),
    ("watchedFiles", .array (files.map .string)),
    ("fileHashes", .object (hashes.map fun h => (h.1, .string h.2)))]
  have hrecord : record? ["version", "timestamp", "watchedFiles", "fileHashes"] (object fields) =
      some ⟨fields⟩ :=
    record?_object (by decide) (List.Sublist.refl _)
  have hversion : (Record.mk fields).get? "version" = some (.string version) := rfl
  have htime : (Record.mk fields).get? "timestamp" = some (.string savedAt.text) := rfl
  have hfiles : (Record.mk fields).get? "watchedFiles" = some (.array (files.map .string)) := rfl
  have hhashes : (Record.mk fields).get? "fileHashes" =
      some (.object (hashes.map fun h => (h.1, .string h.2))) := rfl
  have htime? : Timestamp.parse? savedAt.text = some savedAt := Timestamp.parse?_text hsaved
  have hfiles? : list? string? (.array (files.map .string)) = some files :=
    list?_map fun _ _ => rfl
  have hhashes? : table? string? (.object (hashes.map fun h => (h.1, .string h.2))) =
      some hashes := table?_map fun _ => rfl
  have htoJson : toJson ⟨version, savedAt, files, hashes⟩ = object fields := rfl
  rw [htoJson, ofJson?]
  simp only [hrecord, Record.required?_eq hversion, Record.required?_eq htime, Record.default?_eq hfiles,
    Record.default?_eq hhashes, string?, htime?, hfiles?, hhashes?, Option.bind_eq_bind,
    Option.bind_some, Option.pure_def]

/-- A document is read back from its text as a value. -/
theorem general?_pretty {d : TrackerDocument} (hkeys : (d.hashes.map (·.1)).Nodup) :
    general? d.toJson.pretty = some d.toJson := by
  have hfields : ((d.hashes.map fun h => (h.1, Json.string h.2)).map (·.1)).Nodup := by
    rw [List.map_map]
    exact hkeys
  refine Json.general?_pretty ?_ ?_ ?_
  · refine ⟨trivial, trivial, ?_, ?_, trivial⟩
    · exact fits_array_map d.files fun _ => trivial
    · refine fitsFields_iff.mpr fun f hf => ?_
      obtain ⟨h, _, rfl⟩ := List.mem_map.mp hf
      trivial
  · rw [toJson, inRange, fieldsInRange, fieldsInRange, fieldsInRange, fieldsInRange, fieldsInRange]
    simp only [inRange, allInRange_texts, fieldsInRange_texts, Bool.and_self]
  · rw [toJson, settle]
    simp only [settleFields, settle, settleAll_texts, settleFields_texts]
    rw [lastWins_of_nodup hfields, lastWins_of_nodup]
    simp

end TrackerDocument

/-! ## Loading -/

theorem Disk.readText_of_read {d : Disk} {p : Path} {text : String}
    (h : d.read p = .ok text.toUTF8) : d.readText p = .ok text := by
  have hback : String.fromUTF8? text.toUTF8 = some text := by
    rw [String.toUTF8_eq_toByteArray, String.fromUTF8?, dif_pos text.isValidUTF8]
    rfl
  simp only [readText, h, hback, bind, Except.bind]

theorem nodup_keys_toList {β : Type} (m : Std.ExtTreeMap String β) :
    (m.toList.map (·.1)).Nodup := by
  rw [List.nodup_iff_pairwise_ne, List.pairwise_map]
  exact m.distinct_keys_toList.imp fun h => by simpa using h

/-- A map is put together again from its entries. -/
theorem foldl_insert_toList {β : Type} (m : Std.ExtTreeMap String β) :
    m.toList.foldl (fun n e => n.insert e.1 e.2) ∅ = m := by
  have hfold : ∀ (es : List (String × β)) (n : Std.ExtTreeMap String β) (key : String),
      (es.map (·.1)).Nodup →
      (es.foldl (fun n e => n.insert e.1 e.2) n)[key]? = (es.lookup key).or n[key]? := by
    intro es
    induction es with
    | nil => simp
    | cons e es ih =>
      intro n key hnodup
      rw [List.map_cons, List.nodup_cons] at hnodup
      rw [List.foldl_cons, ih _ key hnodup.2, Std.ExtTreeMap.getElem?_insert, List.lookup_cons]
      by_cases hkey : key = e.1
      · subst hkey
        have hnone : es.lookup e.1 = none := by
          rw [List.lookup_eq_none_iff]
          intro f hf
          have hne : e.1 ≠ f.1 := fun h => hnodup.1 (List.mem_map.mpr ⟨f, hf, h.symm⟩)
          simpa using hne
        simp [hnone]
      · have hbeq : (key == e.1) = false := beq_eq_false_iff_ne.mpr hkey
        simp [hbeq, Ne.symm hkey]
  apply Std.ExtTreeMap.ext_getElem?
  intro key
  rw [hfold _ _ key (nodup_keys_toList m), Std.ExtTreeMap.getElem?_empty, Option.or_none]
  cases hlookup : m.toList.lookup key with
  | some v =>
    obtain ⟨before, after, hlist, _⟩ := List.lookup_eq_some_iff.mp hlookup
    refine (Std.ExtTreeMap.mem_toList_iff_getElem?_eq_some.mp ?_).symm
    rw [hlist]
    exact List.mem_append_right _ List.mem_cons_self
  | none =>
    cases hget : m[key]? with
    | none => rfl
    | some v =>
      have hmem := Std.ExtTreeMap.mem_toList_iff_getElem?_eq_some.mpr hget
      have hne := List.lookup_eq_none_iff.mp hlookup (key, v) hmem
      simp at hne

theorem foldl_insert_toList_set (s : Std.ExtTreeSet String) :
    s.toList.foldl (·.insert ·) (∅ : Std.ExtTreeSet String) = s := by
  have hfold : ∀ (keys : List String) (t : Std.ExtTreeSet String) (key : String),
      key ∈ keys.foldl (·.insert ·) t ↔ key ∈ keys ∨ key ∈ t := by
    intro keys
    induction keys with
    | nil => simp
    | cons k keys ih =>
      intro t key
      rw [List.foldl_cons, ih, Std.ExtTreeSet.mem_insert, List.mem_cons, Std.compare_eq_iff_eq]
      rw [or_comm (a := key = k), or_assoc, eq_comm]
  apply Std.ExtTreeSet.ext_mem
  intro key
  rw [hfold, Std.ExtTreeSet.mem_toList]
  simp

namespace Store

/-- Every node stands under its id. -/
def IsKeyed (s : Store) : Prop := ∀ (id : String) (n : Node), s.nodes[id]? = some n → n.id = id

/-- The lines of the nodes are integers of 64 bits. -/
def LinesFit (s : Store) : Prop :=
  ∀ (id : String) (n : Node), s.nodes[id]? = some n → n.LinesFit

theorem mem_nodeList {s : Store} {n : Node} : n ∈ s.nodeList ↔ ∃ id : String, s.nodes[id]? = some n := by
  rw [nodeList, List.mem_map]
  constructor
  · rintro ⟨e, he, rfl⟩
    exact ⟨e.1, Std.ExtTreeMap.mem_toList_iff_getElem?_eq_some.mp he⟩
  · rintro ⟨id, hid⟩
    exact ⟨(id, n), Std.ExtTreeMap.mem_toList_iff_getElem?_eq_some.mpr hid, rfl⟩

theorem linesFit_iff {s : Store} : s.LinesFit ↔ ∀ n ∈ s.nodeList, n.LinesFit := by
  constructor
  · intro h n hn
    obtain ⟨id, hid⟩ := mem_nodeList.mp hn
    exact h id n hid
  · intro h id n hn
    exact h n (mem_nodeList.mpr ⟨id, hn⟩)

theorem foldl_insert_nodeList {s : Store} (h : s.IsKeyed) :
    s.nodeList.foldl (fun m n => m.insert n.id n) (∅ : Std.ExtTreeMap String Node) = s.nodes := by
  have hids : s.nodeList.foldl (fun m n => m.insert n.id n) (∅ : Std.ExtTreeMap String Node) =
      s.nodes.toList.foldl (fun m e => m.insert e.1 e.2) ∅ := by
    rw [nodeList, List.foldl_map]
    refine List.foldl_ext _ _ _ fun m e he => ?_
    rw [h e.1 e.2 (Std.ExtTreeMap.mem_toList_iff_getElem?_eq_some.mp he)]
  rw [hids, foldl_insert_toList]

/-- A store is opened as it was saved. -/
theorem openAt_of_read {s : Store} {d : Disk} {p : Path} {now : Timestamp} (hpath : s.path = some p)
    (hkeyed : s.IsKeyed) (hlines : s.LinesFit) (hunresolved : s.kind = .import → s.unresolved = [])
    (hnow : now.IsValid) (hsaved : s.savedAt = some now)
    (hread : d.read p = .ok (s.toDocument now).toJson.pretty.toUTF8) :
    openAt s.kind s.path d = s := by
  have hsavedAt : (s.toDocument now).savedAt = now := by
    rw [toDocument, hsaved]
    rfl
  have hparse : GraphDocument.parse? (s.toDocument now).toJson.pretty = some (s.toDocument now) := by
    exact GraphDocument.parse?_pretty (by rwa [hsavedAt]) (linesFit_iff.mp hlines)
  have hdocument : documentAt? d p = some (s.toDocument now) := by
    rw [documentAt?, Disk.readText_of_read hread]
    exact hparse
  have hlist : (s.toDocument now).unresolved.getD [] = s.unresolved := by
    rw [toDocument]
    cases hkind : s.kind with
    | «import» => exact (hunresolved hkind).symm
    | call => rfl
  have hload : openAt s.kind s.path d =
      fill { kind := s.kind, path := s.path } (s.toDocument now) := by
    rw [openAt, hpath, load, Option.bind_some, hdocument]
  have hnodes : (s.toDocument now).nodes = s.nodeList := rfl
  have hedges : (s.toDocument now).edges = s.edges := rfl
  rw [hload, fill, hsavedAt, hlist, hnodes, hedges, addNodes_eq]
  dsimp only [clear]
  rw [foldl_insert_nodeList hkeyed, ← hsaved]

end Store

namespace Tracker

/-- A tracker is loaded as it was saved. -/
theorem load_of_read {t : Tracker} {d : Disk} {p : Path} {now : Timestamp} (hnow : now.IsValid)
    (hkeys : ∀ key ∈ t.hashes, key ∈ t.watched)
    (hread : d.read p = .ok (t.toDocument now).toJson.pretty.toUTF8) :
    load { path := some p } d =
      ({ path := some p, watched := t.watched, hashes := t.hashes }, false) := by
  have hvalue : general? (t.toDocument now).toJson.pretty = some (t.toDocument now).toJson :=
    TrackerDocument.general?_pretty (nodup_keys_toList t.hashes)
  have hdocument := TrackerDocument.ofJson?_toJson (d := t.toDocument now) hnow
  have hversion : isEarlier (statedVersion (t.toDocument now).toJson) = false := by
    change isEarlier TrackerDocument.currentVersion = false
    decide
  have hfill : fill { path := some p } (t.toDocument now) =
      { path := some p, watched := t.watched, hashes := t.hashes } := by
    have hwatched : (t.toDocument now).files.foldl (·.insert ·) (∅ : Std.ExtTreeSet String) =
        t.watched := foldl_insert_toList_set t.watched
    have hknown : (t.toDocument now).hashes.filter (fun h => t.watched.contains h.1) =
        t.hashes.toList := by
      rw [List.filter_eq_self.mpr]
      · rfl
      · intro h hh
        rw [Std.ExtTreeSet.contains_iff_mem]
        have hget := Std.ExtTreeMap.mem_toList_iff_getElem?_eq_some.mp hh
        refine hkeys h.1 ?_
        rw [← Std.ExtTreeMap.isSome_getElem?_iff_mem, hget]
        rfl
    rw [fill]
    simp only [hwatched, hknown, foldl_insert_toList]
  simp only [load, Option.bind_some, Disk.readText_of_read hread, hvalue, hversion,
    Bool.false_eq_true, if_false, hdocument, hfill]

end Tracker

end SourceGraph
