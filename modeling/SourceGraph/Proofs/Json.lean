import Mathlib.Data.List.TakeDrop
import Mathlib.Tactic.SplitIfs
import SourceGraph.Json.General
import SourceGraph.Json.Printer
import SourceGraph.Proofs.Text

/-!
# Written values are read back

The reader undoes the printer, in every layout that puts nothing but blanks between tokens.

* `Json.Fits`: the values in question; numbers are integers, and nesting is bounded.
* `Json.readsBack`: a written value is read back, whatever follows it.
* `Json.parse?_pretty`, `Json.general?_pretty`: the text of a value has that value.
-/

set_option autoImplicit false

namespace SourceGraph.Json

/-! ## Texts -/

theorem hexValue?_hexDigit : ∀ n < 16, hexValue? (hexDigit n) = some n := by
  decide

theorem unicode?_control {c : Char} (h : c.toNat < 32) (rest : List Char) :
    unicode? ('0' :: '0' :: hexDigit (c.toNat / 16) :: hexDigit (c.toNat % 16) :: rest) =
      some (c, rest) := by
  have hhigh := hexValue?_hexDigit (c.toNat / 16) (by omega)
  have hlow := hexValue?_hexDigit (c.toNat % 16) (by omega)
  have hzero : hexValue? '0' = some 0 := by decide
  have hvalue : ((0 * 16 + 0) * 16 + c.toNat / 16) * 16 + c.toNat % 16 = c.toNat := by omega
  have hhigher : ¬ (0xD800 ≤ c.toNat ∧ c.toNat < 0xDC00) := by omega
  have hlower : ¬ (0xDC00 ≤ c.toNat ∧ c.toNat < 0xE000) := by omega
  simp only [unicode?, hex4?, hzero, hhigh, hlow, hvalue, hhigher, hlower, Option.bind_eq_bind,
    Option.bind_some, if_false, Option.pure_def, Char.ofNat_toNat]

theorem text?_writeChar (c : Char) (n : Nat) (rest : List Char) :
    text? (n + 1) (writeChar c ++ rest) = (text? n rest).map fun r => (c :: r.1, r.2) := by
  have hescape : ∀ tail, escape? tail = some (c, rest) →
      text? (n + 1) ('\\' :: tail) = (text? n rest).map fun r => (c :: r.1, r.2) := by
    intro tail htail
    have hquote : ('\\' : Char) ≠ '"' := by decide
    rw [text?, if_neg hquote, if_pos rfl, htail, Option.bind_eq_bind, Option.bind_some]
    dsimp only
    cases hrest : text? n rest with
    | none => rfl
    | some r => rfl
  unfold writeChar
  split_ifs with hquote hslash hline hreturn htab hback hfeed hcontrol
  · exact hescape _ (by rw [hquote]; rfl)
  · exact hescape _ (by rw [hslash]; rfl)
  · exact hescape _ (by rw [hline]; rfl)
  · exact hescape _ (by rw [hreturn]; rfl)
  · exact hescape _ (by rw [htab]; rfl)
  · exact hescape _ (by rw [← Char.ofNat_toNat c, hback]; rfl)
  · exact hescape _ (by rw [← Char.ofNat_toNat c, hfeed]; rfl)
  · exact hescape _ (unicode?_control hcontrol rest)
  · simp only [List.cons_append, List.nil_append, text?, hquote, hslash, hcontrol, if_false]
    cases hrest : text? n rest with
    | none => rfl
    | some r => rfl

theorem text?_flatMap_writeChar (cs : List Char) {n : Nat} (h : cs.length < n) (rest : List Char) :
    text? n (cs.flatMap writeChar ++ '"' :: rest) = some (cs, rest) := by
  induction cs generalizing n with
  | nil =>
    obtain ⟨m, rfl⟩ : ∃ m, n = m + 1 := ⟨n - 1, by simp at h; omega⟩
    simp [text?]
  | cons c cs ih =>
    obtain ⟨m, rfl⟩ : ∃ m, n = m + 1 := ⟨n - 1, by simp at h; omega⟩
    have hm : cs.length < m := by simpa using h
    rw [List.flatMap_cons, List.append_assoc, text?_writeChar, ih hm]
    rfl

theorem text?_writeString (s : String) (rest : List Char) :
    let cs := s.toList.flatMap writeChar ++ '"' :: rest
    text? (cs.length + 1) cs = some (s.toList, rest) := by
  refine text?_flatMap_writeChar s.toList ?_ rest
  have hle : ∀ c, 1 ≤ (writeChar c).length := by
    intro c
    unfold writeChar
    split_ifs <;> simp
  have hlength : s.toList.length ≤ (s.toList.flatMap writeChar).length := by
    induction s.toList with
    | nil => simp
    | cons c cs ih =>
      have hc := hle c
      simp only [List.flatMap_cons, List.length_append, List.length_cons]
      omega
  simp only [List.length_append, List.length_cons]
  omega

/-! ## Numbers -/

/-- What may follow a number. -/
def Ends (rest : List Char) : Prop :=
  ∀ c ∈ rest.head?, c.isDigit = false ∧ c ≠ '.' ∧ c ≠ 'e' ∧ c ≠ 'E'

theorem digitsValue_toDigits (n : Nat) : digitsValue (Nat.toDigits 10 n) = n := by
  rw [digitsValue, Text.foldl_digits, Nat.ofDigitChars_ten_toDigits]

theorem digits_append {ds rest : List Char} (hds : ∀ c ∈ ds, c.isDigit = true)
    (hrest : ∀ c ∈ rest.head?, c.isDigit = false) : digits (ds ++ rest) = (ds, rest) := by
  have htake : rest.takeWhile Char.isDigit = [] := by
    cases rest with
    | nil => rfl
    | cons c cs => simp [hrest c rfl]
  have hdrop : rest.dropWhile Char.isDigit = rest := by
    cases rest with
    | nil => rfl
    | cons c cs => simp [hrest c rfl]
  rw [digits, List.span_eq_takeWhile_dropWhile, List.takeWhile_append_of_pos hds,
    List.dropWhile_append_of_pos hds, htake, hdrop, List.append_nil]

/-- A number is not written with a zero in front, unless it is zero. -/
theorem head?_toDigits_ne_zero {n : Nat} (h : 0 < n) : (Nat.toDigits 10 n).head? ≠ some '0' := by
  induction n using Nat.strongRecOn with
  | ind n ih =>
    rw [Nat.toDigits_eq_if (by decide)]
    split_ifs with hlt
    · have hdigit : ∀ m < 10, 0 < m → m.digitChar ≠ '0' := by decide
      simpa using hdigit n hlt h
    · have hfirst := ih (n / 10) (by omega) (by omega)
      cases hds : Nat.toDigits 10 (n / 10) with
      | nil => exact absurd hds Nat.toDigits_ne_nil
      | cons d ds =>
        rw [hds] at hfirst
        exact hfirst

theorem integerPart?_toDigits (n : Nat) {rest : List Char}
    (hrest : ∀ c ∈ rest.head?, c.isDigit = false) :
    integerPart? (Nat.toDigits 10 n ++ rest) = some (Nat.toDigits 10 n, rest) := by
  have hds : ∀ c ∈ Nat.toDigits 10 n, c.isDigit = true :=
    fun c hc => Nat.isDigit_of_mem_toDigits (by decide) (by decide) hc
  rw [integerPart?, digits_append hds hrest]
  split
  · rename_i hnil
    exact absurd (congrArg Prod.fst hnil) Nat.toDigits_ne_nil
  · rename_i d ds more hzero
    have hcons : Nat.toDigits 10 n = '0' :: d :: ds := congrArg Prod.fst hzero
    cases Nat.eq_zero_or_pos n with
    | inl hn =>
      subst hn
      rw [Nat.toDigits_zero] at hcons
      cases hcons
    | inr hn => exact absurd (by rw [hcons]; rfl) (head?_toDigits_ne_zero hn)
  · rfl

theorem number?_toDigits (n : Nat) {rest : List Char} (hrest : Ends rest) :
    number? (Nat.toDigits 10 n ++ rest) = some (number n, rest) := by
  have hpart := integerPart?_toDigits n fun c hc => (hrest c hc).1
  have hfraction : fraction? rest = some ([], rest) := by
    unfold fraction?
    split
    · exact absurd rfl (hrest '.' rfl).2.1
    · rfl
  have hexponent : exponent? rest = some ([], rest) := by
    unfold exponent?
    split
    · rename_i c cs
      have hc := hrest c rfl
      rw [if_neg (by simp [hc.2.2])]
    · rfl
  have hminus : ∀ more, Nat.toDigits 10 n ++ rest ≠ '-' :: more := by
    intro more hcons
    have hmem : '-' ∈ Nat.toDigits 10 n := by
      cases hds : Nat.toDigits 10 n with
      | nil => exact absurd hds Nat.toDigits_ne_nil
      | cons d ds =>
        rw [hds, List.cons_append] at hcons
        cases hcons
        exact List.mem_cons_self
    exact absurd (Nat.isDigit_of_mem_toDigits (by decide) (by decide) hmem) (by decide)
  unfold number?
  split
  rename_i sign digits hsign
  split at hsign
  · exact absurd ‹_› (hminus _)
  · cases hsign
    simp only [hpart, hfraction, hexponent, Option.bind_eq_bind, Option.bind_some, and_self,
      if_true, digitsValue_toDigits, Option.pure_def]

/-! ## Values -/

mutual

/-- The value has no number but integers, and at most some levels of arrays and objects. -/
def Fits : Json → Nat → Prop
  | decimal _, _ => False
  | array _, 0 => False
  | array items, depth + 1 => FitsAll items depth
  | object _, 0 => False
  | object fields, depth + 1 => FitsFields fields depth
  | _, _ => True

/-- `Fits` for each item. -/
def FitsAll : List Json → Nat → Prop
  | [], _ => True
  | j :: js, depth => Fits j depth ∧ FitsAll js depth

/-- `Fits` for each field. -/
def FitsFields : List (String × Json) → Nat → Prop
  | [], _ => True
  | (_, j) :: fs, depth => Fits j depth ∧ FitsFields fs depth

end

theorem fitsAll_iff {items : List Json} {depth : Nat} :
    FitsAll items depth ↔ ∀ j ∈ items, j.Fits depth := by
  induction items with
  | nil => simp [FitsAll]
  | cons j js ih => rw [FitsAll, ih, List.forall_mem_cons]

theorem fitsFields_iff {fields : List (String × Json)} {depth : Nat} :
    FitsFields fields depth ↔ ∀ f ∈ fields, f.2.Fits depth := by
  induction fields with
  | nil => simp [FitsFields]
  | cons f fs ih => rw [FitsFields, ih, List.forall_mem_cons]

/-- Nothing but blanks is put between tokens. -/
structure Layout.IsBlank (l : Layout) : Prop where
  newline : ∀ depth, ∀ c ∈ l.newline depth, isSpace c = true
  afterColon : ∀ c ∈ l.afterColon, isSpace c = true

theorem Layout.isBlank_indented : Layout.indented.IsBlank where
  newline depth c hc := by
    rcases List.mem_cons.mp hc with rfl | hc
    · rfl
    · rw [List.eq_of_mem_replicate hc]
      rfl
  afterColon c hc := by
    rw [List.mem_singleton.mp hc]
    rfl

theorem skip_append {blank : List Char} (h : ∀ c ∈ blank, isSpace c = true) (cs : List Char) :
    skip (blank ++ cs) = skip cs :=
  List.dropWhile_append_of_pos h

theorem skip_cons {c : Char} (h : isSpace c = false) (cs : List Char) :
    skip (c :: cs) = c :: cs := by
  rw [skip, List.dropWhile_cons_of_neg (by simp [h])]

/-- A written value starts with a character that is no space and closes nothing. -/
theorem exists_write_eq_cons (l : Layout) (k : Nat) {j : Json} {depth : Nat} (h : j.Fits depth) :
    ∃ c cs, write l k j = c :: cs ∧ isSpace c = false ∧ c ≠ ']' := by
  cases j with
  | null => exact ⟨_, _, rfl, by decide, by decide⟩
  | bool b => cases b <;> exact ⟨_, _, rfl, by decide, by decide⟩
  | number n =>
    have hdigit : ∀ c : Char, c.isDigit = true → isSpace c = false ∧ c ≠ ']' := by
      intro c hc
      constructor
      · rw [Bool.eq_false_iff]
        intro hspace
        simp only [isSpace, Bool.or_eq_true, beq_iff_eq] at hspace
        rcases hspace with ((rfl | rfl) | rfl) | rfl <;> exact absurd hc (by decide)
      · rintro rfl
        exact absurd hc (by decide)
    have hwrite : write l k (number n) = Nat.toDigits 10 n := Nat.toList_repr
    cases hds : Nat.toDigits 10 n with
    | nil => exact absurd hds Nat.toDigits_ne_nil
    | cons d ds =>
      have hmem : d ∈ Nat.toDigits 10 n := by rw [hds]; exact List.mem_cons_self
      have hd := hdigit d (Nat.isDigit_of_mem_toDigits (by decide) (by decide) hmem)
      exact ⟨d, ds, hwrite.trans hds, hd⟩
  | decimal literal => exact absurd h (by simp [Fits])
  | string s => exact ⟨_, _, rfl, by decide, by decide⟩
  | array items => cases items <;> exact ⟨_, _, rfl, by decide, by decide⟩
  | object fields =>
    cases fields with
    | nil => exact ⟨_, _, rfl, by decide, by decide⟩
    | cons f fs => exact ⟨_, _, rfl, by decide, by decide⟩

/-- A value is read back from what is written, whatever follows it. -/
def ReadsBack (l : Layout) (depth : Nat) (j : Json) : Prop :=
  ∀ (k n : Nat) (rest : List Char), (write l k j).length < n → Ends rest →
    value? n depth (write l k j ++ rest) = some (j, rest)

theorem ends_of_cons {c : Char} (h : c.isDigit = false ∧ c ≠ '.' ∧ c ≠ 'e' ∧ c ≠ 'E')
    (rest : List Char) : Ends (c :: rest) := by
  intro d hd
  cases hd
  exact h

theorem ends_of_blank {blank : List Char} (h : ∀ c ∈ blank, isSpace c = true) {rest : List Char}
    (hrest : Ends rest) : Ends (blank ++ rest) := by
  cases blank with
  | nil => exact hrest
  | cons c cs =>
    refine ends_of_cons ?_ _
    have hc := h c List.mem_cons_self
    simp only [isSpace, Bool.or_eq_true, beq_iff_eq] at hc
    rcases hc with ((rfl | rfl) | rfl) | rfl <;> decide

variable {l : Layout} {depth : Nat}

theorem items?_write (hl : l.IsBlank) (k : Nat) (j : Json) (js : List Json)
    (hj : ReadsBack l depth j) (hjs : ∀ i ∈ js, ReadsBack l depth i)
    (hfit : ∀ i ∈ js, i.Fits depth) (n : Nat) (blank rest : List Char)
    (hblank : ∀ c ∈ blank, isSpace c = true)
    (hn : (write l k j).length + (writeItems l k js).length + 1 < n) :
    items? n depth (write l k j ++ (writeItems l k js ++ (blank ++ ']' :: rest))) =
      some (j :: js, rest) := by
  induction js generalizing j n with
  | nil =>
    obtain ⟨m, rfl⟩ : ∃ m, n = m + 1 := ⟨n - 1, by omega⟩
    have hends : Ends (blank ++ ']' :: rest) := ends_of_blank hblank (ends_of_cons (by decide) _)
    have hvalue := hj k m (blank ++ ']' :: rest) (by omega) hends
    have hskip : skip (blank ++ ']' :: rest) = ']' :: rest := by
      rw [skip_append hblank, skip_cons (by decide)]
    rw [writeItems, List.nil_append, items?, hvalue]
    simp only [Option.bind_eq_bind, Option.bind_some, hskip, Option.pure_def]
  | cons i js ih =>
    obtain ⟨m, rfl⟩ : ∃ m, n = m + 1 := ⟨n - 1, by omega⟩
    have hi := hjs i List.mem_cons_self
    obtain ⟨c, cs, hwrite, hspace, _⟩ := exists_write_eq_cons l k (hfit i List.mem_cons_self)
    have hlength : (writeItems l k (i :: js)).length =
        (l.newline k).length + (write l k i).length + (writeItems l k js).length + 1 := by
      simp only [writeItems, List.length_cons, List.length_append]
    have hends : Ends (writeItems l k (i :: js) ++ (blank ++ ']' :: rest)) := by
      rw [writeItems]
      exact ends_of_cons (by decide) _
    have hvalue := hj k m _ (by omega) hends
    have hskip : skip (l.newline k ++
        (write l k i ++ (writeItems l k js ++ (blank ++ ']' :: rest)))) =
        write l k i ++ (writeItems l k js ++ (blank ++ ']' :: rest)) := by
      rw [skip_append (hl.newline k), hwrite, List.cons_append, skip_cons hspace]
    have hrest := ih i hi (fun i hi => hjs i (List.mem_cons_of_mem _ hi))
      (fun i hi => hfit i (List.mem_cons_of_mem _ hi)) m (by omega)
    rw [items?, hvalue]
    simp only [Option.bind_eq_bind, Option.bind_some, writeItems, List.cons_append,
      List.append_assoc, skip_cons (show isSpace ',' = false by decide), hskip, hrest,
      Option.pure_def]

/-- A field up to its value. -/
theorem fields?_name (hl : l.IsBlank) (name : String) (n : Nat) {text : List Char}
    (htext : skip text = text) :
    fields? (n + 1) depth (writeString name ++ ':' :: (l.afterColon ++ text)) =
      (value? n depth text).bind fun r =>
        match skip r.2 with
        | '}' :: rest => some ([(name, r.1)], rest)
        | ',' :: rest => (fields? n depth (skip rest)).map fun f => ((name, r.1) :: f.1, f.2)
        | _ => none := by
  have hname := text?_writeString name (':' :: (l.afterColon ++ text))
  have hsplit : writeString name ++ ':' :: (l.afterColon ++ text) =
      '"' :: (name.toList.flatMap writeChar ++ '"' :: ':' :: (l.afterColon ++ text)) := by
    simp [writeString]
  rw [hsplit, fields?]
  simp only [hname, Option.bind_eq_bind, Option.bind_some,
    skip_cons (show isSpace ':' = false by decide), skip_append hl.afterColon, htext,
    String.ofList_toList]
  congr 1
  funext r
  cases skip r.2 with
  | nil => rfl
  | cons c rest =>
    by_cases hclose : c = '}'
    · subst hclose
      rfl
    by_cases hcomma : c = ','
    · subst hcomma
      change _ = (fields? n depth (skip rest)).map fun f => ((name, r.1) :: f.1, f.2)
      rw [Option.map_eq_bind]
      rfl
    · simp [hclose, hcomma]

theorem fields?_write (hl : l.IsBlank) (k : Nat) (name : String) (j : Json)
    (fs : List (String × Json)) (hj : ReadsBack l depth j) (hjfit : j.Fits depth)
    (hfs : ∀ f ∈ fs, ReadsBack l depth f.2) (hfit : ∀ f ∈ fs, f.2.Fits depth) (n : Nat)
    (blank rest : List Char) (hblank : ∀ c ∈ blank, isSpace c = true)
    (hn : (write l k j).length + (writeFields l k fs).length + 1 < n) :
    fields? n depth (writeString name ++ ':' :: (l.afterColon ++
        (write l k j ++ (writeFields l k fs ++ (blank ++ '}' :: rest))))) =
      some ((name, j) :: fs, rest) := by
  induction fs generalizing name j n with
  | nil =>
    obtain ⟨m, rfl⟩ : ∃ m, n = m + 1 := ⟨n - 1, by omega⟩
    obtain ⟨c, cs, hwrite, hspace, _⟩ := exists_write_eq_cons l k hjfit
    have hends : Ends (blank ++ '}' :: rest) := ends_of_blank hblank (ends_of_cons (by decide) _)
    have hvalue := hj k m (blank ++ '}' :: rest) (by omega) hends
    have htext : skip (write l k j ++ (blank ++ '}' :: rest)) =
        write l k j ++ (blank ++ '}' :: rest) := by
      rw [hwrite, List.cons_append, skip_cons hspace]
    have hskip : skip (blank ++ '}' :: rest) = '}' :: rest := by
      rw [skip_append hblank, skip_cons (by decide)]
    rw [writeFields, List.nil_append, fields?_name hl name m htext, hvalue]
    simp only [Option.bind_some, hskip]
  | cons f fs ih =>
    obtain ⟨m, rfl⟩ : ∃ m, n = m + 1 := ⟨n - 1, by omega⟩
    obtain ⟨other, i⟩ := f
    have hi := hfs (other, i) List.mem_cons_self
    have hifit := hfit (other, i) List.mem_cons_self
    obtain ⟨c, cs, hwrite, hspace, _⟩ := exists_write_eq_cons l k hjfit
    have hlength : (writeFields l k ((other, i) :: fs)).length =
        (l.newline k).length + (writeString other).length + (l.afterColon).length +
          (write l k i).length + (writeFields l k fs).length + 2 := by
      simp only [writeFields, List.length_cons, List.length_append]
      omega
    have hends : Ends (writeFields l k ((other, i) :: fs) ++ (blank ++ '}' :: rest)) := by
      rw [writeFields]
      exact ends_of_cons (by decide) _
    have hvalue := hj k m _ (by omega) hends
    have htext : skip (write l k j ++ (writeFields l k ((other, i) :: fs) ++
        (blank ++ '}' :: rest))) =
        write l k j ++ (writeFields l k ((other, i) :: fs) ++ (blank ++ '}' :: rest)) := by
      rw [hwrite, List.cons_append, skip_cons hspace]
    have hrest := ih other i hi hifit (fun f hf => hfs f (List.mem_cons_of_mem _ hf))
      (fun f hf => hfit f (List.mem_cons_of_mem _ hf)) m (by omega)
    have hskip : ∀ text, skip (l.newline k ++ (writeString other ++ text)) =
        writeString other ++ text := by
      intro text
      rw [skip_append (hl.newline k), writeString, List.cons_append, skip_cons (by decide)]
    rw [fields?_name hl name m htext, hvalue]
    simp only [Option.bind_some, writeFields, List.cons_append, List.append_assoc,
      skip_cons (show isSpace ',' = false by decide), hskip, hrest, Option.map_some]

theorem value?_number (n depth m : Nat) {rest : List Char} (hrest : Ends rest) :
    value? (m + 1) depth (Nat.toDigits 10 n ++ rest) = some (number n, rest) := by
  have hnumber := number?_toDigits n hrest
  cases hds : Nat.toDigits 10 n with
  | nil => exact absurd hds Nat.toDigits_ne_nil
  | cons d ds =>
    have hmem : d ∈ Nat.toDigits 10 n := by rw [hds]; exact List.mem_cons_self
    have hd : d.isDigit = true := Nat.isDigit_of_mem_toDigits (by decide) (by decide) hmem
    rw [hds] at hnumber
    rw [List.cons_append] at hnumber ⊢
    -- a digit starts no other kind of value
    have hfirst : ∀ (c : Char) (text : List Char), c.isDigit = false →
        d :: (ds ++ rest) ≠ c :: text := by
      intro c text hc hcons
      rw [(List.cons.inj hcons).1, hc] at hd
      cases hd
    unfold value?
    split
    case h_7 => exact hnumber
    all_goals exact absurd ‹_› (hfirst _ _ (by decide))

theorem readsBack_array (hl : l.IsBlank) {items : List Json}
    (h : ∀ j ∈ items, ReadsBack l depth j ∧ j.Fits depth) :
    ReadsBack l (depth + 1) (array items) := by
  intro k n rest hn _
  obtain ⟨m, rfl⟩ : ∃ m, n = m + 1 := ⟨n - 1, by omega⟩
  cases items with
  | nil =>
    have hskip : skip (']' :: rest) = ']' :: rest := skip_cons (by decide) rest
    simp only [write, List.cons_append, List.nil_append, value?, hskip]
  | cons j js =>
    obtain ⟨⟨hj, hjfit⟩, hjs⟩ := List.forall_mem_cons.mp h
    obtain ⟨c, cs, hwrite, hspace, hopen⟩ := exists_write_eq_cons l (k + 1) hjfit
    have hitems := items?_write hl (k + 1) j js hj (fun i hi => (hjs i hi).1)
      (fun i hi => (hjs i hi).2) m (l.newline k) rest (hl.newline k) (by
        simp only [write, List.length_cons, List.length_append] at hn
        omega)
    have hskip : ∀ text, skip (l.newline (k + 1) ++ (write l (k + 1) j ++ text)) =
        write l (k + 1) j ++ text := by
      intro text
      rw [skip_append (hl.newline (k + 1)), hwrite, List.cons_append, skip_cons hspace]
    simp only [write, List.cons_append, List.append_assoc, List.nil_append, value?, hskip]
    split
    · rename_i text hclose
      rw [hwrite, List.cons_append] at hclose
      exact absurd (List.cons.inj hclose).1 hopen
    · rw [hitems]
      rfl

theorem readsBack_object (hl : l.IsBlank) {fields : List (String × Json)}
    (h : ∀ f ∈ fields, ReadsBack l depth f.2 ∧ f.2.Fits depth) :
    ReadsBack l (depth + 1) (object fields) := by
  intro k n rest hn _
  obtain ⟨m, rfl⟩ : ∃ m, n = m + 1 := ⟨n - 1, by omega⟩
  cases fields with
  | nil =>
    have hskip : skip ('}' :: rest) = '}' :: rest := skip_cons (by decide) rest
    simp only [write, List.cons_append, List.nil_append, value?, hskip]
  | cons f fs =>
    obtain ⟨name, j⟩ := f
    obtain ⟨⟨hj, hjfit⟩, hfs⟩ := List.forall_mem_cons.mp h
    have hfields := fields?_write hl (k + 1) name j fs hj hjfit (fun f hf => (hfs f hf).1)
      (fun f hf => (hfs f hf).2) m (l.newline k) rest (hl.newline k) (by
        simp only [write, List.length_cons, List.length_append] at hn
        omega)
    have hskip : ∀ text, skip (l.newline (k + 1) ++ (writeString name ++ text)) =
        writeString name ++ text := by
      intro text
      rw [skip_append (hl.newline (k + 1)), writeString, List.cons_append, skip_cons (by decide)]
    simp only [write, List.cons_append, List.append_assoc, List.nil_append, value?, hskip]
    split
    · rename_i text hclose
      rw [writeString, List.cons_append] at hclose
      exact absurd (List.cons.inj hclose).1 (by decide)
    · rw [hfields]
      rfl

mutual

/-- Every value that fits is read back. -/
theorem readsBack (hl : l.IsBlank) :
    ∀ (j : Json) (depth : Nat), j.Fits depth → ReadsBack l depth j
  | null, _, _ => fun k n rest hn _ => by
    obtain ⟨m, rfl⟩ : ∃ m, n = m + 1 := ⟨n - 1, by omega⟩
    rfl
  | bool true, _, _ => fun k n rest hn _ => by
    obtain ⟨m, rfl⟩ : ∃ m, n = m + 1 := ⟨n - 1, by omega⟩
    rfl
  | bool false, _, _ => fun k n rest hn _ => by
    obtain ⟨m, rfl⟩ : ∃ m, n = m + 1 := ⟨n - 1, by omega⟩
    rfl
  | number i, depth, _ => fun k n rest hn hrest => by
    obtain ⟨m, rfl⟩ : ∃ m, n = m + 1 := ⟨n - 1, by omega⟩
    have hwrite : write l k (number i) = Nat.toDigits 10 i := Nat.toList_repr
    rw [hwrite]
    exact value?_number i depth m hrest
  | string s, _, _ => fun k n rest hn _ => by
    obtain ⟨m, rfl⟩ : ∃ m, n = m + 1 := ⟨n - 1, by omega⟩
    have htext := text?_writeString s rest
    simp only [write, writeString, List.cons_append, List.append_assoc, List.nil_append, value?,
      htext, Option.bind_eq_bind, Option.bind_some, Option.pure_def, String.ofList_toList]
  | array items, depth + 1, h => readsBack_array hl (readsBackAll hl items depth h)
  | object fields, depth + 1, h => readsBack_object hl (readsBackFields hl fields depth h)

theorem readsBackAll (hl : l.IsBlank) :
    ∀ (js : List Json) (depth : Nat), FitsAll js depth →
      ∀ j ∈ js, ReadsBack l depth j ∧ j.Fits depth
  | [], _, _ => fun _ hj => absurd hj List.not_mem_nil
  | j :: js, depth, h =>
    List.forall_mem_cons.mpr ⟨⟨readsBack hl j depth h.1, h.1⟩, readsBackAll hl js depth h.2⟩

theorem readsBackFields (hl : l.IsBlank) :
    ∀ (fs : List (String × Json)) (depth : Nat), FitsFields fs depth →
      ∀ f ∈ fs, ReadsBack l depth f.2 ∧ f.2.Fits depth
  | [], _, _ => fun _ hf => absurd hf List.not_mem_nil
  | (_, j) :: fs, depth, h =>
    List.forall_mem_cons.mpr ⟨⟨readsBack hl j depth h.1, h.1⟩, readsBackFields hl fs depth h.2⟩

end

theorem parse?_pretty {j : Json} (h : j.Fits depth) : parse? depth j.pretty = some j := by
  obtain ⟨c, cs, hwrite, hspace, _⟩ := exists_write_eq_cons .indented 0 h
  have hskip : skip j.pretty.toList = write .indented 0 j := by
    rw [pretty, String.toList_ofList, hwrite, skip_cons hspace]
  have hvalue := readsBack Layout.isBlank_indented j depth h 0
    ((write .indented 0 j).length + 1) [] (by omega) (by simp [Ends])
  rw [List.append_nil] at hvalue
  rw [parse?, hskip]
  simp only [hvalue, Option.bind_eq_bind, Option.bind_some]
  rfl

theorem general?_pretty {j : Json} (h : j.Fits usualDepth) (hrange : j.inRange = true)
    (hsettled : j.settle = j) : general? j.pretty = some j := by
  rw [general?, parse?_pretty h]
  dsimp only
  rw [if_pos hrange, hsettled]

end SourceGraph.Json
