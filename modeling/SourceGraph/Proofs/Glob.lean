import SourceGraph.Glob.Parser

/-!
# Patterns for names

A text in which no character has a meaning of its own is a pattern for itself. With folders in
front it covers the paths that end in this name, at any depth.

* `Glob.bytes_append`: the bytes of a text that was put together.
* `Glob.mem_rests_literals`: characters match their own bytes.
* `Glob.parse?_named`: the pattern for a name.
* `Glob.covers_named`: the paths that it covers.
-/

set_option autoImplicit false

namespace SourceGraph.Glob

/-! ## Bytes -/

/-- The bytes that were read, and then those that are left. -/
theorem toList_loop (bs : ByteArray) {i left : Nat} (h : i + left = bs.size) (done : List UInt8) :
    ByteArray.toList.loop bs i done = done.reverse ++ bs.data.toList.drop i := by
  have hsize : bs.data.toList.length = bs.size := by simp
  induction left generalizing i done with
  | zero =>
    rw [ByteArray.toList.loop, if_neg (by omega), List.drop_eq_nil_of_le (by omega), List.append_nil]
  | succ left ih =>
    have hi : i < bs.data.toList.length := by omega
    have hbyte : bs.get! i = bs.data.toList[i] := by
      rw [Array.getElem_toList]
      exact getElem!_pos bs.data i (by simpa using hi)
    rw [ByteArray.toList.loop, if_pos (by omega), ih (by omega), List.drop_eq_getElem_cons hi, hbyte]
    simp

theorem toList_eq_data (bs : ByteArray) : bs.toList = bs.data.toList := by
  rw [ByteArray.toList, toList_loop bs (Nat.zero_add _)]
  rfl

theorem bytes_append (s t : String) :
    (s ++ t).toUTF8.toList = s.toUTF8.toList ++ t.toUTF8.toList := by
  simp only [toList_eq_data, String.toUTF8_eq_toByteArray, String.toByteArray_append,
    ByteArray.toList_data_append]

theorem bytes_cons (c : Char) (cs : List Char) :
    (String.ofList (c :: cs)).toUTF8.toList = bytes c ++ (String.ofList cs).toUTF8.toList := by
  have htext : String.ofList (c :: cs) = c.toString ++ String.ofList cs := by
    apply String.toList_injective
    simp
  rw [htext, bytes_append, bytes]

/-! ## Matching -/

/-- Characters one after the other. -/
def literals (cs : List Char) : Glob := cs.foldr (fun c g => step (.literal c) g) done

theorem mem_rests_step {s : Step} {g : Glob} {bs mid rest : List UInt8} (hmid : mid ∈ s.rests bs)
    (hrest : rest ∈ g.rests mid) : rest ∈ (step s g).rests bs := by
  rw [rests, List.mem_eraseDups, List.mem_flatMap]
  exact ⟨mid, hmid, hrest⟩

/-- Characters match their bytes and leave what follows. -/
theorem mem_rests_literals (cs : List Char) (more : List UInt8) :
    more ∈ (literals cs).rests ((String.ofList cs).toUTF8.toList ++ more) := by
  induction cs with
  | nil => simp [literals, rests, toList_eq_data]
  | cons c cs ih =>
    have hfirst : (String.ofList cs).toUTF8.toList ++ more ∈
        (Step.literal c).rests ((String.ofList (c :: cs)).toUTF8.toList ++ more) := by
      rw [bytes_cons, List.append_assoc]
      simp [Step.rests]
    exact mem_rests_step hfirst ih

/-- What follows a separator is left after it. -/
theorem mem_afterSeparators (front rest : List UInt8) :
    rest ∈ afterSeparators (front ++ separator :: rest) := by
  induction front with
  | nil => simp [afterSeparators]
  | cons b front ih =>
    rw [List.cons_append, afterSeparators]
    split
    · exact List.mem_cons_of_mem _ ih
    · exact ih

/-- A name behind folders covers the paths that end in it. -/
theorem covers_named (front : List String) (n : String) :
    (step .leading (literals n.toList)).covers ("/".intercalate (front ++ [n])) = true := by
  have hself : [] ∈ (literals n.toList).rests n.toUTF8.toList := by
    simpa using mem_rests_literals n.toList []
  have hleft : n.toUTF8.toList ∈ Step.leading.rests ("/".intercalate (front ++ [n])).toUTF8.toList := by
    by_cases hnil : front = []
    · simp [hnil, Step.rests]
    · have hseparator : "/".toUTF8.toList = [separator] := by decide +kernel
      rw [String.intercalate_append_of_ne_nil hnil (by simp), String.intercalate_singleton,
        bytes_append, bytes_append, hseparator, List.append_assoc]
      exact List.mem_cons_of_mem _ (mem_afterSeparators _ _)
  rw [covers, Bool.or_eq_true, List.contains_iff_mem]
  exact .inr (mem_rests_step hleft hself)

/-! ## Reading -/

/-- Whether a character has a meaning in patterns. -/
def isSpecial (c : Char) : Bool := ['*', '?', '[', '\x7b', '\x7d', '\\'].contains c

theorem read?_literal (k : Nat) {d : Draft} {c : Char} (cs : List Char) (hc : isSpecial c = false)
    (hd : d.groups = []) :
    read? (k + 1) d (c :: cs) = read? k { d.push (.literal c) with last := some c } cs := by
  have hne : ∀ s ∈ ['*', '?', '[', '\x7b', '\x7d', '\\'], c ≠ s := by
    rintro s hs rfl
    rw [isSpecial, List.contains_iff_mem.mpr hs] at hc
    cases hc
  simp only [List.forall_mem_cons, List.not_mem_nil, false_implies, implies_true, and_true] at hne
  obtain ⟨hmany, hany, hclass, hopen, hclose, hescape⟩ := hne
  by_cases hcomma : c = ','
  · -- outside of a choice a comma stands for itself
    obtain ⟨items, groups, last, hasPlainBrackets⟩ := d
    cases hd
    cases hcomma
    rfl
  · simp only [read?]
    rfl

/-- The draft that has read some more characters. -/
theorem read?_literals {cs : List Char} (hcs : ∀ c ∈ cs, isSpecial c = false) {k : Nat}
    (hk : cs.length ≤ k) {d : Draft} (hd : d.groups = []) :
    ∃ d' : Draft, read? k d cs = some d' ∧ d'.groups = [] ∧
      d'.items = (cs.map fun c => .step (.literal c)).reverse ++ d.items := by
  induction cs generalizing k d with
  | nil => exact ⟨d, by rw [read?], hd, rfl⟩
  | cons c cs ih =>
    obtain ⟨hc, hcs⟩ := List.forall_mem_cons.mp hcs
    cases k with
    | zero => simp at hk
    | succ k =>
      obtain ⟨d', hread, hgroups, hitems⟩ := ih hcs (k := k) (by simpa using hk)
        (d := { d.push (.literal c) with last := some c }) hd
      refine ⟨d', (read?_literal k cs hc hd).trans hread, hgroups, ?_⟩
      rw [hitems, List.map_cons, List.reverse_cons, List.append_assoc]
      rfl

theorem ofItems_literals (cs : List Char) :
    ofItems (cs.map fun c => .step (.literal c)) = literals cs := by
  rw [ofItems, literals, List.foldr_map]

/-- A text without special characters is the pattern for a name, at any depth. -/
theorem parse?_named {cs : List Char} (hcs : ∀ c ∈ cs, isSpecial c = false) :
    parse? (String.ofList ('*' :: '*' :: '/' :: cs)) = some (step .leading (literals cs)) := by
  obtain ⟨d, hread, hgroups, hitems⟩ := read?_literals hcs (k := cs.length + 2) (by omega)
    (d := { ({} : Draft).push .leading with last := some '/' }) rfl
  have hstart : read? (String.ofList ('*' :: '*' :: '/' :: cs)).length {} ('*' :: '*' :: '/' :: cs) =
      some d := by
    rw [String.length_ofList]
    exact hread
  have hbranch : d.branch = step .leading (literals cs) := by
    rw [Draft.branch, hitems, List.reverse_append, List.reverse_reverse, ← ofItems_literals]
    rfl
  rw [parse?, String.toList_ofList, hstart]
  simp [hgroups, hbranch]

end SourceGraph.Glob
