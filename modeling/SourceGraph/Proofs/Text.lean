import SourceGraph.Text.Blank
import SourceGraph.Text.Cut

/-!
# Facts about cut texts

* `segments_append`, `segments_intercalate`: the pieces of a text that was put together.
* `splitOn_prefix_iff`: when the pieces of one text begin those of another.
* `cutFirst_eq_none`, `cutFirst_append`, `cutFirst_eq_some`: the first occurrence of a separator.
* `cutLast_eq_some`, `cutLast_append`: the last occurrence of a separator.
* `dropTrailing_append`, `getLast?_dropTrailing`: a text and what is left without its end.
* `trim_slash`: blanks around a text.
* `foldl_digits`: the value of decimal digits.
* `append_number_inj`: a text and the number behind it.
* `stripStart_eq_some`: what is left of a text without its start.
-/

set_option autoImplicit false

namespace SourceGraph.Text

/-! ## Pieces -/

/-- The pieces of two texts with a separator between them. -/
theorem segments_append (s t : String) :
    segments '/' (s ++ "/" ++ t) = segments '/' s ++ segments '/' t := by
  have h : (s ++ "/" ++ t).toList = s.toList ++ '/' :: t.toList := by simp
  unfold segments
  rw [h, List.splitOn_append_cons_self, List.map_append]

theorem splitOn_intercalate {names : List String} (hne : names ≠ [])
    (hn : ∀ n ∈ names, '/' ∉ n.toList) :
    ("/".intercalate names).toList.splitOn '/' = names.map String.toList := by
  have hmap : ∀ l ∈ names.map String.toList, '/' ∉ l := by
    intro l hl
    obtain ⟨n, hmem, rfl⟩ := List.mem_map.mp hl
    exact hn n hmem
  have hsep : "/".toList = ['/'] := by decide
  rw [String.toList_intercalate, hsep, List.splitOn_intercalate '/' hmap (by simpa using hne)]

/-- Texts that were joined come back as the pieces. -/
theorem segments_intercalate {names : List String} (hne : names ≠ [])
    (hn : ∀ n ∈ names, '/' ∉ n.toList) : segments '/' ("/".intercalate names) = names := by
  rw [segments, splitOn_intercalate hne hn, List.map_map]
  simp [Function.comp_def]

/-- A character of a piece is one of the text. -/
theorem mem_of_mem_segments {sep c : Char} {s n : String} (h : n ∈ segments sep s)
    (hc : c ∈ n.toList) : c ∈ s.toList := by
  obtain ⟨cs, hcs, rfl⟩ := List.mem_map.mp h
  rw [String.toList_ofList] at hc
  clear h
  induction hs : s.toList generalizing cs s with
  | nil =>
    rw [hs, List.splitOn_nil, List.mem_singleton] at hcs
    simp [hcs] at hc
  | cons x rest ih =>
    rw [hs, List.splitOn_cons_eq_if_modifyHead] at hcs
    have hrest : (String.ofList rest).toList = rest := String.toList_ofList
    by_cases hx : (x == sep) = true
    · rw [if_pos hx] at hcs
      rcases List.mem_cons.mp hcs with rfl | hcs
      · simp at hc
      · exact List.mem_cons_of_mem _ (ih (s := String.ofList rest) cs (by rwa [hrest]) hc hrest)
    · rw [if_neg hx] at hcs
      obtain ⟨r, rs, hr⟩ := List.exists_cons_of_ne_nil (List.splitOn_ne_nil sep rest)
      have ih' := ih (s := String.ofList rest)
      rw [hrest, hr] at ih'
      rw [hr, List.modifyHead_cons] at hcs
      rcases List.mem_cons.mp hcs with rfl | hcs
      · rcases List.mem_cons.mp hc with rfl | hc
        · exact List.mem_cons_self
        · exact List.mem_cons_of_mem _ (ih' r List.mem_cons_self hc rfl)
      · exact List.mem_cons_of_mem _ (ih' cs (List.mem_cons_of_mem _ hcs) hc rfl)

/-- No piece has the separator in it. -/
theorem not_mem_of_mem_splitOn {sep : Char} {cs piece : List Char}
    (h : piece ∈ cs.splitOn sep) : sep ∉ piece := by
  induction cs generalizing piece with
  | nil =>
    rw [List.splitOn_nil, List.mem_singleton] at h
    simp [h]
  | cons x rest ih =>
    rw [List.splitOn_cons_eq_if_modifyHead] at h
    by_cases hx : (x == sep) = true
    · rw [if_pos hx] at h
      rcases List.mem_cons.mp h with rfl | h
      · exact List.not_mem_nil
      · exact ih h
    · rw [if_neg hx] at h
      obtain ⟨r, rs, hr⟩ := List.exists_cons_of_ne_nil (List.splitOn_ne_nil sep rest)
      rw [hr] at ih
      rw [hr, List.modifyHead_cons] at h
      rcases List.mem_cons.mp h with rfl | h
      · intro hmem
        rcases List.mem_cons.mp hmem with rfl | hmem
        · exact hx (beq_self_eq_true sep)
        · exact ih List.mem_cons_self hmem
      · exact ih (List.mem_cons_of_mem _ h)

theorem not_mem_of_mem_segments {sep : Char} {s piece : String} (h : piece ∈ segments sep s) :
    sep ∉ piece.toList := by
  obtain ⟨cs, hcs, rfl⟩ := List.mem_map.mp h
  rw [String.toList_ofList]
  exact not_mem_of_mem_splitOn hcs

theorem segments_of_not_mem {sep : Char} {s : String} (h : sep ∉ s.toList) :
    segments sep s = [s] := by
  rw [segments, List.splitOn_eq_singleton h, List.map_singleton, String.ofList_toList]

theorem segments_slash (s : String) : segments '/' (s ++ "/") = segments '/' s ++ [""] := by
  have happend := segments_append s ""
  rwa [String.append_empty, segments_of_not_mem (by simp : '/' ∉ "".toList)] at happend

theorem segments_ne_nil (sep : Char) (s : String) : segments sep s ≠ [] := fun h =>
  List.splitOn_ne_nil sep s.toList (List.map_eq_nil_iff.mp h)

theorem intercalate_segments (s : String) : "/".intercalate (segments '/' s) = s := by
  apply String.toList_injective
  have hsep : "/".toList = ['/'] := by decide
  rw [String.toList_intercalate, hsep, segments, List.map_map]
  simp [Function.comp_def, List.intercalate_splitOn]

theorem mem_intercalate {names : List String} {sep : String} {c : Char}
    (h : c ∈ (sep.intercalate names).toList) : c ∈ sep.toList ∨ ∃ n ∈ names, c ∈ n.toList := by
  induction names with
  | nil => simp at h
  | cons n names ih =>
    by_cases hnil : names = []
    · exact Or.inr ⟨n, List.mem_cons_self, by simpa [hnil] using h⟩
    · rw [String.intercalate_cons_of_ne_nil hnil, String.toList_append, String.toList_append,
        List.mem_append, List.mem_append] at h
      rcases h with (hn | hsep) | hrest
      · exact Or.inr ⟨n, List.mem_cons_self, hn⟩
      · exact Or.inl hsep
      · refine (ih hrest).imp_right ?_
        rintro ⟨m, hm, hc⟩
        exact ⟨m, List.mem_cons_of_mem n hm, hc⟩

theorem not_mem_intercalate {names : List String} {sep : String} {c : Char}
    (hsep : c ∉ sep.toList) (hnames : ∀ n ∈ names, c ∉ n.toList) :
    c ∉ (sep.intercalate names).toList := by
  intro h
  rcases mem_intercalate h with hc | ⟨n, hn, hc⟩
  · exact hsep hc
  · exact hnames n hn hc

theorem intercalate_append {α : Type} (sep : List α) {xs ys : List (List α)} (hx : xs ≠ [])
    (hy : ys ≠ []) :
    sep.intercalate (xs ++ ys) = sep.intercalate xs ++ sep ++ sep.intercalate ys := by
  induction xs with
  | nil => exact absurd rfl hx
  | cons x xs ih =>
    cases xs with
    | nil => simp [List.intercalate_cons_of_ne_nil hy]
    | cons x' xs =>
      have h := ih (by simp)
      rw [List.cons_append, List.cons_append] at *
      rw [List.intercalate_cons_cons, h, List.intercalate_cons_cons]
      simp

/-- The pieces of `ys` begin with those of `xs` when `ys` is `xs`, or goes on behind a separator. -/
theorem splitOn_prefix_iff (sep : Char) (xs ys : List Char) :
    xs.splitOn sep <+: ys.splitOn sep ↔ ys = xs ∨ ∃ rest, ys = xs ++ sep :: rest := by
  constructor
  · rintro ⟨more, hmore⟩
    have hys : ys = [sep].intercalate (xs.splitOn sep ++ more) := by
      rw [hmore, List.intercalate_splitOn]
    cases more with
    | nil => exact Or.inl (by rw [hys, List.append_nil, List.intercalate_splitOn])
    | cons m more =>
      refine Or.inr ⟨[sep].intercalate (m :: more), ?_⟩
      rw [hys, intercalate_append _ (List.splitOn_ne_nil _ _) (by simp), List.intercalate_splitOn]
      simp
  · rintro (rfl | ⟨rest, rfl⟩)
    · exact List.prefix_rfl
    · rw [List.splitOn_append_cons_self]
      exact List.prefix_append _ _

/-! ## Cuts -/

theorem cutFirst_eq_none {sep cs : List Char} (h : ¬ sep <:+: cs) : cutFirst sep cs = none := by
  induction cs with
  | nil =>
    have hsep : sep ≠ [] := fun e => h (e ▸ List.nil_infix)
    simp [cutFirst, hsep]
  | cons c cs ih =>
    have hpre : sep.isPrefixOf (c :: cs) = false := by
      rw [Bool.eq_false_iff, Ne, List.isPrefixOf_iff_prefix]
      exact fun hp => h hp.isInfix
    have hrest : ¬ sep <:+: cs := fun hi => h (hi.trans (List.suffix_cons c cs).isInfix)
    simp [cutFirst, hpre, ih hrest]

/--
The first separator of a text that was put together is the one between the two parts, unless an
earlier one begins in the first part.
-/
theorem cutFirst_append (sep start rest : List Char) (hne : sep ≠ [])
    (h : ¬ sep <:+: start ++ sep.dropLast) :
    cutFirst sep (start ++ sep ++ rest) = some (start, rest) := by
  induction start with
  | nil =>
    obtain ⟨c, cs, rfl⟩ := List.exists_cons_of_ne_nil hne
    have hpre : (c :: cs).isPrefixOf (c :: cs ++ rest) = true := by simp
    simp only [List.nil_append, List.cons_append] at hpre ⊢
    rw [cutFirst, if_pos hpre, ← List.cons_append, List.drop_left]
  | cons c start ih =>
    have hrest : ¬ sep <:+: start ++ sep.dropLast := fun hi =>
      h (hi.trans (List.suffix_cons c _).isInfix)
    have hpre : sep.isPrefixOf (c :: start ++ sep ++ rest) = false := by
      rw [Bool.eq_false_iff, Ne, List.isPrefixOf_iff_prefix]
      intro hp
      -- the separator is no longer than the part that was searched for it
      have hlong : c :: start ++ sep.dropLast <+: c :: start ++ sep ++ rest := by
        rw [List.append_assoc]
        exact List.prefix_append_right_inj _ |>.mpr
          ((List.dropLast_prefix sep).trans (List.prefix_append _ _))
      have hlen : sep.length ≤ (c :: start ++ sep.dropLast).length := by
        simp only [List.length_append, List.length_cons, List.length_dropLast]
        omega
      exact h (List.prefix_of_prefix_length_le hp hlong hlen).isInfix
    simp only [List.cons_append] at hpre ih ⊢
    rw [cutFirst, if_neg (ne_true_of_eq_false hpre), ih hrest]
    rfl

/-- The parts around the first separator; no earlier one begins in the first part. -/
theorem cutFirst_eq_some {sep cs : List Char} {cut : List Char × List Char} (hne : sep ≠ [])
    (h : cutFirst sep cs = some cut) :
    cs = cut.1 ++ sep ++ cut.2 ∧ ¬ sep <:+: cut.1 ++ sep.dropLast := by
  induction cs generalizing cut with
  | nil => simp [cutFirst, hne] at h
  | cons c cs ih =>
    rw [cutFirst] at h
    split at h
    · rename_i hpre
      obtain ⟨rest, hrest⟩ := List.isPrefixOf_iff_prefix.mp hpre
      obtain rfl := Option.some.inj h
      refine ⟨?_, fun hin => ?_⟩
      · rw [← hrest, List.drop_left, List.nil_append]
      · -- the separator is longer than itself without its last character
        have hlength := hin.length_le
        have hpos := List.length_pos_iff.mpr hne
        rw [List.nil_append, List.length_dropLast] at hlength
        omega
    · rename_i hpre
      obtain ⟨cut', hcut, rfl⟩ := Option.map_eq_some_iff.mp h
      obtain ⟨hcs, hnot⟩ := ih hcut
      refine ⟨by rw [hcs]; rfl, fun hin => ?_⟩
      rcases List.infix_cons_iff.mp hin with hin | hin
      · refine hpre (List.isPrefixOf_iff_prefix.mpr (hin.trans ?_))
        rw [hcs, List.append_assoc]
        exact (List.prefix_append_right_inj (c :: cut'.1)).mpr
          ((List.dropLast_prefix sep).trans (List.prefix_append _ _))
      · exact hnot hin

theorem not_mem_of_cutLast_eq_none {sep : Char} {cs : List Char} (h : cutLast sep cs = none) :
    sep ∉ cs := by
  induction cs with
  | nil => simp
  | cons c cs ih =>
    simp only [cutLast] at h
    cases hcut : cutLast sep cs with
    | some cut => simp [hcut] at h
    | none =>
      rw [hcut] at h
      by_cases hc : c = sep
      · simp [hc] at h
      · simp [Ne.symm hc, ih hcut]

/-- The parts around the last separator. -/
theorem cutLast_eq_some {sep : Char} {cs : List Char} {cut : List Char × List Char}
    (h : cutLast sep cs = some cut) : cs = cut.1 ++ sep :: cut.2 ∧ sep ∉ cut.2 := by
  induction cs generalizing cut with
  | nil => simp [cutLast] at h
  | cons c cs ih =>
    simp only [cutLast] at h
    cases hcut : cutLast sep cs with
    | some cut' =>
      rw [hcut] at h
      obtain rfl := Option.some.inj h
      exact ⟨by rw [List.cons_append, ← (ih hcut).1], (ih hcut).2⟩
    | none =>
      rw [hcut] at h
      by_cases hc : c = sep
      · simp only [hc, if_true, Option.some.injEq] at h
        subst h
        exact ⟨by simp [hc], not_mem_of_cutLast_eq_none hcut⟩
      · simp [hc] at h

theorem cutLast_eq_none_iff {sep : Char} {cs : List Char} : cutLast sep cs = none ↔ sep ∉ cs := by
  refine ⟨not_mem_of_cutLast_eq_none, fun h => ?_⟩
  cases hcut : cutLast sep cs with
  | none => rfl
  | some cut => exact absurd ((cutLast_eq_some hcut).1 ▸ by simp) h

theorem append_sep_inj {sep : Char} {xs ys us vs : List Char} (hu : sep ∉ us) (hv : sep ∉ vs)
    (h : xs ++ sep :: us = ys ++ sep :: vs) : xs = ys ∧ us = vs := by
  rcases List.append_eq_append_iff.mp h with ⟨zs, rfl, hzs⟩ | ⟨zs, rfl, hzs⟩
  all_goals
    cases zs with
    | nil => simpa [eq_comm] using hzs
    | cons z zs =>
      -- the separator of one side would stand in the last piece of the other
      simp only [List.cons_append, List.cons.injEq] at hzs
      simp [hzs.2] at hu hv

theorem cutLast_append {sep : Char} (xs : List Char) {ys : List Char} (h : sep ∉ ys) :
    cutLast sep (xs ++ sep :: ys) = some (xs, ys) := by
  cases hcut : cutLast sep (xs ++ sep :: ys) with
  | none => exact absurd (by simp) (not_mem_of_cutLast_eq_none hcut)
  | some cut =>
    obtain ⟨heq, hcut⟩ := cutLast_eq_some hcut
    obtain ⟨rfl, rfl⟩ := append_sep_inj h hcut heq
    rfl

/-- A doubled character does not span another one. -/
theorem doubled_infix_append {c d : Char} (hcd : c ≠ d) {xs ys : List Char}
    (h : [c, c] <:+: xs ++ d :: ys) : [c, c] <:+: xs ∨ [c, c] <:+: ys := by
  induction xs with
  | nil =>
    rcases List.infix_cons_iff.mp h with h | h
    · exact absurd (List.cons_prefix_cons.mp h).1 hcd
    · exact Or.inr h
  | cons x xs ih =>
    rcases List.infix_cons_iff.mp h with h | h
    · obtain ⟨hx, h⟩ := List.cons_prefix_cons.mp h
      cases xs with
      | nil => exact absurd (List.cons_prefix_cons.mp h).1 hcd
      | cons y xs =>
        obtain ⟨hy, _⟩ := List.cons_prefix_cons.mp h
        subst hx hy
        exact Or.inl (List.prefix_append [c, c] xs).isInfix
    · exact (ih h).imp_left fun h => h.trans (List.suffix_cons x xs).isInfix

theorem dropTrailing_append (c : Char) (cs : List Char) :
    ∃ n, cs = dropTrailing c cs ++ List.replicate n c := by
  refine ⟨(cs.reverse.takeWhile (· == c)).length, ?_⟩
  have hrest : cs.reverse.takeWhile (· == c) =
      List.replicate (cs.reverse.takeWhile (· == c)).length c := by
    rw [List.eq_replicate_iff]
    refine ⟨rfl, fun b hb => ?_⟩
    simpa using List.all_eq_true.mp List.all_takeWhile b hb
  have hsplit : cs.reverse.takeWhile (· == c) ++ cs.reverse.dropWhile (· == c) = cs.reverse :=
    List.takeWhile_append_dropWhile
  have hcs := congrArg List.reverse hsplit
  rw [List.reverse_append, List.reverse_reverse, hrest, List.reverse_replicate] at hcs
  exact hcs.symm

theorem getLast?_dropTrailing (c : Char) (cs : List Char) :
    (dropTrailing c cs).getLast? ≠ some c := by
  rw [dropTrailing, List.getLast?_reverse]
  intro h
  have hnot := List.head?_dropWhile_not (· == c) cs.reverse
  rw [h] at hnot
  simp at hnot

theorem map_replace_of_not_mem {old new : Char} {cs : List Char} (h : old ∉ cs) :
    cs.map (fun c => if c = old then new else c) = cs := by
  refine (List.map_congr_left fun c hc => ?_).trans (List.map_id cs)
  have hne : c ≠ old := fun e => h (e ▸ hc)
  rw [if_neg hne, id]

theorem replaceChar_append (old new : Char) (s t : String) :
    replaceChar old new (s ++ t) = replaceChar old new s ++ replaceChar old new t := by
  simp [replaceChar]

theorem replaceChar_eq_self {old new : Char} {s : String} (h : old ∉ s.toList) :
    replaceChar old new s = s := by
  rw [replaceChar, map_replace_of_not_mem h, String.ofList_toList]

/-! ## Blanks -/

/-- A text without blanks around it has none with a separator at its end either. -/
theorem trim_slash {cs : List Char} (h : trim cs = cs) : trim (cs ++ ['/']) = cs ++ ['/'] := by
  have hstart : trimStart cs = cs := by
    -- what is cut at the end of the rest cannot bring back what was cut at the start
    have hsuffix : trimStart cs <:+ cs := List.dropWhile_suffix _
    have hend : (trim cs).length ≤ (trimStart cs).length := by
      rw [trim, trimEnd, List.length_reverse]
      exact Nat.le_trans (List.dropWhile_suffix _).length_le (Nat.le_of_eq List.length_reverse)
    rw [h] at hend
    exact hsuffix.eq_of_length_le hend
  have hslash : trimStart (cs ++ ['/']) = cs ++ ['/'] := by
    rw [trimStart] at hstart ⊢
    rw [List.dropWhile_append, hstart]
    cases cs with
    | nil => decide
    | cons c cs => rfl
  have hblank : isBlank '/' = false := by decide
  rw [trim, hslash, trimEnd]
  simp [hblank]

/-! ## Digits -/

theorem foldl_digits (ds : List Char) (m : Nat) :
    ds.foldl (fun n d => n * 10 + (d.toNat - 48)) m = Nat.ofDigitChars 10 ds m := by
  rw [Nat.ofDigitChars_eq_foldl]
  congr 1
  funext n d
  rw [Nat.mul_comm]
  rfl

/-- A text and a number can be read off the two with a character between them that is no digit. -/
theorem append_number_inj {sep : Char} (hsep : sep.isDigit = false) {s t : String} {m n : Nat}
    (h : s.toList ++ sep :: (toString m).toList = t.toList ++ sep :: (toString n).toList) :
    s = t ∧ m = n := by
  have hdigits : ∀ k : Nat, sep ∉ (toString k).toList := by
    intro k hmem
    rw [Nat.toString_eq_repr, Nat.toList_repr] at hmem
    rw [Nat.isDigit_of_mem_toDigits (by decide) (by decide) hmem] at hsep
    cases hsep
  obtain ⟨htext, hnumber⟩ := append_sep_inj (hdigits m) (hdigits n) h
  refine ⟨String.toList_injective htext, ?_⟩
  have hvalue := congrArg (Nat.ofDigitChars 10 · 0) hnumber
  simpa only [Nat.toString_eq_repr, Nat.toList_repr, Nat.ofDigitChars_ten_toDigits] using hvalue

/-! ## Starts of texts -/

theorem stripStart_eq_some {start cs rest : List Char} :
    stripStart start cs = some rest ↔ cs = start ++ rest := by
  unfold stripStart
  constructor
  · intro h
    split at h
    · rename_i hstart
      obtain ⟨tail, rfl⟩ := List.isPrefixOf_iff_prefix.mp hstart
      rw [List.drop_left] at h
      rw [Option.some.inj h]
    · cases h
  · rintro rfl
    rw [if_pos (List.isPrefixOf_iff_prefix.mpr (List.prefix_append _ _)), List.drop_left]

end SourceGraph.Text
