import Mathlib.Algebra.Group.Nat.Defs
import Mathlib.Data.List.Induction
import Mathlib.Tactic.SplitIfs
import SourceGraph.Proofs.Text
import SourceGraph.Timestamp

/-!
# Written times are read back

* `Timestamp.IsValid`: the points in time that a calendar and a clock can show.
* `Timestamp.parse?_text`: such a point in time is read back from its written form.
* `Timestamp.isValid_of_parse?`: only such points in time are read.
-/

set_option autoImplicit false

namespace SourceGraph.Timestamp

/-- The fields of a point in time are those of a calendar and a clock. -/
structure IsValid (t : Timestamp) : Prop where
  year : isYear t.year = true
  month : 1 ≤ t.month ∧ t.month ≤ 12
  day : 1 ≤ t.day ∧ t.day ≤ daysIn t.year t.month
  hour : t.hour ≤ 23
  minute : t.minute ≤ 59
  second : t.second ≤ 60
  nano : t.nano < 10 ^ 9

/-! ## Digits -/

theorem toList_padded (width n : Nat) :
    (padded width n).toList =
      List.replicate (width - (Nat.toDigits 10 n).length) '0' ++ Nat.toDigits 10 n := by
  have hdigits : (toString n).toList = Nat.toDigits 10 n := Nat.toList_repr
  have hlength : (toString n).length = (Nat.toDigits 10 n).length := by
    rw [← hdigits, String.length_toList]
  rw [padded, String.toList_append, String.toList_ofList, hlength, hdigits]

theorem isDigit_of_mem_padded {width n : Nat} {c : Char} (h : c ∈ (padded width n).toList) :
    c.isDigit = true := by
  rw [toList_padded] at h
  rcases List.mem_append.mp h with hzero | hdigit
  · rw [List.eq_of_mem_replicate hzero]
    rfl
  · exact Nat.isDigit_of_mem_toDigits (by decide) (by decide) hdigit

theorem valueOf_padded (width n : Nat) : valueOf (padded width n).toList = n := by
  rw [valueOf, Text.foldl_digits, toList_padded, Nat.ofDigitChars_append, Nat.ofDigitChars_replicate_zero,
    Nat.mul_zero, Nat.ofDigitChars_ten_toDigits]

theorem padded_ne_nil (width n : Nat) : (padded width n).toList ≠ [] := by
  rw [toList_padded]
  exact List.append_ne_nil_of_right_ne_nil _ Nat.toDigits_ne_nil

theorem length_padded {width n : Nat} (hwidth : 0 < width) (hn : n < 10 ^ width) :
    (padded width n).toList.length = width := by
  have hle : (Nat.toDigits 10 n).length ≤ width :=
    (Nat.length_toDigits_le_iff (by decide) hwidth).mpr hn
  rw [toList_padded, List.length_append, List.length_replicate]
  omega

theorem trimStart_of_digits {ds : List Char} (hds : ∀ c ∈ ds, c.isDigit = true) (hne : ds ≠ [])
    (rest : List Char) : Text.trimStart (ds ++ rest) = ds ++ rest := by
  cases ds with
  | nil => exact absurd rfl hne
  | cons d ds =>
    have hd := hds d List.mem_cons_self
    have hblank : Text.isBlank d = false := by
      have hrange : 48 ≤ d.toNat ∧ d.toNat ≤ 57 := by
        simp only [Char.isDigit, Bool.and_eq_true, decide_eq_true_eq] at hd
        exact ⟨hd.1, hd.2⟩
      simp only [Text.isBlank, Bool.or_eq_false_iff, Bool.and_eq_false_iff, decide_eq_false_iff_not,
        beq_eq_false_iff_ne]
      omega
    rw [Text.trimStart, List.cons_append, List.dropWhile_cons_of_neg (by simp [hblank])]

/-- Digits are read up to the number of them that may be read, or up to another character. -/
theorem digits?_append {most : Nat} {ds rest : List Char} (hds : ∀ c ∈ ds, c.isDigit = true)
    (hne : ds ≠ []) (hmost : ds.length ≤ most)
    (hrest : ds.length = most ∨ ∀ c ∈ rest.head?, c.isDigit = false) :
    digits? most (ds ++ rest) = some (ds, rest) := by
  have htaken : ((ds ++ rest).take most).takeWhile Char.isDigit = ds := by
    rw [List.take_append, List.take_of_length_le hmost, List.takeWhile_append_of_pos hds]
    have hnone : (rest.take (most - ds.length)).takeWhile Char.isDigit = [] := by
      rcases hrest with hlength | hhead
      · rw [hlength, Nat.sub_self, List.take_zero, List.takeWhile_nil]
      · cases rest with
        | nil => rw [List.take_nil, List.takeWhile_nil]
        | cons c cs =>
          cases hleft : most - ds.length with
          | zero => rfl
          | succ m => rw [List.take_succ_cons, List.takeWhile_cons_of_neg (by simp [hhead c rfl])]
    rw [hnone, List.append_nil]
  rw [digits?, htaken]
  split
  · exact absurd rfl hne
  · rw [List.drop_left]

theorem field?_padded {width n low high : Nat} (hwidth : 0 < width) (hn : n < 10 ^ width)
    (hlow : low ≤ n) (hhigh : n ≤ high) (rest : List Char) :
    field? width low high ((padded width n).toList ++ rest) = some (n, rest) := by
  have hds : ∀ c ∈ (padded width n).toList, c.isDigit = true := fun c hc =>
    isDigit_of_mem_padded hc
  have hlength := length_padded hwidth hn
  have hdigits : digits? width ((padded width n).toList ++ rest) =
      some ((padded width n).toList, rest) :=
    digits?_append hds (padded_ne_nil width n) (Nat.le_of_eq hlength) (Or.inl hlength)
  simp only [field?, trimStart_of_digits hds (padded_ne_nil width n), hdigits,
    Option.bind_eq_bind, Option.bind_some, valueOf_padded, hlow, hhigh, and_self, if_true,
    Option.pure_def]

/-! ## Parts -/

theorem mark?_cons {c : Char} (h : Text.isBlank c = false) (rest : List Char) :
    mark? c (c :: rest) = some rest := by
  rw [mark?, Text.trimStart, List.dropWhile_cons_of_neg (by simp [h])]
  exact if_pos rfl

theorem year?_yearText {year : Int} (h : isYear year = true) (rest : List Char) :
    year? ((yearText year).toList ++ '-' :: rest) = some (year, '-' :: rest) := by
  have hds : ∀ n, ∀ c ∈ (padded 4 n).toList, c.isDigit = true := fun n c hc =>
    isDigit_of_mem_padded hc
  have hstop : ∀ c ∈ ('-' :: rest).head?, c.isDigit = false := by
    intro c hc
    cases hc
    rfl
  -- after a sign any number of digits is read
  have hsigned : ∀ n, digits? ((padded 4 n).toList ++ '-' :: rest).length
      ((padded 4 n).toList ++ '-' :: rest) = some ((padded 4 n).toList, '-' :: rest) := fun n =>
    digits?_append (hds n) (padded_ne_nil 4 n) (by simp) (Or.inr hstop)
  unfold yearText
  split_ifs with hplain hneg
  · have hn : year.toNat < 10 ^ 4 := by omega
    have hlength := length_padded (by decide) hn
    have hdigits : digits? 4 ((padded 4 year.toNat).toList ++ '-' :: rest) =
        some ((padded 4 year.toNat).toList, '-' :: rest) :=
      digits?_append (hds _) (padded_ne_nil _ _) (Nat.le_of_eq hlength) (Or.inl hlength)
    have hvalue : (year.toNat : Int) = year := Int.toNat_of_nonneg hplain.1
    -- a digit is no sign
    have hfirst : ∀ (c : Char) (text : List Char), c.isDigit = false →
        (padded 4 year.toNat).toList ++ '-' :: rest ≠ c :: text := by
      intro c text hc hcons
      cases hcs : (padded 4 year.toNat).toList with
      | nil => exact padded_ne_nil _ _ hcs
      | cons d ds =>
        rw [hcs, List.cons_append] at hcons
        have hd := hds year.toNat d (by rw [hcs]; exact List.mem_cons_self)
        rw [(List.cons.inj hcons).1, hc] at hd
        cases hd
    unfold year?
    rw [trimStart_of_digits (hds _) (padded_ne_nil _ _)]
    dsimp only
    split
    · exact absurd ‹_› (hfirst _ _ (by decide))
    · exact absurd ‹_› (hfirst _ _ (by decide))
    · rw [hdigits]
      simp only [Option.map_some, Option.bind_eq_bind, Option.bind_some, valueOf_padded, hvalue, h,
        if_true, Option.pure_def]
  · have hvalue : -(year.natAbs : Int) = year := by omega
    have htrim : Text.trimStart (("-" ++ padded 4 year.natAbs).toList ++ '-' :: rest) =
        '-' :: ((padded 4 year.natAbs).toList ++ '-' :: rest) := by
      rw [String.toList_append]
      rfl
    simp only [year?, htrim, hsigned, Option.map_some, Option.bind_eq_bind, Option.bind_some,
      valueOf_padded, hvalue, h, if_true, Option.pure_def]
  · have hvalue : (year.natAbs : Int) = year := by omega
    have htrim : Text.trimStart (("+" ++ padded 4 year.natAbs).toList ++ '-' :: rest) =
        '+' :: ((padded 4 year.natAbs).toList ++ '-' :: rest) := by
      rw [String.toList_append]
      rfl
    simp only [year?, htrim, hsigned, Option.map_some, Option.bind_eq_bind, Option.bind_some,
      valueOf_padded, hvalue, h, if_true, Option.pure_def]

theorem fraction?_fractionText {nano : Nat} (h : nano < 10 ^ 9) :
    fraction? ((fractionText nano).toList ++ ['Z']) = some (nano, ['Z']) := by
  have hstop : ∀ c ∈ ['Z'].head?, c.isDigit = false := by
    intro c hc
    cases hc
    rfl
  have hgroup : ∀ width n, 0 < width → width ≤ 9 → n < 10 ^ width →
      fraction? (("." ++ padded width n).toList ++ ['Z']) =
        some (n * 10 ^ (9 - width), ['Z']) := by
    intro width n hpos hwidth hn
    have hlength := length_padded hpos hn
    have hdigits : digits? 9 ((padded width n).toList ++ ['Z']) =
        some ((padded width n).toList, ['Z']) :=
      digits?_append (fun c hc => isDigit_of_mem_padded hc) (padded_ne_nil _ _) (by omega)
        (Or.inr hstop)
    have hcons : ("." ++ padded width n).toList ++ ['Z'] =
        '.' :: ((padded width n).toList ++ ['Z']) := by
      rw [String.toList_append]
      rfl
    rw [hcons]
    simp only [fraction?, hdigits, Option.bind_eq_bind, Option.bind_some, valueOf_padded, hlength,
      Option.pure_def]
    rfl
  unfold fractionText
  split_ifs with hzero hmilli hmicro
  · rw [hzero]
    rfl
  · rw [hgroup 3 _ (by decide) (by decide) (by omega)]
    have hback : nano / 1000000 * 10 ^ (9 - 3) = nano := by omega
    rw [hback]
  · rw [hgroup 6 _ (by decide) (by decide) (by omega)]
    have hback : nano / 1000 * 10 ^ (9 - 6) = nano := by omega
    rw [hback]
  · rw [hgroup 9 _ (by decide) (by decide) h]
    simp

theorem toUtc_zero {t : Timestamp} (h : t.IsValid) : t.toUtc 0 = t := by
  have hhour := h.hour
  have hminute := h.minute
  have hbefore : ¬ (((t.hour * 60 + t.minute : Nat) : Int) - 0 < 0) := by omega
  have hafter : ¬ (1440 ≤ ((t.hour * 60 + t.minute : Nat) : Int) - 0) := by omega
  have hinDay : ((((t.hour * 60 + t.minute : Nat) : Int) - 0) % 1440).toNat =
      t.hour * 60 + t.minute := by omega
  have hhours : (t.hour * 60 + t.minute) / 60 = t.hour := by omega
  have hminutes : (t.hour * 60 + t.minute) % 60 = t.minute := by omega
  rw [toUtc]
  simp only [if_neg hbefore, if_neg hafter, hinDay, hhours, hminutes]

/-- A valid point in time is read back from its written form. -/
theorem parse?_text {t : Timestamp} (h : t.IsValid) : parse? t.text = some t := by
  have htext : t.text.toList = (yearText t.year).toList ++ '-' ::
      ((padded 2 t.month).toList ++ '-' :: ((padded 2 t.day).toList ++ 'T' ::
        ((padded 2 t.hour).toList ++ ':' :: ((padded 2 t.minute).toList ++ ':' ::
          ((padded 2 t.second).toList ++ ((fractionText t.nano).toList ++ ['Z'])))))) := by
    simp [text, dateText, timeText]
  have hdays : daysIn t.year t.month < 10 ^ 2 := by
    unfold daysIn
    split_ifs <;> decide
  have hday := h.day
  have hmonth := h.month
  have hhour := h.hour
  have hminute := h.minute
  have hsecond := h.second
  have hminus : Text.isBlank '-' = false := by decide
  have hcolon : Text.isBlank ':' = false := by decide
  have htwo : ∀ n low high, n < 10 ^ 2 → low ≤ n → n ≤ high → ∀ rest,
      field? 2 low high ((padded 2 n).toList ++ rest) = some (n, rest) :=
    fun _ _ _ => field?_padded (by decide)
  have hmonth? := htwo t.month 1 12 (by omega) hmonth.1 hmonth.2
  have hday? := htwo t.day 1 (daysIn t.year t.month) (by omega) hday.1 hday.2
  have hhour? := htwo t.hour 0 23 (by omega) (Nat.zero_le _) hhour
  have hminute? := htwo t.minute 0 59 (by omega) (Nat.zero_le _) hminute
  have hsecond? := htwo t.second 0 60 (by omega) (Nat.zero_le _) hsecond
  have hoffset : offset? (Text.trimStart ['Z']) = some (0, []) := by decide
  have hend : Text.trimStart [] = [] := rfl
  rw [parse?, htext]
  -- One step for each part of the text, in the order in which they are read.
  refine Option.bind_eq_some_iff.mpr ⟨_, year?_yearText h.year _, ?_⟩
  refine Option.bind_eq_some_iff.mpr ⟨_, mark?_cons hminus _, ?_⟩
  refine Option.bind_eq_some_iff.mpr ⟨_, hmonth? _, ?_⟩
  refine Option.bind_eq_some_iff.mpr ⟨_, mark?_cons hminus _, ?_⟩
  refine Option.bind_eq_some_iff.mpr ⟨_, hday? _, ?_⟩
  refine (if_pos (Or.inl rfl)).trans (Option.bind_eq_some_iff.mpr ⟨_, rfl, ?_⟩)
  refine Option.bind_eq_some_iff.mpr ⟨_, hhour? _, ?_⟩
  refine Option.bind_eq_some_iff.mpr ⟨_, mark?_cons hcolon _, ?_⟩
  refine Option.bind_eq_some_iff.mpr ⟨_, hminute? _, ?_⟩
  refine Option.bind_eq_some_iff.mpr ⟨_, mark?_cons hcolon _, ?_⟩
  refine Option.bind_eq_some_iff.mpr ⟨_, hsecond? _, ?_⟩
  refine Option.bind_eq_some_iff.mpr ⟨_, fraction?_fractionText h.nano, ?_⟩
  refine Option.bind_eq_some_iff.mpr ⟨_, hoffset, ?_⟩
  refine Option.bind_eq_some_iff.mpr ⟨(), if_pos hend, ?_⟩
  change (if isYear (t.toUtc 0).year = true then some (t.toUtc 0) else none) = some t
  rw [toUtc_zero h, if_pos h.year]

/-! ## What can be read -/

theorem valueOf_lt {ds : List Char} (h : ∀ c ∈ ds, c.isDigit = true) :
    valueOf ds < 10 ^ ds.length := by
  induction ds using List.reverseRecOn with
  | nil => decide
  | append_singleton ds d ih =>
    have hfront := ih fun c hc => h c (List.mem_append_left _ hc)
    have hlast : d.toNat - 48 < 10 := by
      have hd := h d (List.mem_append_right _ (List.mem_singleton_self d))
      simp only [Char.isDigit, Bool.and_eq_true, decide_eq_true_eq] at hd
      have hle : d.toNat ≤ 57 := hd.2
      omega
    have hvalue : valueOf (ds ++ [d]) = valueOf ds * 10 + (d.toNat - 48) := by
      rw [valueOf, List.foldl_append]
      rfl
    rw [hvalue, List.length_append, List.length_singleton, Nat.pow_succ]
    omega

variable {cs rest : List Char}

theorem digits?_eq_some {most : Nat} {ds : List Char} (h : digits? most cs = some (ds, rest)) :
    (∀ c ∈ ds, c.isDigit = true) ∧ ds.length ≤ most := by
  rw [digits?] at h
  split at h
  · cases h
  · cases h
    have hlength := (List.takeWhile_sublist (l := cs.take most) Char.isDigit).length_le
    rw [List.length_take] at hlength
    exact ⟨List.all_eq_true.mp List.all_takeWhile, Nat.le_trans hlength (Nat.min_le_left _ _)⟩

theorem field?_bounds {most low high v : Nat} (h : field? most low high cs = some (v, rest)) :
    low ≤ v ∧ v ≤ high := by
  obtain ⟨⟨ds, after⟩, -, h⟩ := Option.bind_eq_some_iff.mp h
  dsimp only at h
  split at h
  · cases h
    assumption
  · cases h

theorem fraction?_lt {nano : Nat} (h : fraction? cs = some (nano, rest)) : nano < 10 ^ 9 := by
  unfold fraction? at h
  split at h
  · obtain ⟨⟨ds, after⟩, hds, h⟩ := Option.bind_eq_some_iff.mp h
    cases h
    obtain ⟨hdigits, hlength⟩ := digits?_eq_some hds
    calc valueOf ds * 10 ^ (9 - ds.length)
        < 10 ^ ds.length * 10 ^ (9 - ds.length) :=
          Nat.mul_lt_mul_of_pos_right (valueOf_lt hdigits) (Nat.pow_pos (by decide))
      _ = 10 ^ 9 := by rw [← Nat.pow_add, Nat.add_sub_cancel' hlength]
  · cases h
    decide

theorem daysIn_pos (year : Int) (month : Nat) : 1 ≤ daysIn year month := by
  unfold daysIn
  split_ifs <;> decide

/-- The month and the day are those of a calendar. -/
def IsDate (t : Timestamp) : Prop :=
  1 ≤ t.month ∧ t.month ≤ 12 ∧ 1 ≤ t.day ∧ t.day ≤ daysIn t.year t.month

theorem IsDate.nextDay {t : Timestamp} (h : t.IsDate) : t.nextDay.IsDate := by
  have hmonth := daysIn_pos t.year (t.month + 1)
  have hyear := daysIn_pos (t.year + 1) 1
  unfold Timestamp.nextDay IsDate at *
  split_ifs <;> dsimp only <;> omega

theorem IsDate.previousDay {t : Timestamp} (h : t.IsDate) : t.previousDay.IsDate := by
  have hmonth := daysIn_pos t.year (t.month - 1)
  have hyear : daysIn (t.year - 1) 12 = 31 := rfl
  unfold Timestamp.previousDay IsDate at *
  split_ifs <;> dsimp only <;> omega

theorem IsDate.toUtc {t : Timestamp} (h : t.IsDate) (offset : Int) : (t.toUtc offset).IsDate := by
  unfold Timestamp.toUtc
  dsimp only
  split_ifs
  · exact h.previousDay
  · exact h.nextDay
  · exact h

theorem seconds_toUtc (t : Timestamp) (offset : Int) :
    (t.toUtc offset).second = t.second ∧ (t.toUtc offset).nano = t.nano := by
  unfold Timestamp.toUtc nextDay previousDay
  dsimp only
  split_ifs <;> exact ⟨rfl, rfl⟩

/-- A point in time that is read has a place in the calendar and on the clock. -/
theorem isValid_of_parse? {s : String} {t : Timestamp} (h : parse? s = some t) : t.IsValid := by
  -- One step for each part of the text, in the order in which they are read.
  obtain ⟨⟨year, rest⟩, -, h⟩ := Option.bind_eq_some_iff.mp h
  obtain ⟨_, -, h⟩ := Option.bind_eq_some_iff.mp h
  obtain ⟨⟨month, rest⟩, hmonth, h⟩ := Option.bind_eq_some_iff.mp h
  obtain ⟨_, -, h⟩ := Option.bind_eq_some_iff.mp h
  obtain ⟨⟨day, rest⟩, hday, h⟩ := Option.bind_eq_some_iff.mp h
  -- a mark stands between the date and the time
  obtain ⟨c, rest, rfl⟩ : ∃ c more, rest = c :: more := by
    cases rest with
    | nil => cases h
    | cons c more => exact ⟨c, more, rfl⟩
  dsimp only at h
  by_cases hmark : c = 'T' ∨ c = 't' ∨ c = ' '
  swap
  · rw [if_neg hmark] at h
    cases h
  rw [if_pos hmark] at h
  obtain ⟨_, -, h⟩ := Option.bind_eq_some_iff.mp h
  obtain ⟨⟨hour, rest⟩, hhour, h⟩ := Option.bind_eq_some_iff.mp h
  obtain ⟨_, -, h⟩ := Option.bind_eq_some_iff.mp h
  obtain ⟨⟨minute, rest⟩, hminute, h⟩ := Option.bind_eq_some_iff.mp h
  obtain ⟨_, -, h⟩ := Option.bind_eq_some_iff.mp h
  obtain ⟨⟨second, rest⟩, hsecond, h⟩ := Option.bind_eq_some_iff.mp h
  obtain ⟨⟨nano, rest⟩, hnano, h⟩ := Option.bind_eq_some_iff.mp h
  obtain ⟨⟨offset, rest⟩, -, h⟩ := Option.bind_eq_some_iff.mp h
  obtain ⟨_, -, h⟩ := Option.bind_eq_some_iff.mp h
  dsimp only at h
  split at h
  · rename_i hyear
    cases h
    have hdate : IsDate { year, month, day, hour, minute, second, nano } :=
      ⟨(field?_bounds hmonth).1, (field?_bounds hmonth).2, field?_bounds hday⟩
    obtain ⟨hfirst, hlast, hinMonth⟩ := hdate.toUtc offset
    have hsecond := (field?_bounds hsecond).2
    have hnano := fraction?_lt hnano
    refine ⟨hyear, ⟨hfirst, hlast⟩, hinMonth, ?_, ?_, ?_, ?_⟩
    · rw [toUtc]
      dsimp only
      omega
    · rw [toUtc]
      dsimp only
      omega
    · rwa [(seconds_toUtc _ offset).1]
    · rwa [(seconds_toUtc _ offset).2]
  · cases h

end SourceGraph.Timestamp
