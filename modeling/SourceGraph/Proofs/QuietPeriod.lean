import Mathlib.Data.List.Induction
import SourceGraph.Proofs.Path
import SourceGraph.Watch.Batch

/-!
# Every event is in one batch

A batcher is followed through events, flushes and takes whose times do not decrease. Beside its
state a log keeps the batches that were given out, each with the events since the one before.

* `Batcher.noted_record`: what is known of each path after one more event.
* `Batch.Accounts`: a batch holds each path of some events once, by the last event for it.
* `Log.Follows.next`, `Log.follows_after`: what one action keeps, and a run of them.
* `Log.events_reach_one_batch`: each event is in one batch, which is given out after a quiet period.
-/

set_option autoImplicit false

namespace SourceGraph

/-! ## Changes that wait -/

namespace Batcher

variable {p r : Path} {d : Bool} {changes : List (Path × Bool)}

/-- The changes are in order, each path once. -/
def IsSorted (changes : List (Path × Bool)) : Prop :=
  changes.Pairwise fun c e => c.1.order e.1 = .lt

/-- Whether the last event for a path was a deletion, as far as there was one. -/
def noted (changes : List (Path × Bool)) (p : Path) : Option Bool :=
  (changes.find? (·.1.same p)).map (·.2)

theorem noted_cons (c : Path × Bool) (changes : List (Path × Bool)) (p : Path) :
    noted (c :: changes) p = if c.1.same p then some c.2 else noted changes p := by
  rw [noted, List.find?_cons]
  cases c.1.same p <;> rfl

theorem mem_record {c : Path × Bool} (h : c ∈ record p d changes) :
    c.1 = p ∨ ∃ e ∈ changes, e.1 = c.1 := by
  induction changes with
  | nil => exact Or.inl (by rw [List.mem_singleton.mp h])
  | cons e rest ih =>
    rw [record] at h
    split at h
    · rcases List.mem_cons.mp h with rfl | h
      · exact Or.inl rfl
      · exact Or.inr ⟨c, h, rfl⟩
    · rcases List.mem_cons.mp h with rfl | h
      · exact Or.inr ⟨e, List.mem_cons_self, rfl⟩
      · exact Or.inr ⟨c, List.mem_cons_of_mem _ h, rfl⟩
    · rcases List.mem_cons.mp h with rfl | h
      · exact Or.inr ⟨_, List.mem_cons_self, rfl⟩
      · exact (ih h).imp_right fun ⟨f, hf, hfc⟩ => ⟨f, List.mem_cons_of_mem _ hf, hfc⟩

theorem isSorted_record (h : IsSorted changes) : IsSorted (record p d changes) := by
  induction changes with
  | nil => exact List.pairwise_singleton _ _
  | cons e rest ih =>
    obtain ⟨hfirst, hrest⟩ := List.pairwise_cons.mp h
    rw [record]
    split
    · rename_i hlt
      refine List.pairwise_cons.mpr ⟨fun c hc => ?_, h⟩
      rcases List.mem_cons.mp hc with rfl | hc
      · exact hlt
      · exact Path.order_trans hlt (hfirst c hc)
    · exact List.pairwise_cons.mpr ⟨hfirst, hrest⟩
    · rename_i hgt
      refine List.pairwise_cons.mpr ⟨fun c hc => ?_, ih hrest⟩
      rcases mem_record hc with hp | ⟨f, hf, hfc⟩
      · rw [hp]
        exact Path.lt_of_order_gt hgt
      · rw [← hfc]
        exact hfirst f hf

/-- One more event decides for its path, and for no other one. -/
theorem noted_record (p : Path) (d : Bool) (changes : List (Path × Bool)) (r : Path) :
    noted (record p d changes) r = if p.same r then some d else noted changes r := by
  induction changes with
  | nil => exact noted_cons (p, d) [] r
  | cons e rest ih =>
    rw [record]
    split
    · exact noted_cons (p, d) (e :: rest) r
    · rename_i heq
      -- the entry that is there has the components of the path
      have hsame : e.1.same r = p.same r := by rw [Path.same, Path.same, Path.order_eq_iff.mp heq]
      rw [noted_cons, noted_cons, hsame]
      cases p.same r <;> rfl
    · rename_i hgt
      rw [noted_cons, ih, noted_cons]
      by_cases her : e.1.same r = true
      · have hpr : p.same r = false := by
          rw [Bool.eq_false_iff, ne_eq, Path.same_iff_components, ← Path.same_iff_components.mp her,
            ← Path.order_eq_iff, hgt]
          simp
        simp [her, hpr]
      · simp [her]

theorem noted_eq_some_iff (h : IsSorted changes) :
    noted changes p = some d ↔ ∃ c ∈ changes, c.1.same p = true ∧ c.2 = d := by
  induction changes with
  | nil => simp [noted]
  | cons e rest ih =>
    obtain ⟨hfirst, hrest⟩ := List.pairwise_cons.mp h
    rw [noted_cons]
    by_cases hep : e.1.same p = true
    · rw [if_pos hep, Option.some.injEq]
      refine ⟨fun hd => ⟨e, List.mem_cons_self, hep, hd⟩, ?_⟩
      rintro ⟨c, hc, hcp, rfl⟩
      rcases List.mem_cons.mp hc with rfl | hc
      · rfl
      · have hne := Path.not_same_of_lt (hfirst c hc)
        rw [Path.same_iff_components] at hep hcp
        rw [Bool.eq_false_iff, ne_eq, Path.same_iff_components] at hne
        exact absurd (hep.trans hcp.symm) hne
    · rw [if_neg hep, ih hrest]
      simp [hep]

end Batcher

/-! ## Batches -/

/-- Whether the last event for a path was a deletion, as far as there was one. -/
def lastOf (events : List (FileEvent × Nat)) (p : Path) : Option Bool :=
  (events.findRev? (·.1.path.same p)).map (·.1.isDeletion)

/--
A batch holds each path of some events once, in order. It is a changed or a deleted one by the last
event for it.
-/
structure Batch.Accounts (b : Batch) (events : List (FileEvent × Nat)) : Prop where
  modified_sorted : b.modified.Pairwise fun p q => p.order q = .lt
  deleted_sorted : b.deleted.Pairwise fun p q => p.order q = .lt
  disjoint : ∀ p ∈ b.modified, ∀ q ∈ b.deleted, p.same q = false
  modified : ∀ p, (∃ q ∈ b.modified, q.same p = true) ↔ lastOf events p = some false
  deleted : ∀ p, (∃ q ∈ b.deleted, q.same p = true) ↔ lastOf events p = some true

namespace Batcher

/-- The changes that wait are those of some events, the last one of which has a known time. -/
structure Holds (b : Batcher) (events : List (FileEvent × Nat)) : Prop where
  sorted : IsSorted b.changes
  noted : ∀ p, noted b.changes p = lastOf events p
  last : b.lastEvent = events.getLast?.map (·.2)

theorem holds_empty (quiet : Nat) : Holds { quiet } [] := ⟨List.Pairwise.nil, fun _ => rfl, rfl⟩

theorem lastOf_concat (events : List (FileEvent × Nat)) (e : FileEvent) (now : Nat) (p : Path) :
    lastOf (events ++ [(e, now)]) p =
      if e.path.same p then some e.isDeletion else lastOf events p := by
  rw [lastOf, lastOf, List.findRev?_eq_find?_reverse, List.findRev?_eq_find?_reverse,
    List.reverse_append, List.reverse_singleton, List.singleton_append, List.find?_cons]
  cases e.path.same p <;> rfl

variable {b : Batcher} {events : List (FileEvent × Nat)}

theorem Holds.push (h : b.Holds events) (e : FileEvent) (now : Nat) :
    (b.push e now).Holds (events ++ [(e, now)]) where
  sorted := isSorted_record h.sorted
  noted p := by
    rw [lastOf_concat, ← h.noted]
    exact noted_record e.path e.isDeletion b.changes p
  last := by
    rw [List.getLast?_concat]
    rfl

/-- Changes wait exactly if there were events. -/
theorem Holds.isEmpty_iff (h : b.Holds events) : b.isEmpty = true ↔ events = [] := by
  rw [isEmpty, List.isEmpty_iff]
  constructor
  · intro hnone
    cases hlast : events.getLast? with
    | none => exact List.getLast?_eq_none_iff.mp hlast
    | some e =>
      have hsame : lastOf events e.1.path ≠ none := by
        obtain ⟨front, rfl⟩ := List.getLast?_eq_some_iff.mp hlast
        rw [lastOf_concat, if_pos (Path.same_iff_components.mpr rfl)]
        simp
      rw [← h.noted, hnone] at hsame
      exact absurd rfl hsame
  · rintro rfl
    refine List.eq_nil_iff_forall_not_mem.mpr fun c hc => ?_
    have hnoted : Batcher.noted b.changes c.1 = some c.2 :=
      (noted_eq_some_iff h.sorted).mpr ⟨c, hc, Path.same_iff_components.mpr rfl, rfl⟩
    rw [h.noted] at hnoted
    cases hnoted

theorem mem_batch_iff {changes : List (Path × Bool)} (h : IsSorted changes) (d : Bool) (p : Path) :
    (∃ q ∈ (changes.filter (·.2 == d)).map (·.1), q.same p = true) ↔
      Batcher.noted changes p = some d := by
  rw [noted_eq_some_iff h]
  constructor
  · rintro ⟨q, hq, hqp⟩
    obtain ⟨c, hc, rfl⟩ := List.mem_map.mp hq
    obtain ⟨hc, hd⟩ := List.mem_filter.mp hc
    exact ⟨c, hc, hqp, beq_iff_eq.mp hd⟩
  · rintro ⟨c, hc, hcp, rfl⟩
    exact ⟨c.1, List.mem_map_of_mem (List.mem_filter.mpr ⟨hc, beq_self_eq_true _⟩), hcp⟩

/-- The batch of the changes that wait accounts for the events since the last one. -/
theorem Holds.accounts (h : b.Holds events) : b.batch.Accounts events := by
  have hmodified : b.batch.modified = (b.changes.filter (·.2 == false)).map (·.1) := by
    simp [batch]
  have hdeleted : b.batch.deleted = (b.changes.filter (·.2 == true)).map (·.1) := by
    simp [batch]
  have hsorted : ∀ d, ((b.changes.filter (·.2 == d)).map (·.1)).Pairwise
      fun p q => p.order q = .lt := fun d =>
    List.pairwise_map.mpr (h.sorted.sublist List.filter_sublist)
  refine ⟨hmodified ▸ hsorted false, hdeleted ▸ hsorted true, fun p hp q hq => ?_, fun p => ?_,
    fun p => ?_⟩
  · -- a path in both lists would be noted in two ways
    rw [Bool.eq_false_iff]
    intro hpq
    have hfalse := (mem_batch_iff h.sorted false q).mp ⟨p, hmodified ▸ hp, hpq⟩
    have htrue := (mem_batch_iff h.sorted true q).mp
      ⟨q, hdeleted ▸ hq, Path.same_iff_components.mpr rfl⟩
    rw [hfalse] at htrue
    cases htrue
  · rw [hmodified, mem_batch_iff h.sorted, h.noted]
  · rw [hdeleted, mem_batch_iff h.sorted, h.noted]

theorem isSome_flush (b : Batcher) (now : Nat) : (b.flush now).1.isSome = b.isReady now := by
  rw [flush]
  cases b.isReady now <;> rfl

variable {front : List (FileEvent × Nat)} {e : FileEvent × Nat} {now : Nat}

theorem Holds.lastEvent_concat (h : b.Holds (front ++ [e])) : b.lastEvent = some e.2 := by
  rw [h.last, List.getLast?_concat, Option.map_some]

theorem Holds.isEmpty_concat (h : b.Holds (front ++ [e])) : b.isEmpty = false := by
  rw [Bool.eq_false_iff, ne_eq, h.isEmpty_iff]
  simp

theorem Holds.isReady_iff (h : b.Holds (front ++ [e])) (hle : e.2 ≤ now) :
    b.isReady now = true ↔ e.2 + b.quiet ≤ now := by
  simp only [isReady, h.lastEvent_concat, h.isEmpty_concat, Bool.not_false, Bool.true_and,
    decide_eq_true_eq]
  omega

theorem Holds.timeUntilReady_eq (h : b.Holds (front ++ [e])) (hle : e.2 ≤ now) :
    b.timeUntilReady now = some (e.2 + b.quiet - now) := by
  simp only [timeUntilReady, h.lastEvent_concat, h.isEmpty_concat, Bool.false_eq_true, if_false,
    Option.some.injEq]
  omega

/-! ## Runs -/

/-- What is done with a batcher. -/
inductive Action where
  | push (e : FileEvent) (now : Nat)
  | flush (now : Nat)
  | take
deriving DecidableEq

namespace Action

/-- When it is done, where that matters. -/
def time? : Action → Option Nat
  | push _ now | flush now => some now
  | take => none

/-- The event that is pushed, and when. -/
def event? : Action → Option (FileEvent × Nat)
  | push e now => some (e, now)
  | _ => none

theorem event_times_sublist (actions : List Action) :
    ((actions.filterMap event?).map (·.2)).Sublist (actions.filterMap time?) := by
  induction actions with
  | nil => exact List.Sublist.refl _
  | cons a rest ih =>
    cases a with
    | push e now => exact ih.cons_cons now
    | flush now => exact ih.cons now
    | take => exact ih

end Action

end Batcher

open Batcher (Action)

/-- A batcher, the batches it gave out with the events of each, and the events since then. -/
structure Log where
  batcher : Batcher
  given : List (List (FileEvent × Nat) × Batch) := []
  waiting : List (FileEvent × Nat) := []
deriving DecidableEq

namespace Log

/-- The log after a batch was given out. -/
def give (l : Log) (b : Batch) (rest : Batcher) : Log where
  batcher := rest
  given := l.given ++ [(l.waiting, b)]

/-- The log after one action. -/
def next (l : Log) : Action → Log
  | .push e now => { l with
      batcher := l.batcher.push e now
      waiting := l.waiting ++ [(e, now)] }
  | .flush now =>
    match l.batcher.flush now with
    | (some b, rest) => l.give b rest
    | (none, rest) => { l with batcher := rest }
  | .take => l.give l.batcher.take.1 l.batcher.take.2

/-- The log after some actions on a new batcher. -/
def after (quiet : Nat) (actions : List Action) : Log :=
  actions.foldl next { batcher := { quiet } }

/-- The batches and the changes that wait are those of the events of some actions. -/
structure Follows (l : Log) (quiet : Nat) (actions : List Action) : Prop where
  quiet : l.batcher.quiet = quiet
  holds : l.batcher.Holds l.waiting
  accounts : ∀ g ∈ l.given, g.2.Accounts g.1
  events : l.given.flatMap (·.1) ++ l.waiting = actions.filterMap Action.event?

variable {l : Log} {quiet : Nat} {actions : List Action}

theorem Follows.give (h : l.Follows quiet actions) {a : Action} (ha : a.event? = none) :
    (l.give l.batcher.batch { quiet := l.batcher.quiet }).Follows quiet (actions ++ [a]) where
  quiet := h.quiet
  holds := Batcher.holds_empty _
  accounts := List.forall_mem_append.mpr
    ⟨h.accounts, List.forall_mem_singleton.mpr h.holds.accounts⟩
  events := by
    rw [List.filterMap_append, ← h.events]
    simp [Log.give, ha]

theorem Follows.next (h : l.Follows quiet actions) (a : Action) :
    (l.next a).Follows quiet (actions ++ [a]) := by
  cases a with
  | push e now =>
    refine ⟨h.quiet, h.holds.push e now, h.accounts, ?_⟩
    rw [List.filterMap_append, ← h.events]
    simp [Log.next, Action.event?]
  | flush now =>
    rw [Log.next, Batcher.flush]
    split
    · rename_i hflush
      split at hflush
      · cases hflush
        exact h.give rfl
      · cases hflush
    · rename_i hflush
      split at hflush
      · cases hflush
      · cases hflush
        refine ⟨h.quiet, h.holds, h.accounts, ?_⟩
        rw [List.filterMap_append, ← h.events]
        simp [Action.event?]
  | take => exact h.give rfl

theorem follows_after (quiet : Nat) (actions : List Action) :
    (after quiet actions).Follows quiet actions := by
  induction actions using List.reverseRecOn with
  | nil => exact ⟨rfl, Batcher.holds_empty quiet, by simp [after], rfl⟩
  | append_singleton actions a ih =>
    rw [after, List.foldl_append]
    exact ih.next a

/-- The last event that waits is the latest of all. -/
theorem Follows.le_last (h : l.Follows quiet actions)
    (htimes : (actions.filterMap Action.time?).Pairwise (· ≤ ·)) {front : List (FileEvent × Nat)}
    {last : FileEvent × Nat} (hlast : l.waiting = front ++ [last]) :
    ∀ e ∈ actions.filterMap Action.event?, e.2 ≤ last.2 := by
  have hsorted := htimes.sublist (Action.event_times_sublist actions)
  rw [← h.events, hlast, ← List.append_assoc] at hsorted ⊢
  rw [List.map_append, List.pairwise_append] at hsorted
  intro e he
  rcases List.mem_append.mp he with he | he
  · exact hsorted.2.2 _ (List.mem_map_of_mem he) _ (List.mem_singleton_self _)
  · exact List.mem_singleton.mp he ▸ Nat.le_refl _

/--
For actions at times that do not decrease, each event is in exactly one batch or waits for one. A
batch holds each path of its events once, by the last event for it. Changes are given out exactly
if there are some and no event came in the quiet period before; this is so after the time that is
told, and at no time before.
-/
theorem events_reach_one_batch (quiet : Nat) (actions : List Action)
    (htimes : (actions.filterMap Action.time?).Pairwise (· ≤ ·)) :
    (after quiet actions).given.flatMap (·.1) ++ (after quiet actions).waiting =
        actions.filterMap Action.event? ∧
      (∀ g ∈ (after quiet actions).given, g.2.Accounts g.1) ∧
      ∀ now, (∀ t ∈ actions.filterMap Action.time?, t ≤ now) →
        (((after quiet actions).batcher.flush now).1.isSome = true ↔
          (after quiet actions).waiting ≠ [] ∧
            ∀ e ∈ actions.filterMap Action.event?, e.2 + quiet ≤ now) ∧
        ((after quiet actions).waiting ≠ [] →
          ∃ d, (after quiet actions).batcher.timeUntilReady now = some d ∧
            ((after quiet actions).batcher.flush (now + d)).1.isSome = true ∧
            ∀ d' < d, (after quiet actions).batcher.flush (now + d') =
              (none, (after quiet actions).batcher)) := by
  have h := follows_after quiet actions
  refine ⟨h.events, h.accounts, fun now hnow => ?_⟩
  generalize after quiet actions = l at h
  rcases List.eq_nil_or_concat l.waiting with hnone | ⟨front, last, hlast⟩
  · -- nothing waits
    refine ⟨?_, fun hsome => absurd hnone hsome⟩
    have hready : l.batcher.isReady now = false := by
      rw [Batcher.isReady, h.holds.last, hnone]
      rfl
    rw [Batcher.isSome_flush, hready]
    simp [hnone]
  · rw [List.concat_eq_append] at hlast
    have hle := h.le_last htimes hlast
    have hmem : last ∈ actions.filterMap Action.event? := by
      rw [← h.events, hlast]
      simp
    have hlastNow : last.2 ≤ now :=
      hnow _ ((Action.event_times_sublist actions).subset (List.mem_map_of_mem hmem))
    have hholds := hlast ▸ h.holds
    have hquiet := h.quiet
    constructor
    · rw [Batcher.isSome_flush, hholds.isReady_iff hlastNow, hquiet]
      constructor
      · intro hready
        refine ⟨by simp [hlast], fun e he => ?_⟩
        have := hle e he
        omega
      · exact fun hall => hall.2 last hmem
    · intro _
      refine ⟨_, hholds.timeUntilReady_eq hlastNow, ?_, fun d hd => ?_⟩
      · rw [Batcher.isSome_flush, hholds.isReady_iff (by omega)]
        omega
      · have hready : ¬ l.batcher.isReady (now + d) = true := by
          rw [hholds.isReady_iff (by omega)]
          omega
        rw [Batcher.flush, if_neg hready]

/-- A file is written and deleted under two spellings, another one is written twice. -/
def twoSpellings : List Action :=
  [.push (.modified ⟨"lib/a.ts"⟩) 0, .flush 50, .push (.deleted ⟨"lib//a.ts"⟩) 90,
    .push (.created ⟨"b.ts"⟩) 100, .flush 199, .flush 200, .push (.modified ⟨"b.ts"⟩) 240]

theorem events_reach_one_batch_twoSpellings :
    (after 100 twoSpellings).given.map (·.2) =
        [{ modified := [⟨"b.ts"⟩], deleted := [⟨"lib/a.ts"⟩] }] ∧
      (∀ g ∈ (after 100 twoSpellings).given, g.2.Accounts g.1) ∧
      (after 100 twoSpellings).waiting = [(.modified ⟨"b.ts"⟩, 240)] ∧
      ∃ d, (after 100 twoSpellings).batcher.timeUntilReady 250 = some d ∧
        ((after 100 twoSpellings).batcher.flush (250 + d)).1.isSome = true := by
  have hwaiting : (after 100 twoSpellings).waiting = [(.modified ⟨"b.ts"⟩, 240)] := by
    decide +kernel
  have h := events_reach_one_batch 100 twoSpellings (by decide +kernel)
  obtain ⟨d, hd, hflush, -⟩ := (h.2.2 250 (by decide +kernel)).2 (by simp [hwaiting])
  exact ⟨by decide +kernel, h.2.1, hwaiting, d, hd, hflush⟩

end Log

end SourceGraph
