import Mathlib.Tactic.SplitIfs
import SourceGraph.Proofs.Disk

/-!
# What names lead to

A folder seen as a function from lists of names: at each of them there is nothing, a folder or a
file. Changes of a folder are described by what they do to this function.

* `Listing.kindAt?`: the function.
* `Listing.kindAt?_put_file`, `Listing.kindAt?_put_folder`, `Listing.kindAt?_erase_file`: a change
  of one name in a folder, however deep, is a change at that place only.
-/

set_option autoImplicit false

namespace SourceGraph

/-- What names lead to, without the contents of folders. -/
inductive Kind where
  | folder
  | file (content : ByteArray)

/-- The bytes of a file. -/
def Kind.content? : Kind → Option ByteArray
  | folder => none
  | file content => some content

def Entry.kind : Entry → Kind
  | .file content => .file content
  | .folder _ => .folder

namespace Listing

/-- What names lead to. -/
def kindAt? (l : Listing) (names : List String) : Option Kind := (l.at? names).map Entry.kind

variable {l inside : Listing} {name : String} {names : List String}

theorem get?_cons (name : String) (e : Entry) (rest : Listing) (other : String) :
    (cons name e rest).get? other = if name = other then some e else rest.get? other := by
  cases e <;> rfl

theorem put_cons (n : String) (f : Entry) (rest : Listing) (name : String) (e : Entry) :
    (cons n f rest).put name e =
      if n = name then cons name e rest
      else if name < n then cons name e (cons n f rest)
      else cons n f (rest.put name e) := by
  cases f <;> rfl

theorem erase_cons (n : String) (f : Entry) (rest : Listing) (name : String) :
    (cons n f rest).erase name =
      if n = name then rest.erase name else cons n f (rest.erase name) := by
  cases f <;> rfl

theorem get?_put (l : Listing) (name : String) (e : Entry) (other : String) :
    (l.put name e).get? other = if name = other then some e else l.get? other := by
  have hstep : ∀ n f rest,
      (put name e rest).get? other = (if name = other then some e else rest.get? other) →
      (put name e (cons n f rest)).get? other =
        if name = other then some e else (cons n f rest).get? other := by
    intro n f rest ih
    rw [put_cons, get?_cons n f]
    by_cases hn : n = name
    · rw [if_pos hn, get?_cons, hn]
      by_cases hother : name = other
      · rw [if_pos hother, if_pos hother]
      · rw [if_neg hother, if_neg hother, if_neg hother]
    · rw [if_neg hn]
      by_cases hless : name < n
      · rw [if_pos hless, get?_cons, get?_cons]
      · rw [if_neg hless, get?_cons, ih]
        by_cases hother : n = other
        · rw [if_pos hother, if_neg fun h => hn (hother.trans h.symm), if_pos hother]
        · rw [if_neg hother, if_neg hother]
  induction l with
  | nil => exact get?_cons name e nil other
  | file n content rest ih => exact hstep n (.file content) rest ih
  | folder n inside rest _ ih => exact hstep n (.folder inside) rest ih

theorem get?_erase (l : Listing) (name other : String) :
    (l.erase name).get? other = if name = other then none else l.get? other := by
  have hstep : ∀ n f rest,
      (erase name rest).get? other = (if name = other then none else rest.get? other) →
      (erase name (cons n f rest)).get? other =
        if name = other then none else (cons n f rest).get? other := by
    intro n f rest ih
    rw [erase_cons, get?_cons n f]
    by_cases hn : n = name
    · rw [if_pos hn, ih, hn]
      by_cases hother : name = other
      · rw [if_pos hother, if_pos hother]
      · rw [if_neg hother, if_neg hother, if_neg hother]
    · rw [if_neg hn, get?_cons, ih]
      by_cases hother : n = other
      · rw [if_pos hother, if_neg fun h => hn (hother.trans h.symm), if_pos hother]
      · rw [if_neg hother, if_neg hother]
  induction l with
  | nil => exact (ite_self none).symm
  | file n content rest ih => exact hstep n (.file content) rest ih
  | folder n inside rest _ ih => exact hstep n (.folder inside) rest ih

theorem kindAt?_nil (l : Listing) : l.kindAt? [] = some .folder := rfl

theorem kindAt?_cons (l : Listing) (name : String) (names : List String) :
    l.kindAt? (name :: names) =
      match l.get? name with
      | some (.folder inside) => inside.kindAt? names
      | some (.file content) => if names = [] then some (.file content) else none
      | none => none := by
  unfold kindAt?
  rw [at?]
  cases l.get? name with
  | none => rfl
  | some e =>
    cases e with
    | folder inside => rfl
    | file content => cases names <;> rfl

/-- Where a folder leads to, after a change of what one of its names stands for. -/
theorem kindAt?_of_get? {l' : Listing} {e : Option Entry}
    (hget : ∀ other, l'.get? other = if name = other then e else l.get? other)
    (hbelow : ∀ x xs, l'.kindAt? (name :: x :: xs) = l.kindAt? (name :: x :: xs))
    (names : List String) :
    l'.kindAt? names = if names = [name] then e.map Entry.kind else l.kindAt? names := by
  cases names with
  | nil => simp [kindAt?_nil]
  | cons other more =>
    by_cases hother : name = other
    · subst hother
      cases more with
      | nil =>
        rw [if_pos rfl, kindAt?_cons, hget, if_pos rfl]
        cases e with
        | none => rfl
        | some e => cases e <;> rfl
      | cons x xs => rw [if_neg (by simp), hbelow]
    · have hne : other :: more ≠ [name] := fun h => hother (List.cons.inj h).1.symm
      rw [if_neg hne, kindAt?_cons, kindAt?_cons, hget, if_neg hother]

/-- What names lead to, after a change of one name in a folder. -/
theorem kindAt?_changeAt {change : Listing → Listing} {v : Option Kind}
    (hat : l.at? names = some (.folder inside))
    (hchange : ∀ more, (change inside).kindAt? more =
      if more = [name] then v else inside.kindAt? more) (other : List String) :
    (changeAt change l names).kindAt? other =
      if other = names ++ [name] then v else l.kindAt? other := by
  induction names generalizing l other with
  | nil =>
    cases hat
    exact hchange other
  | cons n ns ih =>
    rw [at?] at hat
    cases hget : l.get? n with
    | none => rw [hget] at hat; cases hat
    | some e =>
      cases e with
      | file content =>
        rw [hget] at hat
        dsimp only at hat
        split_ifs at hat
        cases hat
      | folder within =>
        rw [hget] at hat
        have hchanged : changeAt change l (n :: ns) =
            l.put n (.folder (changeAt change within ns)) := by
          rw [changeAt, hget]
        rw [hchanged]
        cases other with
        | nil => simp [kindAt?_nil]
        | cons o os =>
          rw [kindAt?_cons, kindAt?_cons, get?_put]
          by_cases ho : n = o
          · subst ho
            rw [if_pos rfl, hget]
            dsimp only
            rw [ih hat]
            simp
          · have hne : o :: os ≠ n :: ns ++ [name] := fun h => ho (List.cons.inj h).1.symm
            rw [if_neg ho, if_neg hne]

/-- A name that stood for no folder stands for a file. -/
theorem kindAt?_put_file (content : ByteArray) (hat : l.at? names = some (.folder inside))
    (hfree : ∀ within, inside.get? name ≠ some (.folder within)) (other : List String) :
    (changeAt (·.put name (.file content)) l names).kindAt? other =
      if other = names ++ [name] then some (.file content) else l.kindAt? other := by
  refine kindAt?_changeAt hat (fun more => ?_) other
  refine kindAt?_of_get? (get?_put inside name (.file content)) (fun x xs => ?_) more
  rw [kindAt?_cons, kindAt?_cons, get?_put, if_pos rfl]
  cases hget : inside.get? name with
  | none => rfl
  | some e =>
    cases e with
    | file old => rfl
    | folder within => exact absurd hget (hfree within)

/-- A name that stood for nothing stands for an empty folder. -/
theorem kindAt?_put_folder (hat : l.at? names = some (.folder inside))
    (hfree : inside.get? name = none) (other : List String) :
    (changeAt (·.put name (.folder .nil)) l names).kindAt? other =
      if other = names ++ [name] then some .folder else l.kindAt? other := by
  refine kindAt?_changeAt hat (fun more => ?_) other
  refine kindAt?_of_get? (get?_put inside name (.folder .nil)) (fun x xs => ?_) more
  rw [kindAt?_cons, kindAt?_cons, get?_put, if_pos rfl, hfree]
  rfl

/-- A name that stood for a file stands for nothing. -/
theorem kindAt?_erase_file {content : ByteArray} (hat : l.at? names = some (.folder inside))
    (hfile : inside.get? name = some (.file content)) (other : List String) :
    (changeAt (·.erase name) l names).kindAt? other =
      if other = names ++ [name] then none else l.kindAt? other := by
  refine kindAt?_changeAt hat (fun more => ?_) other
  refine kindAt?_of_get? (get?_erase inside name) (fun x xs => ?_) more
  rw [kindAt?_cons, kindAt?_cons, get?_erase, if_pos rfl, hfile]
  rfl

theorem kindAt?_append (l : Listing) (names more : List String) :
    l.kindAt? (names ++ more) =
      match l.at? names with
      | some (.folder inside) => inside.kindAt? more
      | some (.file content) => if more = [] then some (.file content) else none
      | none => none := by
  unfold kindAt?
  rw [at?_append]
  cases l.at? names with
  | none => rfl
  | some e =>
    cases e with
    | folder inside => rfl
    | file content => cases more <;> rfl

theorem exists_folder_of_kindAt? (h : l.kindAt? names = some .folder) :
    ∃ inside, l.at? names = some (.folder inside) := by
  unfold kindAt? at h
  cases hat : l.at? names with
  | none => rw [hat] at h; cases h
  | some e =>
    cases e with
    | folder inside => exact ⟨inside, rfl⟩
    | file content => rw [hat] at h; cases h

/-- Above everything that is there is a folder. -/
theorem kindAt?_dropLast {k : Kind} (h : l.kindAt? names = some k) :
    l.kindAt? names.dropLast = some .folder := by
  rcases List.eq_nil_or_concat names with rfl | ⟨front, last, rfl⟩
  · rfl
  · rw [List.concat_eq_append] at h
    rw [List.concat_eq_append, List.dropLast_concat]
    rw [kindAt?_append] at h
    unfold kindAt?
    cases hat : l.at? front with
    | none => rw [hat] at h; cases h
    | some e =>
      cases e with
      | folder inside => rfl
      | file content => rw [hat] at h; cases h

end Listing

end SourceGraph
