/-!
# Percentages

A share in percent with one decimal. The share is first taken as a binary number of 53 digits, then
its hundredfold as such a number, and that is rounded to tenths; a tie goes to the even neighbour
each time.

* `nearest`: the whole number nearest to a quotient.
* `binaryShare`: a share with 53 binary digits.
* `percentText`: the percentage of a share in words.
-/

set_option autoImplicit false

namespace SourceGraph.Percent

/-- The whole number nearest to `n / d`; a tie goes to the even one. -/
def nearest (n d : Nat) : Nat :=
  let q := n / d
  let twice := 2 * (n % d)
  if d < twice ∨ (twice = d ∧ q % 2 = 1) then q + 1 else q

/-- The number of binary places after which `n / d` has 53 digits, for `0 < n ≤ d`. -/
def places (n d : Nat) : Nat :=
  let k := 52 + (d.log2 - n.log2)
  if (n <<< k) / d < 1 <<< 52 then k + 1 else k

/-- The number nearest to `n / d` with 53 binary digits: `m` and `k` for `m / 2 ^ k`. -/
def binaryShare (n d : Nat) : Nat × Nat := (nearest (n <<< places n d) d, places n d)

/-- The nearest number with 53 binary digits. -/
def shortened (n : Nat) : Nat :=
  let extra := 1 <<< (n.log2 - 52)
  nearest n extra * extra

/-- The tenths of a percent that `part` is of `whole`, for `part ≤ whole`. -/
def tenths (part whole : Nat) : Nat :=
  if part = 0 then 0
  else
    let (m, k) := binaryShare part whole
    nearest (shortened (m * 100) * 10) (1 <<< k)

/-- The percentage that `part` is of `whole`, with one decimal. -/
def percentText (part whole : Nat) : String :=
  toString (tenths part whole / 10) ++ "." ++ toString (tenths part whole % 10)

end SourceGraph.Percent
