/-!
# Size of decimal numbers

Decimal numbers as a whole number times a power of ten, compared with the largest double.

* `Decimal.isHuge`: whether the nearest double is infinite.
-/

set_option autoImplicit false

namespace SourceGraph.Decimal

/-- Whether `m` times ten to the `e` is too large for a double. -/
def isHuge (m : Nat) (e : Int) : Bool :=
  let size : Int := (toString m).length + e
  if m = 0 ∨ size < 300 then false
  else if 320 < size then true
  else
    let bound := (1 <<< 1024) - (1 <<< 970)
    if 0 ≤ e then bound ≤ m * Nat.pow 10 e.toNat else bound * Nat.pow 10 (-e).toNat ≤ m

end SourceGraph.Decimal
