import Lamellar.Lib.Word
import Mathlib.Algebra.Order.Ring.Int
import Mathlib.Algebra.Order.Group.Abs

/-!
# Integers of a fixed width

The values of a machine integer type, signed or not, of any width: the integers from `min` to
`max`. A cast wraps around (`cast`); a difference that is out of range panics in a build with
overflow checks and wraps around in one without (`sub`). The distance of two values is an
unsigned integer of the same width (`absDiff`); cast to a signed type it is the distance itself
up to `max` and that less the modulus from there on (`cast_absDiff`).
-/

namespace Lamellar

structure IntType where
  bits : ℕ
  signed : Bool
  bits_pos : 0 < bits

namespace IntType

variable {ty : IntType}

/-- The number of values -/
def modulus (ty : IntType) : ℤ := 2 ^ ty.bits

def min (ty : IntType) : ℤ := if ty.signed then -2 ^ (ty.bits - 1) else 0

def max (ty : IntType) : ℤ := ty.min + ty.modulus - 1

def InRange (ty : IntType) (n : ℤ) : Prop := ty.min ≤ n ∧ n ≤ ty.max

instance (n : ℤ) : Decidable (ty.InRange n) := inferInstanceAs (Decidable (_ ∧ _))

theorem modulus_pos : 0 < ty.modulus := Int.pow_pos (by decide)

theorem modulus_eq : ty.modulus = 2 * 2 ^ (ty.bits - 1) := by
  have hbits : ty.bits = ty.bits - 1 + 1 := (Nat.sub_add_cancel ty.bits_pos).symm
  rw [modulus, hbits, Int.pow_succ, Nat.add_sub_cancel, Int.mul_comm]

theorem min_nonpos : ty.min ≤ 0 := by
  have hpow : (0 : ℤ) < 2 ^ (ty.bits - 1) := Int.pow_pos (by decide)
  unfold min
  split <;> omega

theorem max_nonneg : 0 ≤ ty.max := by
  have hpow : (0 : ℤ) < 2 ^ (ty.bits - 1) := Int.pow_pos (by decide)
  have hmod := ty.modulus_eq
  unfold max min
  split <;> omega

/-- The negative values are as many as the others, or there are none. -/
theorem min_cases : ty.min = 0 ∨ ty.min = -(ty.max + 1) := by
  have hmod := ty.modulus_eq
  unfold max min
  split
  · right
    omega
  · exact .inl rfl

/-! ## Values -/

structure Value (ty : IntType) where
  val : ℤ
  inRange : ty.InRange val
  deriving DecidableEq

theorem Value.ext {a b : ty.Value} (h : a.val = b.val) : a = b := by
  cases a
  cases b
  cases h
  rfl

theorem Value.eq_iff {a b : ty.Value} : a = b ↔ a.val = b.val := ⟨fun h => h ▸ rfl, Value.ext⟩

theorem Value.le_max (a : ty.Value) : a.val ≤ ty.max := a.inRange.2

/-- `n as T` -/
def cast (ty : IntType) (n : ℤ) : ty.Value where
  val := ty.min + (n - ty.min) % ty.modulus
  inRange := by
    have hnonneg := Int.emod_nonneg (n - ty.min) (Int.ne_of_gt ty.modulus_pos)
    have hlt := Int.emod_lt_of_pos (n - ty.min) ty.modulus_pos
    unfold InRange max
    omega

theorem cast_of_inRange {n : ℤ} (h : ty.InRange n) : (ty.cast n).val = n := by
  obtain ⟨hmin, hmax⟩ := h
  unfold max at hmax
  have hmod : (n - ty.min) % ty.modulus = n - ty.min := Int.emod_eq_of_lt (by omega) (by omega)
  simp only [cast, hmod]
  omega

/-- Casts do not tell integers a modulus apart from each other. -/
theorem cast_sub_modulus (n : ℤ) : ty.cast (n - ty.modulus) = ty.cast n := by
  have hcomm : n - ty.modulus - ty.min = n - ty.min - ty.modulus := by omega
  apply Value.ext
  simp only [cast, hcomm, Int.sub_emod_right]

/-- `a - b`, or none where it panics. -/
def sub (build : Build) (a b : ty.Value) : Option ty.Value :=
  if h : ty.InRange (a.val - b.val) then some ⟨a.val - b.val, h⟩
  else
    match build with
    | .checked => none
    | .wrapping => some (ty.cast (a.val - b.val))

theorem sub_of_inRange (build : Build) {a b : ty.Value} (h : ty.InRange (a.val - b.val)) :
    sub build a b = some ⟨a.val - b.val, h⟩ := dif_pos h

theorem checked_sub_of_not {a b : ty.Value} (h : ¬ ty.InRange (a.val - b.val)) :
    sub .checked a b = none := dif_neg h

/-! ## The distance -/

/-- `a.abs_diff(b)` -/
def absDiff (a b : ty.Value) : ℤ := |a.val - b.val|

theorem absDiff_comm (a b : ty.Value) : absDiff a b = absDiff b a := abs_sub_comm a.val b.val

theorem absDiff_self (a : ty.Value) : absDiff a a = 0 := by
  rw [absDiff, Int.sub_self, abs_zero]

theorem absDiff_nonneg (a b : ty.Value) : 0 ≤ absDiff a b := abs_nonneg _

theorem absDiff_of_le {a b : ty.Value} (h : b.val ≤ a.val) : absDiff a b = a.val - b.val :=
  abs_of_nonneg (by omega)

/-- It is a value of the unsigned type of the same width. -/
theorem absDiff_lt (a b : ty.Value) : absDiff a b < ty.modulus := by
  have ha := a.inRange
  have hb := b.inRange
  unfold InRange max at ha hb
  rcases Int.le_total b.val a.val with h | h
  · rw [absDiff_of_le h]
    omega
  · rw [absDiff_comm, absDiff_of_le h]
    omega

theorem inRange_of_nonneg {n : ℤ} (h : 0 ≤ n) : ty.InRange n ↔ n ≤ ty.max :=
  and_iff_right (Int.le_trans ty.min_nonpos h)

theorem cast_absDiff_of_le {a b : ty.Value} (h : absDiff a b ≤ ty.max) :
    (ty.cast (absDiff a b)).val = absDiff a b :=
  cast_of_inRange ((inRange_of_nonneg (absDiff_nonneg a b)).mpr h)

/-- A distance above `max` is below zero when it is cast. -/
theorem cast_absDiff_of_lt {a b : ty.Value} (h : ty.max < absDiff a b) :
    (ty.cast (absDiff a b)).val = absDiff a b - ty.modulus := by
  rw [← cast_sub_modulus]
  apply cast_of_inRange
  have hlt := absDiff_lt a b
  have hmin := ty.min_cases
  unfold InRange max at *
  omega

end IntType

end Lamellar
