import Mathlib.Algebra.Order.Floor.Semifield
import Mathlib.Data.Rat.Floor
import Mathlib.Tactic.FieldSimp
import Mathlib.Tactic.Linarith
import Mathlib.Tactic.Positivity

/-!
# Cutting an interval at rounded multiples of a ratio

`[0, N)` is cut into `P` consecutive segments at the points `cut N P k`, the multiple
`k * N / P` rounded to the nearest natural number, a half rounded up. For `P ≤ N` the
ratio is at least one, so the cuts are strictly increasing (`cut_lt_succ`), every segment
is non-empty and no longer than `⌈N / P⌉` (`cut_succ_le`), and every point of `[0, N)` lies
in exactly one segment (`cut_unique`). The segment of a point is found from the
unrounded ratio, up to one correction at the upper end (`cut_search`).
-/

namespace Lamellar.Segments

/-- The rounded multiple `round (k * N / P)`, computed in the naturals. -/
def cut (N P k : ℕ) : ℕ := (2 * k * N + P) / (2 * P)

theorem floor_add_half_eq_cut (N P k : ℕ) (hP : 0 < P) :
    ⌊(N : ℚ) / P * k + 1 / 2⌋₊ = cut N P k := by
  have hP' : (0 : ℚ) < P := by exact_mod_cast hP
  unfold cut
  rw [← Nat.floor_div_eq_div (K := ℚ)]
  congr 1
  push_cast
  field_simp

theorem floor_div_ratio (N P g : ℕ) : ⌊(g : ℚ) / ((N : ℚ) / P)⌋₊ = g * P / N := by
  rw [← Nat.floor_div_eq_div (K := ℚ), div_div_eq_mul_div]
  push_cast
  rfl

theorem ceil_ratio (N P : ℕ) (hP : 0 < P) : ⌈(N : ℚ) / P⌉₊ = (N + P - 1) / P := by
  have hP' : (0 : ℚ) < P := by exact_mod_cast hP
  have hmod := Nat.div_add_mod (N + P - 1) P
  have hlt := Nat.mod_lt (N + P - 1) hP
  apply le_antisymm
  · rw [Nat.ceil_le, div_le_iff₀ hP']
    have : N ≤ (N + P - 1) / P * P := by
      rw [Nat.mul_comm]
      omega
    exact_mod_cast this
  · rw [← Nat.lt_add_one_iff, Nat.div_lt_iff_lt_mul hP]
    have h : (N : ℚ) ≤ ⌈(N : ℚ) / P⌉₊ * P := by
      rw [← div_le_iff₀ hP']
      exact Nat.le_ceil _
    have h' : N ≤ ⌈(N : ℚ) / P⌉₊ * P := by exact_mod_cast h
    rw [Nat.add_mul]
    omega

/-! ## The cuts are strictly increasing -/

theorem cut_last {N P : ℕ} (hP : 0 < P) : cut N P P = N := by
  unfold cut
  rw [show 2 * P * N + P = P + 2 * P * N by ring, Nat.add_mul_div_left _ _ (by omega),
    Nat.div_eq_of_lt (by omega), Nat.zero_add]

/-- Rounding moves a multiple by at most one half. -/
theorem cut_bounds {N P : ℕ} (hP : 0 < P) (k : ℕ) :
    2 * P * cut N P k ≤ 2 * k * N + P ∧ 2 * k * N < 2 * P * cut N P k + P := by
  have hmod := Nat.div_add_mod (2 * k * N + P) (2 * P)
  have hlt := Nat.mod_lt (2 * k * N + P) (show 0 < 2 * P by omega)
  unfold cut
  omega

theorem cut_lt_succ {N P : ℕ} (hP : 0 < P) (hN : P ≤ N) (k : ℕ) :
    cut N P k < cut N P (k + 1) := by
  have h1 := (cut_bounds (N := N) hP k).1
  have h2 := (cut_bounds (N := N) hP (k + 1)).2
  by_contra hle
  have hmul : 2 * P * cut N P (k + 1) ≤ 2 * P * cut N P k :=
    Nat.mul_le_mul_left _ (Nat.le_of_not_lt hle)
  have hexp : 2 * (k + 1) * N = 2 * k * N + 2 * N := by ring
  omega

theorem cut_strictMono {N P : ℕ} (hP : 0 < P) (hN : P ≤ N) : StrictMono (cut N P) :=
  strictMono_nat_of_lt_succ (cut_lt_succ hP hN)

/-- A segment is no longer than the ratio rounded up. -/
theorem cut_succ_le {N P : ℕ} (hP : 0 < P) (k : ℕ) :
    cut N P (k + 1) ≤ cut N P k + (N + P - 1) / P := by
  have h1 := (cut_bounds (N := N) hP (k + 1)).1
  have h2 := (cut_bounds (N := N) hP k).2
  have hceil : N ≤ P * ((N + P - 1) / P) := by
    have hmod := Nat.div_add_mod (N + P - 1) P
    have hlt := Nat.mod_lt (N + P - 1) hP
    omega
  by_contra hgt
  have hmul : 2 * P * (cut N P k + (N + P - 1) / P + 1) ≤ 2 * P * cut N P (k + 1) :=
    Nat.mul_le_mul_left _ (by omega)
  have hexp : 2 * P * (cut N P k + (N + P - 1) / P + 1) =
      2 * P * cut N P k + 2 * (P * ((N + P - 1) / P)) + 2 * P := by ring
  have hexp' : 2 * (k + 1) * N = 2 * k * N + 2 * N := by ring
  omega

/-- With a ratio of one the points are the natural numbers. -/
theorem cut_self {P : ℕ} (hP : 0 < P) (k : ℕ) : cut P P k = k := by
  have hexp : 2 * k * P + P = P + 2 * P * k := by ring
  rw [cut, hexp, Nat.add_mul_div_left _ _ (by omega), Nat.div_eq_of_lt (by omega), Nat.zero_add]

/-! ## The segment of a point -/

theorem cut_unique {N P : ℕ} (hP : 0 < P) (hN : P ≤ N) {g j k : ℕ}
    (hj : cut N P j ≤ g) (hj' : g < cut N P (j + 1))
    (hk : cut N P k ≤ g) (hk' : g < cut N P (k + 1)) : j = k := by
  have hmono := cut_strictMono hP hN
  have h1 : j < k + 1 := hmono.lt_iff_lt.mp (by omega)
  have h2 : k < j + 1 := hmono.lt_iff_lt.mp (by omega)
  omega

theorem lt_count_of_cut_le {N P g k : ℕ} (hP : 0 < P) (hN : P ≤ N) (hg : g < N)
    (hk : cut N P k ≤ g) : k < P := by
  have hmono := cut_strictMono hP hN
  apply hmono.lt_iff_lt.mp
  rw [cut_last hP]
  omega

/-- The unrounded ratio finds the segment of `g`, or the one before it: the guess
`g * P / N` never starts after `g`, and the segment after the guess ends after `g`. -/
theorem cut_search {N P : ℕ} (hP : 0 < P) (hN : P ≤ N) (g : ℕ) :
    cut N P (g * P / N) ≤ g ∧ g < cut N P (g * P / N + 2) := by
  have hmod := Nat.div_add_mod (g * P) N
  have hlt := Nat.mod_lt (g * P) (show 0 < N by omega)
  have h1 := (cut_bounds (N := N) hP (g * P / N)).1
  have h2 := (cut_bounds (N := N) hP (g * P / N + 2)).2
  have hexp : 2 * (g * P / N) * N = 2 * (N * (g * P / N)) := by ring
  have hexp' : 2 * (g * P / N + 2) * N = 2 * (N * (g * P / N)) + 4 * N := by ring
  constructor
  · by_contra hgt
    have hmul : 2 * P * (g + 1) ≤ 2 * P * cut N P (g * P / N) :=
      Nat.mul_le_mul_left _ (by omega)
    have hexp'' : 2 * P * (g + 1) = 2 * (g * P) + 2 * P := by ring
    omega
  · by_contra hle
    have hmul : 2 * P * cut N P (g * P / N + 2) ≤ 2 * P * g :=
      Nat.mul_le_mul_left _ (by omega)
    have hexp'' : 2 * P * g = 2 * (g * P) := by ring
    omega

/-- The segment of the point `g`. -/
def segOf (N P g : ℕ) : ℕ :=
  if cut N P (g * P / N + 1) ≤ g then g * P / N + 1 else g * P / N

theorem segOf_spec {N P : ℕ} (hP : 0 < P) (hN : P ≤ N) (g : ℕ) :
    cut N P (segOf N P g) ≤ g ∧ g < cut N P (segOf N P g + 1) := by
  obtain ⟨hlow, hhigh⟩ := cut_search hP hN g
  unfold segOf
  split
  · rename_i h
    exact ⟨h, hhigh⟩
  · rename_i h
    exact ⟨hlow, by omega⟩

theorem segOf_eq {N P : ℕ} (hP : 0 < P) (hN : P ≤ N) {g k : ℕ} (hk : cut N P k ≤ g)
    (hk' : g < cut N P (k + 1)) : segOf N P g = k := by
  obtain ⟨h, h'⟩ := segOf_spec hP hN g
  exact cut_unique hP hN h h' hk hk'

theorem segOf_self {P : ℕ} (hP : 0 < P) (g : ℕ) : segOf P P g = g :=
  segOf_eq hP (Nat.le_refl P) (Nat.le_of_eq (cut_self hP g)) (by
    rw [cut_self hP]
    exact Nat.lt_succ_self g)

theorem segOf_lt {N P : ℕ} (hP : 0 < P) (hN : P ≤ N) {g : ℕ} (hg : g < N) :
    segOf N P g < P :=
  lt_count_of_cut_le hP hN hg (segOf_spec hP hN g).1

theorem segOf_mono {N P : ℕ} (hP : 0 < P) (hN : P ≤ N) : Monotone (segOf N P) := by
  intro g g' hg
  have hmono := cut_strictMono hP hN
  obtain ⟨h, _⟩ := segOf_spec hP hN g
  obtain ⟨_, h'⟩ := segOf_spec hP hN g'
  have hlt : segOf N P g < segOf N P g' + 1 := hmono.lt_iff_lt.mp (by omega)
  omega

end Lamellar.Segments
