import Mathlib.Algebra.Order.Ring.Nat
import Mathlib.Data.Nat.ModEq

/-!
# Windows on a ring

`P` places on a ring. The place `x` is `d` behind `q` when `x + d` is `q` modulo `P`.
`Window A q o D` says that `A` holds of the `D` places that are `o`, `o + 1`, … behind `q`.
Windows next to each other join, and a window of at least `P` places is the whole ring: this
is how something known at a distance spreads when it is passed on in growing strides.
-/

namespace Lamellar.Ring

variable {P : ℕ} {A : Fin P → Prop} {p q : Fin P} {o D : ℕ}

/-- `A` holds of the `D` places that are `o`, `o + 1`, … behind `q`. -/
def Window (A : Fin P → Prop) (q : Fin P) (o D : ℕ) : Prop :=
  ∀ (x : Fin P) (d : ℕ), d < D → (x.val + o + d) % P = q.val → A x

theorem Window.mono {A' : Fin P → Prop} (h : Window A q o D) (himp : ∀ x, A x → A' x) :
    Window A' q o D :=
  fun x d hd hx => himp x (h x d hd hx)

theorem Window.single (h : A q) : Window A q 0 1 := by
  intro x d hd hx
  have hxq : x = q := by
    apply Fin.ext
    rw [← hx, show x.val + 0 + d = x.val by omega, Nat.mod_eq_of_lt x.isLt]
  rw [hxq]
  exact h

/-- What holds behind `p` holds further behind a place that is further on. -/
theorem Window.shift (h : Window A p 0 D) (hq : (p.val + o) % P = q.val) : Window A q o D := by
  intro x d hd hx
  refine h x d hd ?_
  have hmod : x.val + d + o ≡ p.val + o [MOD P] := by
    rw [Nat.ModEq, hq, ← hx]
    congr 1
    omega
  have hcancel : (x.val + d) % P = p.val % P := Nat.ModEq.add_right_cancel' o hmod
  rw [Nat.add_zero, hcancel, Nat.mod_eq_of_lt p.isLt]

/-- Neighbouring windows of the same size. -/
theorem Window.join {n B : ℕ} (h : ∀ j, j ≤ n → Window A q (j * B) B) :
    Window A q 0 ((n + 1) * B) := by
  intro x d hd hx
  have hB : 0 < B := by
    rcases Nat.eq_zero_or_pos B with hB | hB
    · simp [hB] at hd
    · exact hB
  have hj : d / B ≤ n := Nat.lt_succ_iff.mp ((Nat.div_lt_iff_lt_mul hB).mpr hd)
  refine h (d / B) hj x (d % B) (Nat.mod_lt d hB) ?_
  rw [← hx]
  congr 1
  have hsplit := Nat.div_add_mod' d B
  omega

theorem Window.all (h : Window A q 0 D) (hD : P ≤ D) (x : Fin P) : A x := by
  have hP : 0 < P := q.pos
  refine h x ((q.val + P - x.val) % P) ((Nat.mod_lt _ hP).trans_le hD) ?_
  rw [Nat.add_zero, Nat.add_mod_mod]
  have hsum : x.val + (q.val + P - x.val) = q.val + P := by
    have := x.isLt
    omega
  rw [hsum, Nat.add_mod_right, Nat.mod_eq_of_lt q.isLt]

end Lamellar.Ring
