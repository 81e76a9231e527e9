import Mathlib.Algebra.BigOperators.Group.Finset.Basic
import Mathlib.Algebra.Order.BigOperators.Group.Finset

/-!
# Sums in which one entry changes

A step of one of `n` parties changes that party's entry of a sum, or what it counts for, and leaves
the others alone.
-/

namespace Lamellar.Tally

open Finset

variable {M : Type} [AddCommMonoid M] {n w : ℕ}

/-- Two sums that differ in one entry. -/
theorem sum_change (hw : w < n) (f f' : ℕ → M) (h : ∀ v, v ≠ w → f' v = f v) :
    ∃ others, ∑ v ∈ range n, f v = f w + others ∧ ∑ v ∈ range n, f' v = f' w + others := by
  refine ⟨∑ v ∈ (range n).erase w, f v, (add_sum_erase _ _ (mem_range.mpr hw)).symm, ?_⟩
  rw [← add_sum_erase _ _ (mem_range.mpr hw)]
  congr 1
  exact sum_congr rfl fun v hv => h v (mem_erase.mp hv).1

/-- A sum with an entry that goes down by more than `b` goes up -/
theorem sum_add_lt {f f' : ℕ → ℕ} {b b' : ℕ} (hw : w < n) (h : ∀ v, v ≠ w → f' v = f v)
    (hlt : f' w + b' < f w + b) :
    ∑ v ∈ range n, f' v + b' < ∑ v ∈ range n, f v + b := by
  obtain ⟨others, hbefore, hafter⟩ := sum_change hw f f' h
  omega

/-- One entry is counted that was not. -/
theorem countP_gain {α : Type} [DecidableEq α] {l : List α} {a : α} {p q : α → Bool}
    (hl : l.Nodup) (ha : a ∈ l) (hne : ∀ b ∈ l, b ≠ a → q b = p b) (hp : p a = false)
    (hq : q a = true) : l.countP q = l.countP p + 1 := by
  have hperm := List.perm_cons_erase ha
  have hothers : (l.erase a).countP q = (l.erase a).countP p :=
    List.countP_congr fun b hb => by
      obtain ⟨hba, hbl⟩ := hl.mem_erase_iff.mp hb
      rw [hne b hbl hba]
  rw [hperm.countP_eq, hperm.countP_eq, List.countP_cons_of_pos hq,
    List.countP_cons_of_neg (by rw [hp]; exact Bool.false_ne_true), hothers]

/-- The entries of a list, summed by their positions. -/
theorem sum_range_eq_flatMap {α β : Type} (l : List α) {f : α → List β} {g : ℕ → List β}
    (h : ∀ k a, l[k]? = some a → g k = f a) :
    ∑ k ∈ range l.length, (g k : Multiset β) = (l.flatMap f : Multiset β) := by
  induction l generalizing g with
  | nil => rfl
  | cons a l ih =>
    rw [List.length_cons, sum_range_succ', List.flatMap_cons, h 0 a rfl,
      ih fun k b hb => h (k + 1) b hb, ← Multiset.coe_add, add_comm]

end Lamellar.Tally
