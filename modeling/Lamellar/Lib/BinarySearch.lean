import Mathlib.Data.List.GetD
import Mathlib.Data.List.Pairwise
import Mathlib.Algebra.Ring.Nat

/-!
# Binary search

`binarySearch` halves the elements that are left until one is, and looks at it. In a strictly
increasing list it finds the position of an element, and nothing else (`eq_some_iff`).
-/

namespace Lamellar.BinarySearch

variable {xs : List ℕ} {x i : ℕ}

/-- The search in the `size` elements from `base` on. -/
def bisect (xs : List ℕ) (x : ℕ) : ℕ → ℕ → ℕ → ℕ
  | 0, base, _ => base
  | fuel + 1, base, size =>
    if size > 1 then
      let half := size / 2
      let mid := base + half
      bisect xs x fuel (if xs.getD mid 0 > x then base else mid) (size - half)
    else base

def binarySearch (xs : List ℕ) (x : ℕ) : Option ℕ :=
  let base := bisect xs x xs.length 0 xs.length
  if xs[base]? = some x then some base else none

theorem getD_lt_getD (hs : xs.Pairwise (· < ·)) {j k : ℕ} (hjk : j < k) (hk : k < xs.length) :
    xs.getD j 0 < xs.getD k 0 := by
  rw [List.getD_eq_getElem _ _ hk, List.getD_eq_getElem _ _ (Nat.lt_trans hjk hk)]
  exact List.pairwise_iff_getElem.mp hs j k _ hk hjk

theorem bisect_eq (hs : xs.Pairwise (· < ·)) {fuel base size : ℕ} (hlo : base ≤ i)
    (hhi : i < base + size) (hlen : base + size ≤ xs.length) (hfuel : size ≤ fuel + 1) :
    bisect xs (xs.getD i 0) fuel base size = i := by
  induction fuel generalizing base size with
  | zero =>
    rw [bisect]
    omega
  | succ fuel ih =>
    rw [bisect]
    split
    · rename_i hsize
      have hhalf : 0 < size / 2 ∧ size / 2 ≤ size - size / 2 := by omega
      dsimp only
      split
      · rename_i hgt
        have hlt : i < base + size / 2 := by
          refine Nat.lt_of_not_le fun hle => ?_
          rcases Nat.eq_or_lt_of_le hle with heq | hlt
          · rw [heq] at hgt
            exact Nat.lt_irrefl _ hgt
          · exact Nat.lt_asymm hgt (getD_lt_getD hs hlt (by omega))
        exact ih hlo (by omega) (by omega) (by omega)
      · rename_i hle
        have hge : base + size / 2 ≤ i := by
          refine Nat.le_of_not_lt fun hlt => hle ?_
          exact getD_lt_getD hs hlt (by omega)
        exact ih hge (by omega) (by omega) (by omega)
    · omega

theorem eq_some_iff (hs : xs.Pairwise (· < ·)) : binarySearch xs x = some i ↔ xs[i]? = some x := by
  rw [binarySearch]
  constructor
  · intro h
    split at h
    · rename_i hfound
      rwa [← Option.some.inj h]
    · cases h
  · intro h
    obtain ⟨hi, rfl⟩ := List.getElem?_eq_some_iff.mp h
    have hbase : bisect xs xs[i] xs.length 0 xs.length = i := by
      rw [← List.getD_eq_getElem xs 0 hi]
      exact bisect_eq hs (Nat.zero_le i) (by omega) (by omega) (Nat.le_succ _)
    rw [hbase, if_pos h]

theorem eq_none_iff (hs : xs.Pairwise (· < ·)) : binarySearch xs x = none ↔ x ∉ xs := by
  rw [Option.eq_none_iff_forall_ne_some, List.mem_iff_getElem?]
  simp only [ne_eq, eq_some_iff hs, not_exists]

end Lamellar.BinarySearch
