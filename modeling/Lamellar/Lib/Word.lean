import Mathlib.Algebra.Ring.Nat

/-!
# Words

A `usize` is a natural number below `word`. A subtraction that goes below zero panics in a build
with overflow checks and wraps around in one without (`Build.sub`), and so does a sum or a product
that reaches `word` (`Build.result`); the atomic operations always wrap around.
-/

namespace Lamellar

def word : ℕ := 2 ^ 64

inductive Build where
  /-- With overflow checks -/
  | checked
  | wrapping
deriving DecidableEq

namespace Build

/-- `a - b`, or none where it panics. -/
def sub (build : Build) (a b : ℕ) : Option ℕ :=
  if b ≤ a then some (a - b)
  else
    match build with
    | checked => none
    | wrapping => some (word + a - b)

theorem sub_of_le (build : Build) {a b : ℕ} (h : b ≤ a) : build.sub a b = some (a - b) := if_pos h

theorem wrapping_sub_of_lt {a b : ℕ} (h : a < b) : wrapping.sub a b = some (word + a - b) :=
  if_neg (Nat.not_le.mpr h)

theorem exists_wrapping_sub (a b : ℕ) : ∃ c, wrapping.sub a b = some c := by
  unfold sub
  split
  · exact ⟨_, rfl⟩
  · exact ⟨_, rfl⟩

theorem sub_eq_none_iff {build : Build} {a b : ℕ} :
    build.sub a b = none ↔ build = .checked ∧ a < b := by
  unfold sub
  split
  · simpa using fun _ => ‹b ≤ a›
  · cases build <;> simp
    omega

/-- The `usize` for a sum or a product `n`, or none where it panics. -/
def result (build : Build) (n : ℕ) : Option ℕ :=
  if n < word then some n
  else
    match build with
    | checked => none
    | wrapping => some (n % word)

theorem result_of_lt (build : Build) {n : ℕ} (h : n < word) : build.result n = some n := if_pos h

theorem result_lt {build : Build} {n m : ℕ} (h : build.result n = some m) : m < word := by
  unfold result at h
  split at h
  · cases h
    assumption
  · cases build with
    | checked => cases h
    | wrapping =>
      cases h
      exact Nat.mod_lt _ (by decide)

theorem checked_result_eq_some_iff {n m : ℕ} : checked.result n = some m ↔ n < word ∧ m = n := by
  unfold result
  split <;> simp [*, eq_comm]

/-- A result that has not wrapped around -/
theorem result_eq {build : Build} {n m : ℕ} (h : build.result n = some m)
    (hfits : build = .checked ∨ n < word) : m = n ∧ n < word := by
  unfold result at h
  split at h
  · cases h
    exact ⟨rfl, ‹_›⟩
  · rcases hfits with rfl | hlt
    · cases h
    · exact absurd hlt ‹_›

theorem wrapping_result (n : ℕ) : wrapping.result n = some (n % word) := by
  unfold result
  split
  · rw [Nat.mod_eq_of_lt ‹_›]
  · rfl

theorem result_mod {build : Build} {n m : ℕ} (h : build.result n = some m) : m = n % word := by
  cases build with
  | checked =>
    obtain ⟨hlt, rfl⟩ := checked_result_eq_some_iff.mp h
    exact (Nat.mod_eq_of_lt hlt).symm
  | wrapping =>
    rw [wrapping_result] at h
    cases h
    rfl

theorem result_of_fits {build : Build} {n : ℕ} (h : build = .checked → n < word) :
    build.result n = some (n % word) := by
  cases build with
  | checked => rw [result_of_lt _ (h rfl), Nat.mod_eq_of_lt (h rfl)]
  | wrapping => exact wrapping_result n

theorem wrapping_sub_one {n : ℕ} (h : 0 < n) :
    wrapping.sub (n % word) 1 = some ((n - 1) % word) := by
  unfold sub word
  split
  · exact congrArg some (by omega)
  · exact congrArg some (by omega)

/-- What does not panic does not for less. -/
theorem exists_result_of_le {build : Build} {n m k : ℕ} (h : build.result n = some k)
    (hle : m ≤ n) : ∃ j, build.result m = some j := by
  cases build with
  | checked =>
    have hlt := (checked_result_eq_some_iff.mp h).1
    exact ⟨m, checked.result_of_lt (Nat.lt_of_le_of_lt hle hlt)⟩
  | wrapping => exact ⟨_, wrapping_result m⟩

end Build

/-- `fetch_add` -/
def wrappingAdd (a b : ℕ) : ℕ := (a + b) % word

/-- `fetch_sub` -/
def wrappingSub (a b : ℕ) : ℕ := (word + a - b % word) % word

theorem wrappingAdd_of_lt {a b : ℕ} (h : a + b < word) : wrappingAdd a b = a + b :=
  Nat.mod_eq_of_lt h

theorem wrappingSub_of_le {a b : ℕ} (h : b ≤ a) (ha : a < word) : wrappingSub a b = a - b := by
  unfold wrappingSub
  rw [Nat.mod_eq_of_lt (Nat.lt_of_le_of_lt h ha), Nat.add_sub_assoc h, Nat.add_mod_left,
    Nat.mod_eq_of_lt (by omega)]

end Lamellar
