import Lamellar.Barrier.Safety
import Mathlib.Analysis.SpecialFunctions.Log.Base

/-!
# The rounds of a barrier: `Barrier::new` of `src/barrier.rs`

The dissemination factor `n` and the number of rounds that a barrier of `P` PEs is made with, the
logarithms of the source read as reals. After `R` rounds a PE has heard from `(n + 1) ^ R` PEs,
itself included.

With a factor from 2 on the quotient of the logarithms is rounded up: `n ^ R` reaches `P` already
(`le_pow_of_two_le`). With the factor 1 the logarithm is cut off: `2 ^ R` reaches `P` for the
powers of two only (`new_reaches_iff`).
-/

namespace Lamellar.Barrier

/-- What `Barrier::new` works out of the number of PEs. -/
structure Rounds where
  n : ℕ
  numRounds : ℕ

/-- The factor: `LAMELLAR_BARRIER_DISSEMNATION_FACTOR` where it is set, `DISSEMINATION_FACTOR`
else -/
def disseminationFactor (var : Option ℕ) : ℕ := var.getD 2

/-- `factor` is the `n` that the source reads, `P` its `num_pes`. -/
noncomputable def Rounds.new (factor P : ℕ) : Rounds :=
  if 1 < factor ∧ 2 < P then
    { n := factor, numRounds := ⌈Real.logb 2 P / Real.logb 2 factor⌉₊ }
  else { n := 1, numRounds := ⌊Real.logb 2 P⌋₊ }

/-- The rounds are enough for every PE to hear from every other. -/
structure Rounds.Reaches (r : Rounds) (P : ℕ) : Prop where
  le_pow : P ≤ (r.n + 1) ^ r.numRounds
  one_le : 1 ≤ r.numRounds

namespace Rounds

variable {factor P : ℕ}

/-! ## The logarithms -/

theorem ceil_logb_div : ⌈Real.logb 2 P / Real.logb 2 factor⌉₊ = Nat.clog factor P := by
  have htwo : Real.log 2 ≠ 0 := Real.log_ne_zero_of_pos_of_ne_one (by norm_num) (by norm_num)
  rw [Real.logb, Real.logb, div_div_div_cancel_right₀ htwo, Real.log_div_log,
    Real.natCeil_logb_natCast]

theorem floor_logb : ⌊Real.logb 2 P⌋₊ = Nat.log 2 P := by
  exact_mod_cast Real.natFloor_logb_natCast 2 P

theorem new_of_two_lt (hfactor : 1 < factor) (hP : 2 < P) :
    new factor P = { n := factor, numRounds := Nat.clog factor P } := by
  rw [new, if_pos ⟨hfactor, hP⟩, ceil_logb_div]

theorem new_of_not (h : ¬ (1 < factor ∧ 2 < P)) :
    new factor P = { n := 1, numRounds := Nat.log 2 P } := by
  rw [new, if_neg h, floor_logb]

/-! ## How far the rounds reach -/

/-- Rounding up is enough, even without the PE itself. -/
theorem le_pow_of_two_le (hfactor : 1 < factor) (hP : 2 < P) :
    P ≤ (new factor P).n ^ (new factor P).numRounds := by
  rw [new_of_two_lt hfactor hP]
  exact Nat.le_pow_clog hfactor P

theorem new_reaches_of_two_lt (hfactor : 1 < factor) (hP : 2 < P) :
    (new factor P).Reaches P where
  le_pow := by
    calc P ≤ (new factor P).n ^ (new factor P).numRounds := le_pow_of_two_le hfactor hP
      _ ≤ ((new factor P).n + 1) ^ (new factor P).numRounds :=
        Nat.pow_le_pow_left (Nat.le_succ _) _
  one_le := by
    rw [new_of_two_lt hfactor hP]
    exact Nat.clog_pos hfactor (by omega)

/-- A logarithm that is cut off is enough for a power of two. -/
theorem le_pow_log_iff (hP : 2 ≤ P) : P ≤ 2 ^ Nat.log 2 P ↔ ∃ k, P = 2 ^ k := by
  constructor
  · intro h
    exact ⟨Nat.log 2 P, Nat.le_antisymm h (Nat.pow_log_le_self 2 (by omega))⟩
  · rintro ⟨k, rfl⟩
    rw [Nat.log_pow Nat.one_lt_two]

theorem new_reaches_iff_of_not (h : ¬ (1 < factor ∧ 2 < P)) (hP : 2 ≤ P) :
    (new factor P).Reaches P ↔ ∃ k, P = 2 ^ k := by
  rw [← le_pow_log_iff hP, new_of_not h]
  constructor
  · intro hreaches
    exact hreaches.le_pow
  · intro hle
    exact ⟨hle, Nat.log_pos Nat.one_lt_two hP⟩

/-- A barrier whose rounds reach all PEs returns to nobody before all have entered. -/
theorem Reaches.all_entered {r : Rounds} (h : r.Reaches P) {s : State P}
    (hs : Reachable r.n r.numRounds s) {p : Fin P} {k : ℕ}
    (hret : s.calls p k = some .returned) (q : Fin P) : s.calls q k ≠ none := by
  have hknows := hs.inv.calls p k _ hret
  exact hs.inv.made q k (hs.inv.ids p k _ hret) (hknows.all h.le_pow q)

/-- The default factor is enough for any number of PEs. -/
theorem new_reaches_default (hP : 2 ≤ P) : (new (disseminationFactor none) P).Reaches P := by
  rcases Nat.eq_or_lt_of_le hP with rfl | hlt
  · exact (new_reaches_iff_of_not (by decide) (by decide)).mpr ⟨1, rfl⟩
  · exact new_reaches_of_two_lt (by decide) hlt

theorem new_reaches_iff (hP : 2 ≤ P) :
    (new factor P).Reaches P ↔ 2 ≤ factor ∨ ∃ k, P = 2 ^ k := by
  by_cases h : 1 < factor ∧ 2 < P
  · exact iff_of_true (new_reaches_of_two_lt h.1 h.2) (.inl h.1)
  · rw [new_reaches_iff_of_not h hP]
    constructor
    · exact .inr
    · rintro (htwo | hpow)
      · -- two PEs, whatever the factor
        exact ⟨1, by omega⟩
      · exact hpow

theorem new_reaches_iff_three :
    2 ≤ 3 ∧ ((new 1 3).Reaches 3 ↔ 2 ≤ 1 ∨ ∃ k, 3 = 2 ^ k) :=
  ⟨by decide, new_reaches_iff (by decide)⟩

/-- Three PEs and the factor 1: there is one round, and a PE hears from one other. -/
theorem three_not_reached :
    ¬ ∀ P factor, 2 ≤ P → 1 ≤ factor → (new factor P).Reaches P := by
  intro h
  have hle := (h 3 1 (by decide) (by decide)).le_pow
  have hlog : Nat.log 2 3 = 1 := by
    rw [Nat.log_eq_iff (.inl Nat.one_ne_zero)]
    decide
  rw [new_of_not (by decide), hlog] at hle
  exact absurd hle (by decide)

end Rounds

end Lamellar.Barrier
