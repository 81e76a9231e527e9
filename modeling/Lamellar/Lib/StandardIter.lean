import Lamellar.Lib.Draining

/-!
# The standard adaptors `step_by` and `chunks`

What `step_by` and `chunks` of the standard library make of a list, position by position.
Both have `steps s n` items, the number of multiples of the step below the length `n`.
-/

namespace Lamellar.StandardIter

open Draining

variable {α : Type} {s : ℕ}

/-- The number of multiples of `s` below `n`. -/
def steps (s n : ℕ) : ℕ := (n + s - 1) / s

theorem lt_steps_iff (hs : 0 < s) (k n : ℕ) : k < steps s n ↔ k * s < n := by
  have hdiv : k < steps s n ↔ (k + 1) * s ≤ n + s - 1 := Nat.le_div_iff_mul_le hs
  rw [hdiv, Nat.succ_mul]
  omega

theorem steps_le (hs : 0 < s) (n : ℕ) : steps s n ≤ n := by
  by_contra hlt
  have hmul := (lt_steps_iff hs n n).mp (by omega)
  have := Nat.le_mul_of_pos_right n hs
  omega

theorem le_steps_mul (hs : 0 < s) (n : ℕ) : n ≤ steps s n * s := by
  by_contra hlt
  exact Nat.lt_irrefl _ ((lt_steps_iff hs (steps s n) n).mpr (by omega))

/-- The number of chunks, with one more for what is left. -/
theorem steps_eq (hs : 0 < s) (n : ℕ) :
    steps s n = if 0 < n % s then 1 + n / s else n / s := by
  have hdiv := Nat.div_add_mod n s
  have hlt := Nat.mod_lt n hs
  unfold steps
  split
  · rw [show n + s - 1 = n % s - 1 + s * (1 + n / s) by rw [Nat.mul_add, Nat.mul_one]; omega,
      Nat.add_mul_div_left _ _ hs, Nat.div_eq_of_lt (by omega), Nat.zero_add]
  · rw [show n + s - 1 = s - 1 + s * (n / s) by omega, Nat.add_mul_div_left _ _ hs,
      Nat.div_eq_of_lt (by omega), Nat.zero_add]

/-- The standard `step_by`: the items at the positions `0, s, 2 * s`, ... -/
def stepBy (s : ℕ) (items : List α) : List α :=
  (List.range items.length).filterMap fun k => items[k * s]?

/-- Where every index has a value, collecting the values keeps the positions. -/
theorem getElem?_filterMap_range {n : ℕ} {f : ℕ → Option α} (h : ∀ k < n, ∃ x, f k = some x) :
    ((List.range n).filterMap f).length = n ∧
      ∀ k < n, ((List.range n).filterMap f)[k]? = f k := by
  induction n with
  | zero => exact ⟨rfl, fun k hk => absurd hk (Nat.not_lt_zero k)⟩
  | succ n ih =>
    obtain ⟨hlength, hget⟩ := ih fun k hk => h k (by omega)
    obtain ⟨x, hx⟩ := h n (Nat.lt_succ_self n)
    rw [List.range_succ, List.filterMap_append, List.filterMap_cons_some hx]
    refine ⟨by rw [List.length_append, hlength]; rfl, fun k hk => ?_⟩
    by_cases hlt : k < n
    · rw [List.getElem?_append_left (by omega), hget k hlt]
    · rw [List.getElem?_append_right (by omega), hlength, show k = n by omega, Nat.sub_self, hx]
      rfl

/-- The items of `step_by` and their number. -/
theorem stepBy_items (hs : 0 < s) (items : List α) :
    (stepBy s items).length = steps s items.length ∧
      ∀ k < steps s items.length, (stepBy s items)[k]? = items[k * s]? := by
  have hle := steps_le hs items.length
  have hwindow : stepBy s items =
      (List.range (steps s items.length)).filterMap fun k => items[k * s]? := by
    unfold stepBy
    simp only [List.range_eq_range']
    refine filterMap_range'_window (Nat.le_refl _) (by omega)
      (fun k _ hk => absurd hk (Nat.not_lt_zero k)) fun k hge _ => ?_
    have hmul := (lt_steps_iff hs k items.length).not.mp (by omega)
    exact List.getElem?_eq_none (by omega)
  rw [hwindow]
  exact getElem?_filterMap_range fun k hk =>
    ⟨_, List.getElem?_eq_getElem ((lt_steps_iff hs k items.length).mp hk)⟩

theorem getElem?_stepBy (hs : 0 < s) (items : List α) (k : ℕ) :
    (stepBy s items)[k]? = items[k * s]? := by
  obtain ⟨hlength, hget⟩ := stepBy_items hs items
  by_cases hk : k < steps s items.length
  · exact hget k hk
  · have hmul := (lt_steps_iff hs k items.length).not.mp hk
    rw [List.getElem?_eq_none (by omega), List.getElem?_eq_none (by omega)]

/-- The standard `chunks`: the pieces of `c` items, the last one with what is left. -/
def chunks (c : ℕ) (items : List α) : List (List α) :=
  (List.range (steps c items.length)).map fun k => (items.drop (k * c)).take c

theorem length_chunks (c : ℕ) (items : List α) :
    (chunks c items).length = steps c items.length := by
  rw [chunks, List.length_map, List.length_range]

/-- Windows of `c` items, one after the other. -/
theorem flatMap_windows (c n : ℕ) (items : List α) :
    ((List.range n).flatMap fun k => (items.drop (k * c)).take c) = items.take (n * c) := by
  induction n with
  | zero => simp
  | succ n ih =>
    rw [List.range_succ, List.flatMap_append, ih, List.flatMap_singleton, Nat.succ_mul,
      List.take_add]

theorem flatten_chunks {c : ℕ} (hc : 0 < c) (items : List α) :
    (chunks c items).flatten = items := by
  rw [chunks, ← List.flatMap_def, flatMap_windows, List.take_of_length_le (le_steps_mul hc _)]

theorem getElem?_chunks {c k : ℕ} {items : List α} (hk : k < steps c items.length) :
    (chunks c items)[k]? = some ((items.drop (k * c)).take c) := by
  rw [chunks, List.getElem?_map, List.getElem?_range hk, Option.map_some]

/-- Every chunk but the last has `c` items. -/
theorem length_chunk_eq {c k : ℕ} (hc : 0 < c) {items chunk : List α}
    (hk : k + 1 < (chunks c items).length) (hchunk : (chunks c items)[k]? = some chunk) :
    chunk.length = c := by
  rw [length_chunks] at hk
  rw [getElem?_chunks (Nat.lt_of_succ_lt hk), Option.some.injEq] at hchunk
  have hlt := (lt_steps_iff hc (k + 1) items.length).mp hk
  rw [Nat.succ_mul] at hlt
  rw [← hchunk, List.length_take, List.length_drop]
  omega

theorem length_chunk_le {c : ℕ} {items chunk : List α} (h : chunk ∈ chunks c items) :
    chunk.length ≤ c := by
  rw [chunks, List.mem_map] at h
  obtain ⟨k, -, rfl⟩ := h
  exact List.length_take_le _ _

end Lamellar.StandardIter
