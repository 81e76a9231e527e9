import Mathlib.Data.List.Nodup
import Mathlib.Algebra.Ring.Nat

/-!
# The results of a call

The futures of a call return the results of a message with their positions, and the call writes
each result to its position in a vector that is not initialised.
-/

namespace Lamellar.BatchOps

variable {R : Type}

/-- `results[i] = v`; none where it panics. -/
def setResult (results : List (Option R)) (x : R × ℕ) : Option (List (Option R)) :=
  if x.2 < results.length then some (results.set x.2 (some x.1)) else none

/-- The loop over the results of the messages; `none` at a position that nothing is written to -/
def scatter (n : ℕ) (rets : List (List R × List ℕ)) : Option (List (Option R)) :=
  (rets.flatMap fun ret => ret.1.zip ret.2).foldlM setResult (List.replicate n none)

/-- A position that is written once keeps what is written. -/
theorem setResult_foldlM {xs : List (R × ℕ)} (hnodup : (xs.map Prod.snd).Nodup)
    (results : List (Option R)) (hlt : ∀ x ∈ xs, x.2 < results.length) :
    ∃ results', xs.foldlM setResult results = some results' ∧ results'.length = results.length ∧
      (∀ x ∈ xs, results'[x.2]? = some (some x.1)) ∧
      ∀ i, i ∉ xs.map Prod.snd → results'[i]? = results[i]? := by
  induction xs generalizing results with
  | nil => exact ⟨results, rfl, rfl, fun x hx => absurd hx List.not_mem_nil, fun _ _ => rfl⟩
  | cons x xs ih =>
    have hx : x.2 < results.length := hlt x List.mem_cons_self
    obtain ⟨hfirst, hrest⟩ := List.nodup_cons.mp hnodup
    obtain ⟨results', hfold, hlength, hset, hkeep⟩ := ih hrest (results.set x.2 (some x.1))
      fun y hy => by
        rw [List.length_set]
        exact hlt y (List.mem_cons_of_mem x hy)
    refine ⟨results', ?_, by rw [hlength, List.length_set], fun y hy => ?_, fun i hi => ?_⟩
    · rw [List.foldlM_cons, setResult, if_pos hx]
      exact hfold
    · rcases List.mem_cons.mp hy with rfl | hy
      · rw [hkeep _ hfirst, List.getElem?_set_self hx]
      · exact hset y hy
    · obtain ⟨hne, hnotin⟩ := not_or.mp fun h => hi (List.mem_cons.mpr h)
      rw [hkeep i hnotin, List.getElem?_set_ne (Ne.symm hne)]

/-- Every result is at its position. -/
theorem scatter_spec {n : ℕ} {rets : List (List R × List ℕ)}
    (hnodup : ((rets.flatMap fun ret => ret.1.zip ret.2).map Prod.snd).Nodup)
    (hlt : ∀ x ∈ rets.flatMap fun ret => ret.1.zip ret.2, x.2 < n) :
    ∃ results, scatter n rets = some results ∧ results.length = n ∧
      ∀ x ∈ rets.flatMap fun ret => ret.1.zip ret.2, results[x.2]? = some (some x.1) := by
  obtain ⟨results, hscatter, hlength, hset, -⟩ := setResult_foldlM hnodup
    (List.replicate n none) fun x hx => by
      rw [List.length_replicate]
      exact hlt x hx
  rw [List.length_replicate] at hlength
  exact ⟨results, hscatter, hlength, hset⟩

end Lamellar.BatchOps
