import Mathlib.Algebra.BigOperators.Group.List.Basic
import Mathlib.Data.List.Nodup
import Mathlib.Algebra.Ring.Nat

/-!
# Maps as lists of entries

A hash map is a list of entries with distinct keys. `getD` reads an entry, `upsert` changes
one, or adds it with a default value first. What is added up over the entries (`sum_upsert`)
or collected from them (`flatMap_upsert`) changes by what the one entry gains.
-/

namespace Lamellar.Entries

variable {K V M : Type} [DecidableEq K]

def getD (k : K) (v₀ : V) : List (K × V) → V
  | [] => v₀
  | (k', v) :: es => if k' = k then v else getD k v₀ es

def upsert (k : K) (v₀ : V) (f : V → V) : List (K × V) → List (K × V)
  | [] => [(k, f v₀)]
  | (k', v) :: es => if k' = k then (k', f v) :: es else (k', v) :: upsert k v₀ f es

variable {k : K} {v₀ : V} {f : V → V} {es : List (K × V)}

theorem getD_mem (hk : k ∈ es.map Prod.fst) : (k, getD k v₀ es) ∈ es := by
  induction es with
  | nil => cases hk
  | cons e es ih =>
    obtain ⟨k', v⟩ := e
    rw [getD]
    split
    · rename_i heq
      subst heq
      exact List.mem_cons_self
    · rename_i hne
      rcases List.mem_cons.mp hk with heq | hk
      · exact absurd heq.symm hne
      · exact List.mem_cons_of_mem _ (ih hk)

theorem getD_of_not_mem (hk : k ∉ es.map Prod.fst) : getD k v₀ es = v₀ := by
  induction es with
  | nil => rfl
  | cons e es ih =>
    obtain ⟨k', v⟩ := e
    simp only [List.map_cons, List.mem_cons, not_or] at hk
    rw [getD, if_neg fun heq => hk.1 heq.symm]
    exact ih hk.2

theorem upsert_ne_nil : upsert k v₀ f es ≠ [] := by
  cases es with
  | nil => simp [upsert]
  | cons e es =>
    rw [upsert]
    split <;> simp

theorem forall_upsert {Q : K × V → Prop} (h : ∀ e ∈ es, Q e) (h₀ : Q (k, f v₀))
    (hf : ∀ v, Q (k, v) → Q (k, f v)) : ∀ e ∈ upsert k v₀ f es, Q e := by
  induction es with
  | nil =>
    intro e he
    rw [upsert, List.mem_singleton] at he
    exact he ▸ h₀
  | cons e' es ih =>
    obtain ⟨k', v⟩ := e'
    intro e he
    rw [upsert] at he
    split at he
    · rename_i hk
      subst hk
      rcases List.mem_cons.mp he with rfl | he
      · exact hf v (h _ List.mem_cons_self)
      · exact h e (List.mem_cons_of_mem _ he)
    · rcases List.mem_cons.mp he with rfl | he
      · exact h _ List.mem_cons_self
      · exact ih (fun e he => h e (List.mem_cons_of_mem _ he)) e he

/-- What the entries hold gains what the one entry gains. -/
theorem flatMap_upsert {g : K × V → List M} (ms : List M) (h₀ : g (k, v₀) = [])
    (hf : ∀ v, (g (k, f v)).Perm (ms ++ g (k, v))) :
    ((upsert k v₀ f es).flatMap g).Perm (ms ++ es.flatMap g) := by
  induction es with
  | nil =>
    have h := hf v₀
    rw [h₀] at h
    simpa [upsert] using h
  | cons e es ih =>
    obtain ⟨k', v⟩ := e
    rw [upsert]
    split
    · rename_i hk
      subst hk
      simp only [List.flatMap_cons]
      rw [← List.append_assoc]
      exact (hf v).append_right _
    · simp only [List.flatMap_cons]
      exact (ih.append_left _).trans (by
        rw [← List.append_assoc, ← List.append_assoc]
        exact List.perm_append_comm.append_right _)

/-- A sum over the entries, where an entry that is not there counts nothing. -/
theorem sum_upsert (w : K × V → ℕ) (d : ℕ)
    (h : w (k, f (getD k v₀ es)) = (if k ∈ es.map Prod.fst then w (k, getD k v₀ es) else 0) + d) :
    ((upsert k v₀ f es).map w).sum = (es.map w).sum + d := by
  induction es with
  | nil => simpa [upsert, getD] using h
  | cons e es ih =>
    obtain ⟨k', v⟩ := e
    rw [upsert]
    by_cases hk : k' = k
    · subst hk
      simp only [getD, if_true, List.map_cons, List.mem_cons, true_or] at h
      simp only [if_true, List.map_cons, List.sum_cons, h]
      omega
    · have hk' : k ≠ k' := fun heq => hk heq.symm
      simp only [getD, hk, hk', if_false, List.map_cons, List.mem_cons, false_or] at h
      simp only [hk, if_false, List.map_cons, List.sum_cons, ih h]
      omega

end Lamellar.Entries
