import Mathlib.Algebra.Ring.Nat
import Mathlib.Logic.Relation

/-!
# While loops

`loop cond body fuel s` runs a body as long as a condition holds, within `fuel` turns. What the
body keeps holds at the end (`loop_inv`); a loop whose measure shrinks ends (`exists_loop`), and
one that keeps a property under which the condition holds does not, whatever the fuel
(`loop_eq_none`). `Turns` relates a state to those that the loop comes by; a state without a
further turn is the one it ends in (`Turns.loop_eq`).
-/

namespace Lamellar.While

variable {σ : Type} {cond : σ → Bool} {body : σ → σ}

def loop (cond : σ → Bool) (body : σ → σ) : ℕ → σ → Option σ
  | 0, s => if cond s then none else some s
  | fuel + 1, s => if cond s then loop cond body fuel (body s) else some s

theorem loop_of_not {s : σ} (h : cond s = false) (fuel : ℕ) : loop cond body fuel s = some s := by
  cases fuel <;> simp [loop, h]

theorem loop_succ {s : σ} (h : cond s = true) (fuel : ℕ) :
    loop cond body (fuel + 1) s = loop cond body fuel (body s) := by
  rw [loop, if_pos h]

theorem loop_inv {P : σ → Prop} (hbody : ∀ s, P s → cond s = true → P (body s)) {s s' : σ}
    (hs : P s) {fuel : ℕ} (h : loop cond body fuel s = some s') : P s' ∧ cond s' = false := by
  induction fuel generalizing s with
  | zero =>
    rw [loop] at h
    split at h
    · cases h
    · rename_i hcond
      cases h
      exact ⟨hs, Bool.eq_false_iff.mpr hcond⟩
  | succ fuel ih =>
    rw [loop] at h
    split at h
    · rename_i hcond
      exact ih (hbody s hs hcond) h
    · rename_i hcond
      cases h
      exact ⟨hs, Bool.eq_false_iff.mpr hcond⟩

theorem exists_loop (measure : σ → ℕ)
    (hbody : ∀ s, cond s = true → measure (body s) < measure s) (s : σ) :
    ∃ fuel s', loop cond body fuel s = some s' := by
  induction hn : measure s using Nat.strongRecOn generalizing s with
  | ind n ih =>
    subst hn
    cases hcond : cond s with
    | false => exact ⟨0, s, loop_of_not hcond 0⟩
    | true =>
      obtain ⟨fuel, s', hend⟩ := ih _ (hbody s hcond) (body s) rfl
      exact ⟨fuel + 1, s', (loop_succ hcond fuel).trans hend⟩

theorem loop_eq_none {P : σ → Prop} (hcond : ∀ s, P s → cond s = true)
    (hbody : ∀ s, P s → P (body s)) {s : σ} (hs : P s) (fuel : ℕ) :
    loop cond body fuel s = none := by
  rw [Option.eq_none_iff_forall_ne_some]
  intro s' h
  obtain ⟨hs', hnot⟩ := loop_inv (fun t ht _ => hbody t ht) hs h
  rw [hcond s' hs'] at hnot
  cases hnot

/-- More fuel changes nothing. -/
theorem loop_add {s s' : σ} {fuel : ℕ} (h : loop cond body fuel s = some s') (k : ℕ) :
    loop cond body (fuel + k) s = some s' := by
  induction fuel generalizing s with
  | zero =>
    rw [loop] at h
    split at h
    · cases h
    · rename_i hcond
      cases h
      exact loop_of_not (Bool.eq_false_iff.mpr hcond) _
  | succ fuel ih =>
    rw [loop] at h
    split at h
    · rename_i hcond
      rw [Nat.succ_add, loop_succ hcond]
      exact ih h
    · rename_i hcond
      cases h
      exact loop_of_not (Bool.eq_false_iff.mpr hcond) _

/-- The states that the loop comes by. -/
def Turns (cond : σ → Bool) (body : σ → σ) : σ → σ → Prop :=
  Relation.ReflTransGen fun s t => cond s = true ∧ t = body s

theorem Turns.loop_eq {s t s' : σ} (h : Turns cond body s t) (ht : cond t = false) {fuel : ℕ}
    (hend : loop cond body fuel s = some s') : s' = t := by
  induction h using Relation.ReflTransGen.head_induction_on generalizing fuel with
  | refl =>
    rw [loop_of_not ht] at hend
    cases hend
    rfl
  | head hturn _ ih =>
    obtain ⟨hcond, rfl⟩ := hturn
    cases fuel with
    | zero =>
      rw [loop, if_pos hcond] at hend
      cases hend
    | succ fuel => exact ih ((loop_succ hcond fuel).symm.trans hend)

end Lamellar.While
