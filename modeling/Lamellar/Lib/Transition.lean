import Mathlib.Algebra.Ring.Nat
import Mathlib.Logic.Relation

/-!
# Transition systems with guarded actions

A system is a set of initial states and a partial step function: `step s a` is the state
after action `a`, or `none` when `a` is not enabled in `s`. `Reach` is the set of states of
all runs whose steps satisfy a side condition `ok` on the state before the step and the
action; the plain runs are those with `ok` always true. `Reach.invariant` is the induction
over runs, `run` executes a list of actions, and `exists_goal_of_progress` is the rule for
states that are reached by some continuation.
-/

namespace Lamellar.Transition

variable {σ α : Type}

/-- The states reachable by steps that satisfy `ok`. -/
inductive Reach (init : σ → Prop) (step : σ → α → Option σ) (ok : σ → α → Prop) : σ → Prop
  | init {s : σ} (h : init s) : Reach init step ok s
  | step {s s' : σ} {a : α} (prior : Reach init step ok s) (hok : ok s a)
      (hstep : step s a = some s') : Reach init step ok s'

variable {init : σ → Prop} {step : σ → α → Option σ} {ok : σ → α → Prop}

/-- What holds initially and is kept by every step of a run holds in every state reached. -/
theorem Reach.invariant {I : σ → Prop} (hinit : ∀ s, init s → I s)
    (hstep : ∀ s a s', I s → ok s a → step s a = some s' → I s') {s : σ}
    (hs : Reach init step ok s) : I s := by
  induction hs with
  | init h => exact hinit _ h
  | step _ hok hs ih => exact hstep _ _ _ ih hok hs

theorem Reach.mono {ok' : σ → α → Prop} (himp : ∀ s a, ok s a → ok' s a) {s : σ}
    (hs : Reach init step ok s) : Reach init step ok' s := by
  induction hs with
  | init h => exact .init h
  | step _ hok hs ih => exact .step ih (himp _ _ hok) hs

/-- Execute a list of actions. -/
def run (step : σ → α → Option σ) : σ → List α → Option σ
  | s, [] => some s
  | s, a :: as =>
    match step s a with
    | some s' => run step s' as
    | none => none

/-- The steps of `step` that satisfy `ok`. -/
def guarded (step : σ → α → Option σ) (ok : σ → α → Prop) [∀ s a, Decidable (ok s a)] (s : σ)
    (a : α) : Option σ :=
  if ok s a then step s a else none

theorem Reach.run_guarded [∀ s a, Decidable (ok s a)] {s s' : σ} {as : List α}
    (hs : Reach init step ok s) (hrun : run (guarded step ok) s as = some s') :
    Reach init step ok s' := by
  induction as generalizing s with
  | nil =>
    cases hrun
    exact hs
  | cons a as ih =>
    simp only [Transition.run, guarded] at hrun
    split at hrun
    · rename_i s₁ hs₁
      split at hs₁
      · exact ih (.step hs ‹_› hs₁) hrun
      · cases hs₁
    · cases hrun

/-- A run of actions that satisfy `ok` in every state. -/
theorem Reach.run_of_ok {s s' : σ} {as : List α} (hs : Reach init step ok s)
    (has : ∀ a ∈ as, ∀ s, ok s a) (hrun : run step s as = some s') :
    Reach init step ok s' := by
  induction as generalizing s with
  | nil =>
    cases hrun
    exact hs
  | cons a as ih =>
    simp only [Transition.run] at hrun
    split at hrun
    · rename_i s₁ hs₁
      have hok := has a List.mem_cons_self s
      exact ih (.step hs hok hs₁) (fun b hb => has b (List.mem_cons_of_mem _ hb)) hrun
    · cases hrun

theorem Reach.run {s s' : σ} {as : List α} (hs : Reach init step (fun _ _ => True) s)
    (hrun : run step s as = some s') : Reach init step (fun _ _ => True) s' :=
  hs.run_of_ok (fun _ _ _ => trivial) hrun

/-- A run of actions that all decrease the measure is no longer than the measure. -/
theorem length_add_le_of_decreases {internal : α → Prop} (measure : σ → ℕ)
    (hdecr : ∀ s a s', internal a → step s a = some s' → measure s' < measure s) {s s' : σ}
    {as : List α} (has : ∀ a ∈ as, internal a) (hrun : Transition.run step s as = some s') :
    as.length + measure s' ≤ measure s := by
  induction as generalizing s with
  | nil =>
    cases hrun
    simp
  | cons a as ih =>
    simp only [Transition.run] at hrun
    split at hrun
    · rename_i s₁ hs₁
      have hlt := hdecr s a s₁ (has a List.mem_cons_self) hs₁
      have hle := ih (fun b hb => has b (List.mem_cons_of_mem _ hb)) hrun
      simp only [List.length_cons]
      omega
    · cases hrun

/-- Where every step goes on to a lower rank, a run is no longer than the first one. -/
theorem length_le_of_ranked {I : σ → ℕ → Prop}
    (hstep : ∀ s a s' m, I s m → step s a = some s' → ∃ m' < m, I s' m') {s s' : σ} {m : ℕ}
    {as : List α} (hs : I s m) (hrun : Transition.run step s as = some s') : as.length ≤ m := by
  induction as generalizing s m with
  | nil => exact Nat.zero_le _
  | cons a as ih =>
    simp only [Transition.run] at hrun
    split at hrun
    · rename_i s₁ hs₁
      obtain ⟨m', hlt, hinv⟩ := hstep s a s₁ m hs hs₁
      exact Nat.le_trans (Nat.succ_le_succ (ih hinv hrun)) hlt
    · cases hrun

/-- Where every step keeps `I` and decreases the measure, a run is no longer than the measure. -/
theorem length_le_of_decreases {I : σ → Prop} (measure : σ → ℕ)
    (hstep : ∀ s a s', I s → step s a = some s' → I s' ∧ measure s' < measure s) {s s' : σ}
    {as : List α} (hs : I s) (hrun : Transition.run step s as = some s') :
    as.length ≤ measure s := by
  refine length_le_of_ranked (I := fun s m => I s ∧ measure s = m) ?_ ⟨hs, rfl⟩ hrun
  rintro s a s' m ⟨hs, rfl⟩ hs'
  obtain ⟨hinv, hlt⟩ := hstep s a s' hs hs'
  exact ⟨_, hlt, hinv, rfl⟩

/-- Where all runs are bounded and go on until the goal is reached, some run reaches it. -/
theorem exists_goal_of_bounded {goal : σ → Prop} {bound : ℕ} {s : σ}
    (hbound : ∀ as s', run step s as = some s' → as.length ≤ bound)
    (hprogress : ∀ as s', run step s as = some s' → ¬ goal s' → ∃ a s'', step s' a = some s'') :
    ∃ as s', run step s as = some s' ∧ goal s' := by
  induction bound generalizing s with
  | zero =>
    refine ⟨[], s, rfl, Classical.byContradiction fun hgoal => ?_⟩
    obtain ⟨a, s', hs'⟩ := hprogress [] s rfl hgoal
    have hone := hbound [a] s' (by simp only [run, hs'])
    exact absurd hone (Nat.not_succ_le_zero 0)
  | succ bound ih =>
    by_cases hgoal : goal s
    · exact ⟨[], s, rfl, hgoal⟩
    · obtain ⟨a, s₁, hs₁⟩ := hprogress [] s rfl hgoal
      have hcons (as : List α) : run step s (a :: as) = run step s₁ as := by
        simp only [run, hs₁]
      obtain ⟨as, s', hrun, hgoal'⟩ := ih
        (fun as s' hrun => Nat.le_of_succ_le_succ (hbound (a :: as) s' (by rw [hcons, hrun])))
        fun as s' hrun => hprogress (a :: as) s' (by rw [hcons, hrun])
      exact ⟨a :: as, s', by rw [hcons, hrun], hgoal'⟩

/-! ## Continuations -/

/-- One step that satisfies `ok`. -/
def Next (step : σ → α → Option σ) (ok : σ → α → Prop) (s s' : σ) : Prop :=
  ∃ a, ok s a ∧ step s a = some s'

/-- If, as long as the goal is not reached, some step keeps the invariant and decreases the
measure, then some continuation reaches the goal. -/
theorem exists_goal_of_progress {I goal : σ → Prop} (measure : σ → ℕ)
    (hprogress : ∀ s, I s → ¬ goal s →
      ∃ s', Next step ok s s' ∧ I s' ∧ measure s' < measure s) {s : σ} (hs : I s) :
    ∃ s', Relation.ReflTransGen (Next step ok) s s' ∧ goal s' := by
  induction hn : measure s using Nat.strongRecOn generalizing s with
  | _ n ih =>
    by_cases hgoal : goal s
    · exact ⟨s, .refl, hgoal⟩
    · obtain ⟨s', hstep, hs', hlt⟩ := hprogress s hs hgoal
      obtain ⟨s'', hsteps, hgoal'⟩ := ih (measure s') (hn ▸ hlt) hs' rfl
      exact ⟨s'', .head hstep hsteps, hgoal'⟩

/-- What every step keeps holds in every continuation. -/
theorem invariant_of_continues {I : σ → Prop}
    (hstep : ∀ s a s', I s → ok s a → step s a = some s' → I s') {s s' : σ} (hs : I s)
    (hsteps : Relation.ReflTransGen (Next step ok) s s') : I s' := by
  induction hsteps with
  | refl => exact hs
  | tail _ hnext ih =>
    obtain ⟨a, hok, hs'⟩ := hnext
    exact hstep _ a _ ih hok hs'

/-! ## Agents

The agents of a system are often `Fin P`. In a run that is written out there are two or three of
them, and they are numerals, which the last two instances are for. -/

instance instLawfulBEqAgent {P : ℕ} : LawfulBEq (Fin P) := inferInstance

instance instNeZeroTwoAgents : NeZero 2 := ⟨by decide⟩

instance instNeZeroThreeAgents : NeZero 3 := ⟨by decide⟩

end Lamellar.Transition
