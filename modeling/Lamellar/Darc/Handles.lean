import Lamellar.Darc.Steps

/-!
# Handles, counts and modes of a PE

`Owned` ties the counters of a PE to what they stand for: `local_cnt` is the number of its
strong handles, with the one that a running conversion has consumed, and its own mode is
`Dropped` exactly when its `DroppedWaitAM` was launched. It holds in the runs in which at most
one task runs on a PE. The frame lemmas of this file say what the steps of a task leave alone.
-/

namespace Lamellar.Darc

open State

variable {P : ℕ}

/-- What the task of a PE is for: a `DarcMode` to convert to, or `Dropped`. -/
def State.goal (s : State P) (p : Fin P) : Option DarcMode := (s.task p).map Task.state

/-- The handle that a running conversion has consumed. -/
def heldBy : Option DarcMode → ℕ
  | none => 0
  | some .dropped => 0
  | some _ => 1

theorem heldBy_of_ne {m : DarcMode} (h : m ≠ .dropped) : heldBy (some m) = 1 := by
  cases m with
  | dropped => exact absurd rfl h
  | _ => rfl

/-- `local_cnt` counts the strong handles of a PE, and the mode of a PE is `Dropped` exactly
when its `DroppedWaitAM` was launched. -/
structure Owned (s : State P) : Prop where
  localCnt : ∀ p, s.localCnt p = (s.handles p).card + heldBy (s.goal p)
  mode : ∀ p, s.modes p p = .dropped ↔ s.goal p = some .dropped
  single : Single s

/-- A task keeps its goal; only a conversion ends. -/
theorem taskStep_task {s s' : State P} {p : Fin P} {t : Task P} (ht : s.task p = some t)
    (hs : TaskStep s p t s') :
    (∃ t', s'.task = Function.update s.task p (some t') ∧ t'.state = t.state ∧
        s'.handles = s.handles ∧ s'.totalLocalCnt = s.totalLocalCnt) ∨
      (t.state ≠ .dropped ∧ s'.task = Function.update s.task p none ∧
        s'.handles = Function.update s.handles p (s.calls p ::ₘ s.handles p) ∧
        (t.pc = .await .final ∨ t.pc = .soloStore)) := by
  cases hs
  case returnFinal hpc _ hconv => exact Or.inr ⟨hconv, rfl, rfl, Or.inl hpc⟩
  case soloReturn hpc hconv => exact Or.inr ⟨hconv, rfl, rfl, Or.inr hpc⟩
  case spin => exact Or.inl ⟨t, by rw [← ht, Function.update_eq_self]; rfl, rfl, rfl, rfl⟩
  case enterChecked sum hpc =>
    refine Or.inl ⟨_, rfl, ?_, rfl, rfl⟩
    simp only [Task.resetId]
    split
    · rfl
    · rfl
  all_goals exact Or.inl ⟨_, rfl, rfl, rfl, rfl⟩

/-- The step of a task leaves the other tasks alone. -/
theorem taskStep_task_eq {s s' : State P} {p : Fin P} {t : Task P} (ht : s.task p = some t)
    (hs : TaskStep s p t s') : s'.task = Function.update s.task p (s'.task p) := by
  rcases taskStep_task ht hs with ⟨t', htask, _⟩ | ⟨_, htask, _⟩
  all_goals rw [htask, Function.update_self]

theorem taskStep_state {s s' : State P} {p : Fin P} {t t' : Task P} (ht : s.task p = some t)
    (hs : TaskStep s p t s') (ht' : s'.task p = some t') : t'.state = t.state := by
  rcases taskStep_task ht hs with ⟨u, hu, hstate, _⟩ | ⟨_, hu, _⟩
  · rw [hu, Function.update_self, Option.some_inj] at ht'
    rw [← ht', hstate]
  · simp [hu] at ht'

theorem taskStep_handles {s s' : State P} {p r : Fin P} {t : Task P} (ht : s.task p = some t)
    (hs : TaskStep s p t s') (hrp : r ≠ p) : s'.handles r = s.handles r := by
  rcases taskStep_task ht hs with ⟨_, _, _, hhandles, _⟩ | ⟨_, _, hhandles, _⟩
  · rw [hhandles]
  · rw [hhandles, Function.update_of_ne hrp]

/-- What no step of a task changes. -/
theorem taskStep_frame {s s' : State P} {p : Fin P} {t : Task P} (hs : TaskStep s p t s') :
    s'.localCnt = s.localCnt ∧ s'.totalRefCnts = s.totalRefCnts ∧
      s'.totalDistCnt = s.totalDistCnt ∧ s'.inFlight = s.inFlight ∧
      s'.arriving = s.arriving ∧ s'.suspended = s.suspended := by
  cases hs
  all_goals exact ⟨rfl, rfl, rfl, rfl, rfl, rfl⟩

/-- A property of all tasks, after a step of the task of `p`. -/
theorem forall_task_update {tasks tasks' : Fin P → Option (Task P)} {p : Fin P}
    {o : Option (Task P)} {Q : Fin P → Task P → Prop}
    (htask : tasks' = Function.update tasks p o) (hp : ∀ t', o = some t' → Q p t')
    (hother : ∀ r t', r ≠ p → tasks r = some t' → Q r t') :
    ∀ r t', tasks' r = some t' → Q r t' := by
  intro r t' hr
  rw [htask] at hr
  by_cases hrp : r = p
  · subst hrp
    rw [Function.update_self] at hr
    exact hp t' hr
  · rw [Function.update_of_ne hrp] at hr
    exact hother r t' hrp hr

theorem update₂_self {α : Type} (f : Fin P → Fin P → α) (p q : Fin P) (v : α) :
    update₂ f p q v p q = v := by
  simp [update₂]

theorem update₂_of_ne {α : Type} (f : Fin P → Fin P → α) {p q p' q' : Fin P} (v : α)
    (h : p' ≠ p ∨ q' ≠ q) : update₂ f p q v p' q' = f p' q' := by
  by_cases hp : p' = p
  · subst hp
    simp [update₂, h.resolve_left (fun hne => hne rfl)]
  · simp [update₂, hp]

/-- A task writes its goal into the mode of its PE, and on the other PEs after its rounds. -/
theorem taskStep_modes {s s' : State P} {p : Fin P} {t : Task P} (hs : TaskStep s p t s')
    (q r : Fin P) : s'.modes q r = s.modes q r ∨
      (r = p ∧ s'.modes q r = t.state ∧ (q = p ∨ ∃ todo, t.pc = .putModes todo)) := by
  have hput : ∀ q', (q' = p ∨ ∃ todo, t.pc = .putModes todo) →
      update₂ s.modes q' p t.state q r = s.modes q r ∨
      (r = p ∧ update₂ s.modes q' p t.state q r = t.state ∧
        (q = p ∨ ∃ todo, t.pc = .putModes todo)) := by
    intro q' hq'
    by_cases hqr : q = q' ∧ r = p
    · obtain ⟨rfl, rfl⟩ := hqr
      exact Or.inr ⟨rfl, update₂_self _ _ _ _, hq'⟩
    · exact Or.inl (update₂_of_ne _ _ (not_and_or.mp hqr))
  cases hs
  case storeMode => exact hput p (Or.inl rfl)
  case putMode q' todo hpc _ => exact hput q' (Or.inr ⟨todo, hpc⟩)
  case soloStore => exact hput p (Or.inl rfl)
  case soloReturn => exact hput p (Or.inl rfl)
  all_goals exact Or.inl rfl

theorem Owned.taskStep {s s' : State P} {p : Fin P} {t : Task P} (h : Owned s)
    (ht : s.task p = some t) (hs : TaskStep s p t s') : Owned s' := by
  have hlocal := (taskStep_frame hs).1
  have hsingle : Single s' := by
    rw [Single, (taskStep_frame hs).2.2.2.2.2]
    exact h.single
  have hgoal : s.goal p = some t.state := by simp [State.goal, ht]
  have hmode : ∀ r, s'.modes r r = s.modes r r ∨ (r = p ∧ s'.modes r r = t.state) :=
    fun r => (taskStep_modes hs r r).imp_right fun h => ⟨h.1, h.2.1⟩
  rcases taskStep_task ht hs with ⟨t', htask, hstate, hhandles, _⟩ |
    ⟨hconv, htask, hhandles, _⟩
  · have hgoal' : s'.goal = s.goal := by
      funext r
      by_cases hr : r = p
      · subst hr
        simp [State.goal, htask, ht, hstate]
      · simp [State.goal, htask, hr]
    refine ⟨fun r => by rw [hlocal, hhandles, hgoal']; exact h.localCnt r, fun r => ?_, hsingle⟩
    rw [hgoal']
    rcases hmode r with hr | ⟨rfl, hr⟩
    · rw [hr]
      exact h.mode r
    · rw [hr, hgoal]
      exact Option.some_inj.symm
  · refine ⟨?_, ?_, hsingle⟩
    · intro r
      rw [hlocal, hhandles, h.localCnt r]
      by_cases hr : r = p
      · subst hr
        simp [State.goal, htask, ht, heldBy]
      · simp [State.goal, htask, hr]
    · intro r
      by_cases hr : r = p
      · subst hr
        have hne : s.modes r r ≠ .dropped := by
          rw [Ne, h.mode r, hgoal, Option.some_inj]
          exact hconv
        have hne' : s'.modes r r ≠ .dropped := by
          rcases hmode r with hr | ⟨_, hr⟩
          · rw [hr]
            exact hne
          · rw [hr]
            exact hconv
        simp [State.goal, htask, hne']
      · have hsame := (hmode r).resolve_right (fun hand => hr hand.1)
        rw [hsame, h.mode r]
        simp [State.goal, htask, hr]

theorem Owned.cloned {s : State P} (h : Owned s) (p : Fin P) (g : ℕ) :
    Owned (s.cloned p g) := by
  refine ⟨?_, h.mode, h.single⟩
  intro r
  have hr := h.localCnt r
  by_cases hrp : r = p
  · subst hrp
    simp only [State.cloned, Function.update_self, Multiset.card_cons]
    exact (congrArg (· + 1) hr).trans (Nat.add_right_comm _ _ _)
  · simp only [State.cloned, Function.update_of_ne hrp]
    exact hr

theorem Owned.uncounted {s : State P} (h : Owned s) {p : Fin P} {g : ℕ}
    (hg : g ∈ s.handles p) : Owned (s.uncounted p g) := by
  refine ⟨?_, h.mode, h.single⟩
  intro r
  have hr := h.localCnt r
  by_cases hrp : r = p
  · subst hrp
    have hcard := Multiset.card_erase_add_one hg
    simp only [State.uncounted, Function.update_self]
    change s.localCnt r - 1 = _ + heldBy (s.goal r)
    omega
  · simp only [State.uncounted, Function.update_of_ne hrp]
    exact hr

theorem Single.begun {s : State P} (h : Single s) {p : Fin P} (htask : s.task p = none)
    (m : DarcMode) : Single (s.begun p m) := by
  intro r
  by_cases hrp : r = p
  · subst hrp
    simp [State.begun, htask, h r]
  · simp [State.begun, hrp, h r]

theorem Owned.launched {s : State P} (h : Owned s) {p : Fin P} (htask : s.task p = none) :
    Owned (s.launched p) := by
  refine ⟨?_, ?_, h.single.begun htask .dropped⟩
  · intro r
    have hr := h.localCnt r
    by_cases hrp : r = p
    · subst hrp
      have hgoal : (s.launched r).goal r = some .dropped := by
        simp [State.goal, State.launched, State.begun, Task.new]
      have hidle : s.goal r = none := by simp [State.goal, htask]
      rw [hgoal]
      rw [hidle] at hr
      exact hr
    · have hgoal : (s.launched p).goal r = s.goal r := by
        simp [State.goal, State.launched, State.begun, hrp]
      rw [hgoal]
      exact hr
  · intro r
    by_cases hrp : r = p
    · subst hrp
      simp [State.goal, State.launched, State.begun, Task.new, update₂_self]
    · have hgoal : (s.launched p).goal r = s.goal r := by
        simp [State.goal, State.launched, State.begun, hrp]
      rw [hgoal, ← h.mode r]
      simp only [State.launched, update₂_of_ne s.modes _ (Or.inl hrp)]

/-- What no operation on handles changes. -/
theorem opStep_frame {s s' : State P} {a : Action P} (hs : OpStep s a s') :
    s'.modeRefCnts = s.modeRefCnts ∧ s'.modeBarriers = s.modeBarriers ∧
      s'.entered = s.entered ∧ s'.lastBarrier = s.lastBarrier ∧ s'.calls = s.calls := by
  cases hs
  all_goals exact ⟨rfl, rfl, rfl, rfl, rfl⟩

/-- An operation leaves the tasks alone, or starts one on a PE that has none. -/
theorem opStep_task {s s' : State P} {a : Action P} (hs : OpStep s a s') :
    s'.task = s.task ∨ ∃ p m, s.task p = none ∧
      s'.task = Function.update s.task p (some (Task.new m)) := by
  cases hs with
  | launch p pc next hmode htask => exact Or.inr ⟨p, .dropped, htask, rfl⟩
  | convert p g state _ htask _ => exact Or.inr ⟨p, state, htask, rfl⟩
  | _ => exact Or.inl rfl

theorem opStep_task_kept {s s' : State P} {r : Fin P} {u : Task P} {a : Action P}
    (hs : OpStep s a s') (hr : s.task r = some u) : s'.task r = some u := by
  rcases opStep_task hs with htask | ⟨p, m, hnone, htask⟩
  · rw [htask, hr]
  · have hrp : r ≠ p := by
      rintro rfl
      rw [hnone] at hr
      cases hr
    rw [htask, Function.update_of_ne hrp, hr]

theorem Owned.held {s : State P} (h : Owned s) (m : NetworkDarc P) : Owned (s.held m) := by
  have hcloned := h.cloned m.dst m.gen
  exact ⟨hcloned.localCnt, hcloned.mode, hcloned.single⟩

theorem Owned.converting {s : State P} (h : Owned s) {p : Fin P} {g : ℕ} {state : DarcMode}
    (hg : g ∈ s.handles p) (htask : s.task p = none) (hstate : state ≠ .dropped) :
    Owned (s.converting p g state) := by
  have hgoalp : (s.converting p g state).goal p = some state := by
    simp [State.goal, State.converting, State.begun, Task.new]
  have hgoal : ∀ r, r ≠ p → (s.converting p g state).goal r = s.goal r := by
    intro r hrp
    simp [State.goal, State.converting, State.begun, hrp]
  have hidle : s.goal p = none := by simp [State.goal, htask]
  refine ⟨?_, ?_, h.single.begun htask state⟩
  · intro r
    have hr := h.localCnt r
    by_cases hrp : r = p
    · subst hrp
      have hcard := Multiset.card_erase_add_one hg
      rw [hidle] at hr
      rw [hgoalp, heldBy_of_ne hstate]
      simp only [State.converting, Function.update_self]
      exact hr.trans hcard.symm
    · rw [hgoal r hrp]
      simp only [State.converting, Function.update_of_ne hrp]
      exact hr
  · intro r
    by_cases hrp : r = p
    · subst hrp
      have hmode := h.mode r
      rw [hidle] at hmode
      rw [hgoalp, Option.some_inj]
      exact iff_of_false (fun hd => by simpa using hmode.mp hd) hstate
    · rw [hgoal r hrp]
      exact h.mode r

theorem Owned.opStep {s s' : State P} {a : Action P} (h : Owned s) (hs : OpStep s a s') :
    Owned s' := by
  cases hs with
  | clone p g hg => exact h.cloned p g
  | drop p g hg => exact h.uncounted hg
  | launch p pc next hmode htask =>
    have hgone : Owned (s.dropOn p pc next) := ⟨h.localCnt, h.mode, h.single⟩
    exact hgone.launched htask
  | hold m hm => exact h.held m
  | upgrade p g hg hvalid => exact h.cloned p g
  | convert p g state hg htask hstate => exact h.converting hg htask hstate
  | _ => exact ⟨h.localCnt, h.mode, h.single⟩

theorem Owned.step {s s' : State P} {a : Action P} (h : Owned s) (ha : StartsAlone s a)
    (hs : s.step a = some s') : Owned s' := by
  rcases h.single.cases ha hs with hop | ⟨p, q, t, _, ht, htask⟩
  · exact h.opStep hop
  · exact h.taskStep ht htask

theorem Owned.init {s : State P} (hs : Initial s) : Owned s := by
  obtain ⟨mode, garbage, hmode, rfl⟩ := hs
  exact ⟨fun p => rfl, fun p => iff_of_false hmode (by simp [State.goal, State.new]),
    fun p => rfl⟩

end Lamellar.Darc
