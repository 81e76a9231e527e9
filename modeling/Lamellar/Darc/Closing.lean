import Lamellar.Darc.Detection

/-!
# The end of a call

After its last round a task writes its goal into its mode on every PE and waits until all
modes are that goal. So when a `DroppedWaitAM` enters the barrier after that, all PEs have
ended their rounds, and all to drop the `Darc` (`Closing.all`). For one PE there are neither
rounds nor messages (`Alone`).
-/

namespace Lamellar.Darc

open State

variable {P : ℕ} {s s' : State P} {p : Fin P} {t t' : Task P}

/-- The task has ended its rounds. -/
def Pc.Exited : Pc P → Prop
  | .storeMode | .putModes _ | .waitModes _ | .await .final | .waitDropped _ | .invalidate
  | .waitDist | .waitLocal | .dropItem | .waitWeak | .free | .done => True
  | _ => False

/-- The task is past `block_on_outstanding`. -/
def Pc.Ending : Pc P → Prop
  | .waitDropped _ | .invalidate | .waitDist | .waitLocal | .dropItem | .waitWeak | .free
  | .done => True
  | _ => False

/-- The task has seen that there is no strong handle on its PE. -/
def Pc.Unheld : Pc P → Prop
  | .dropItem | .waitWeak | .free | .done => True
  | _ => False

theorem Pc.Unheld.ending {pc : Pc P} (h : pc.Unheld) : pc.Ending := by
  unfold Pc.Unheld at h
  split at h
  all_goals trivial

theorem Pc.Exited.pastTest {pc : Pc P} (h : pc.Exited) : pc.PastTest := by
  refine ⟨?_, ?_, ?_, ?_⟩
  all_goals
    rintro rfl
    exact h

/-- The task of `r` has ended its rounds, to drop the `Darc`. -/
def DroppingOn (s : State P) (r : Fin P) : Prop :=
  ∃ t, s.task r = some t ∧ t.state = .dropped ∧ t.pc.Exited

/-- The item is dropped, and the memory freed, at the end of a `DroppedWaitAM`. -/
def Released (s : State P) : Prop :=
  ∀ p, s.itemDropped p = true ∨ s.freed p = true → ∃ t, s.task p = some t ∧ t.pc.Unheld

/-- Where the steps of a task lead, as far as the end of the call is concerned. -/
theorem taskStep_ending (ht : s.task p = some t) (hs : TaskStep s p t s')
    (ht' : s'.task p = some t') :
    (t.pc.Exited → t'.pc.Exited) ∧
      (t'.pc.Ending → t.pc.Ending ∨
        t.state = .dropped ∧ (t.pc = .await .final ∨ t.pc = .soloStore)) ∧
      (t'.pc = .await .final → t.pc = .waitModes ∅) ∧ (t.pc.Unheld → t'.pc.Unheld) := by
  cases hs
  case returnFinal => simp [State.returned] at ht'
  case soloReturn => simp [State.returned] at ht'
  case spin hpc =>
    change s.task p = some t' at ht'
    rw [ht, Option.some_inj] at ht'
    subst ht'
    refine ⟨id, Or.inl, fun hfinal => ?_, id⟩
    simp [hfinal] at hpc
  all_goals
    simp only [State.setTask, State.enter, State.called, State.putRef, State.putId,
      State.putMode, State.sendFinished, Function.update_self, Option.some_inj] at ht'
    subst ht'
    simp_all [Pc.Exited, Pc.Ending, Pc.Unheld, Task.head]

theorem DroppingOn.taskStep {r : Fin P} (h : DroppingOn s r) (ht : s.task p = some t)
    (hs : TaskStep s p t s') : DroppingOn s' r := by
  obtain ⟨u, hu, hstate, hpc⟩ := h
  by_cases hrp : r = p
  · subst hrp
    rw [ht, Option.some_inj] at hu
    subst hu
    rcases taskStep_task ht hs with ⟨t', htask, hstate', _⟩ | ⟨hconv, _⟩
    · have ht' : s'.task r = some t' := by rw [htask, Function.update_self]
      exact ⟨t', ht', hstate'.trans hstate, (taskStep_ending ht hs ht').1 hpc⟩
    · exact absurd hstate hconv
  · refine ⟨u, ?_, hstate, hpc⟩
    rw [taskStep_task_eq ht hs, Function.update_of_ne hrp, hu]

theorem DroppingOn.opStep {r : Fin P} {a : Action P} (h : DroppingOn s r)
    (hs : OpStep s a s') : DroppingOn s' r := by
  obtain ⟨u, hu, hrest⟩ := h
  exact ⟨u, opStep_task_kept hs hu, hrest⟩

theorem Released.step {a : Action P} (h : Released s) (ho : Owned s) (ha : StartsAlone s a)
    (hs : s.step a = some s') : Released s' := by
  rcases ho.single.cases ha hs with hop | ⟨p, q, t, _, ht, htask⟩
  · have hsame : s'.itemDropped = s.itemDropped ∧ s'.freed = s.freed := by
      cases hop
      all_goals exact ⟨rfl, rfl⟩
    intro r hr
    rw [hsame.1, hsame.2] at hr
    obtain ⟨u, hu, hpc⟩ := h r hr
    exact ⟨u, opStep_task_kept hop hu, hpc⟩
  · have hother : ∀ r, r ≠ p →
        s'.itemDropped r = s.itemDropped r ∧ s'.freed r = s.freed r := by
      intro r hrp
      cases htask
      case dropItem => exact ⟨Function.update_of_ne hrp _ _, rfl⟩
      case free => exact ⟨rfl, Function.update_of_ne hrp _ _⟩
      all_goals exact ⟨rfl, rfl⟩
    intro r hr
    by_cases hrp : r = p
    · subst hrp
      by_cases hold : s.itemDropped r = true ∨ s.freed r = true
      · obtain ⟨u, hu, hpc⟩ := h r hold
        rw [ht, Option.some_inj] at hu
        subst hu
        rcases taskStep_task ht htask with ⟨t', htask', _⟩ | ⟨_, _, _, hend⟩
        · have ht' : s'.task r = some t' := by rw [htask', Function.update_self]
          exact ⟨t', ht', (taskStep_ending ht htask ht').2.2.2 hpc⟩
        · rcases hend with hend | hend
          all_goals simp [hend, Pc.Unheld] at hpc
      · cases htask
        case dropItem => exact ⟨_, Function.update_self _ _ _, trivial⟩
        case free => exact ⟨_, Function.update_self _ _ _, trivial⟩
        all_goals exact absurd hr hold
    · rw [(hother r hrp).1, (hother r hrp).2] at hr
      obtain ⟨u, hu, hpc⟩ := h r hr
      exact ⟨u, by rw [taskStep_task_eq ht htask, Function.update_of_ne hrp, hu], hpc⟩

theorem Released.init (hs : Initial s) : Released s := by
  obtain ⟨mode, garbage, _, rfl⟩ := hs
  intro p hp
  simp [State.new] at hp

/-! ## Several PEs -/

/-- All PEs have ended their rounds to drop the `Darc`, and if the test of such a task is
known to find no strong handle, there is none. -/
def AllDropping (W : DarcMode → Prop) (s : State P) : Prop :=
  (∀ r, DroppingOn s r) ∧ (W .dropped → Quiet s)

structure Closing (W : DarcMode → Prop) (s : State P) : Prop where
  notSolo : ∀ p t, s.task p = some t → t.pc ≠ .soloTest ∧ t.pc ≠ .soloStore
  modes : ∀ p r, r ≠ p → s.modes p r = .dropped → DroppingOn s r
  waits : ∀ p t, s.task p = some t → t.state = .dropped → ∀ todo, t.pc = .waitModes todo →
    ∀ q, q ∉ todo → q ≠ p → s.modes p q = .dropped
  all : ∀ p t, s.task p = some t → t.state = .dropped → t.pc = .await .final ∨ t.pc.Ending →
    AllDropping W s
  ending : ∀ p t, s.task p = some t → t.pc.Ending → t.state = .dropped

section

variable {W : DarcMode → Prop}

theorem AllDropping.opStep {a : Action P} (h : AllDropping W s) (hc : Careful W s a)
    (hs : OpStep s a s') : AllDropping W s' := by
  refine ⟨fun r => (h.1 r).opStep hs, fun hW => ?_⟩
  refine (h.2 hW).opStep (fun p g hact hvalid => ?_) hs
  obtain ⟨u, hu, hstate, hpc⟩ := h.1 p
  subst hact
  exact hc u hu (hstate ▸ hW) hpc.pastTest hvalid ((h.2 hW).1 p).1

theorem AllDropping.taskStep (h : AllDropping W s) (ht : s.task p = some t)
    (hs : TaskStep s p t s') : AllDropping W s' := by
  refine ⟨fun r => (h.1 r).taskStep ht hs, fun hW => ?_⟩
  obtain ⟨u, hu, hstate, _⟩ := h.1 p
  rw [ht, Option.some_inj] at hu
  subst hu
  rcases taskStep_task ht hs with ⟨_, _, _, hhandles, _⟩ | ⟨hconv, _⟩
  · exact (h.2 hW).taskStep hs hhandles
  · exact absurd hstate hconv

/-- All modes are `Dropped`, so everybody drops, and the last round has found all quiet. -/
theorem allDropping_of_waited (hS : Sound W s) (hC : Closing W s) (ht : s.task p = some t)
    (hstate : t.state = .dropped) (hpc : t.pc = .waitModes ∅) : AllDropping W s := by
  have hall : ∀ r, DroppingOn s r := by
    intro r
    by_cases hrp : r = p
    · subst hrp
      exact ⟨t, ht, hstate, by simp [hpc, Pc.Exited]⟩
    · exact hC.modes p r hrp (hC.waits p t ht hstate ∅ hpc r (by simp) hrp)
  refine ⟨hall, fun hW => ?_⟩
  have hlocal := hS.aligned.busy p t ht
  simp only [LocalOk, hpc] at hlocal
  have hphase := hS.detect p (hS.aligned.passed p (Aligned.not_waiting ht (by simp [hpc])))
  rw [hlocal.1] at hphase
  rcases hphase with ⟨r, u, hu, hnot⟩ | hquiet | hagain
  · obtain ⟨u', hu', hstate', _⟩ := hall r
    rw [hu, Option.some_inj] at hu'
    subst hu'
    exact absurd (hstate' ▸ hW) hnot
  · exact hquiet
  · exact absurd hagain hlocal.2.2

theorem Closing.opStep {a : Action P} (h : Closing W s) (hc : Careful W s a)
    (hs : OpStep s a s') : Closing W s' := by
  have hmodes : ∀ p r, r ≠ p → s'.modes p r = s.modes p r := by
    intro p r hrp
    cases hs
    case launch q _ _ _ _ =>
      exact update₂_of_ne _ _ (by
        by_contra hboth
        simp only [not_or, not_not] at hboth
        exact hrp (hboth.2.trans hboth.1.symm))
    all_goals rfl
  have htasks : ∀ {Q : Fin P → Task P → Prop}, (∀ r m, Q r (Task.new m)) →
      (∀ r u, s.task r = some u → Q r u) → ∀ r u, s'.task r = some u → Q r u := by
    intro Q hnew hold
    rcases opStep_task hs with htask | ⟨p, m, _, htask⟩
    · rw [htask]
      exact hold
    · refine forall_task_update htask (fun u hu => ?_) (fun r u _ hr => hold r u hr)
      cases hu
      exact hnew p m
  constructor
  · exact htasks (fun r m => by simp [Task.new]) h.notSolo
  · intro p r hrp hmode
    rw [hmodes p r hrp] at hmode
    exact (h.modes p r hrp hmode).opStep hs
  · refine htasks (fun r m _ todo hpc => by simp [Task.new] at hpc) ?_
    intro r u hr hstate todo hpc q hq hqr
    rw [hmodes r q hqr]
    exact h.waits r u hr hstate todo hpc q hq hqr
  · refine htasks (fun r m _ hpc => by simp [Task.new, Pc.Ending] at hpc) ?_
    intro r u hr hstate hpc
    exact (h.all r u hr hstate hpc).opStep hc hs
  · exact htasks (fun r m hpc => by simp [Task.new, Pc.Ending] at hpc) h.ending

/-- The task of `p` after its step has waited for the modes it needs. -/
theorem Closing.waits_taskStep (h : Closing W s) (ht : s.task p = some t)
    (hs : TaskStep s p t s') (ht' : s'.task p = some t') (hstate : t.state = .dropped)
    {todo : Finset (Fin P)} (hpc : t'.pc = .waitModes todo) {q : Fin P} (hq : q ∉ todo)
    (hqp : q ≠ p) : s.modes p q = .dropped := by
  cases hs
  case returnFinal => simp [State.returned] at ht'
  case soloReturn => simp [State.returned] at ht'
  case spin =>
    change s.task p = some t' at ht'
    rw [ht, Option.some_inj] at ht'
    subst ht'
    exact h.waits p t ht hstate todo hpc q hq hqp
  all_goals
    simp only [State.setTask, State.enter, State.called, State.putRef, State.putId,
      State.putMode, State.sendFinished, Function.update_self, Option.some_inj] at ht'
    subst ht'
  case modesPut =>
    cases hpc
    simp at hq
  case waitMode q' todo' hpc' _ hmode =>
    cases hpc
    by_cases hqq : q = q'
    · subst hqq
      exact hmode.trans hstate
    · exact h.waits p t ht hstate todo' hpc' q
        (fun hmem => hq (Finset.mem_erase.mpr ⟨hqq, hmem⟩)) hqp
  all_goals simp [Task.head] at hpc

theorem Closing.taskStep (h : Closing W s) (hS : Sound W s) (hP : P ≠ 1)
    (ht : s.task p = some t) (hs : TaskStep s p t s') : Closing W s' := by
  have htask := taskStep_task_eq ht hs
  constructor
  · refine forall_task_update htask (fun t' ht' => ?_) (fun r u _ hr => h.notSolo r u hr)
    have hsolo := h.notSolo p t ht
    cases hs
    case startSolo hP' => exact absurd hP' hP
    case soloTest hpc _ => exact absurd hpc hsolo.1
    case soloStore hpc _ => exact absurd hpc hsolo.2
    case returnFinal => simp [State.returned] at ht'
    case soloReturn => simp [State.returned] at ht'
    case spin =>
      change s.task p = some t' at ht'
      rw [ht, Option.some_inj] at ht'
      exact ht' ▸ hsolo
    all_goals
      simp only [State.setTask, State.enter, State.called, State.putRef, State.putId,
        State.putMode, State.sendFinished, Function.update_self, Option.some_inj] at ht'
      subst ht'
      simp [Task.head]
  · intro q r hrq hmode
    rcases taskStep_modes hs q r with hsame | ⟨rfl, hput, hq⟩
    · exact (h.modes q r hrq (hsame ▸ hmode)).taskStep ht hs
    · obtain ⟨todo, hpc⟩ := hq.resolve_left (Ne.symm hrq)
      have hon : DroppingOn s r := ⟨t, ht, hput ▸ hmode, by simp [hpc, Pc.Exited]⟩
      exact hon.taskStep ht hs
  · -- who has written `Dropped` writes nothing else
    have hkept : ∀ x q, q ≠ x → s.modes x q = .dropped → s'.modes x q = .dropped := by
      intro x q hqx hmode
      rcases taskStep_modes hs x q with hsame | ⟨rfl, hput, _⟩
      · rw [hsame, hmode]
      · obtain ⟨u, hu, hdrop, _⟩ := h.modes x q hqx hmode
        rw [ht, Option.some_inj] at hu
        rw [hput, hu, hdrop]
    refine forall_task_update htask (fun t' ht' hdrop todo hpc q hq hqp => ?_)
      (fun r u _ hr hdrop todo hpc q hq hqr => ?_)
    · rw [taskStep_state ht hs ht'] at hdrop
      exact hkept p q hqp (h.waits_taskStep ht hs ht' hdrop hpc hq hqp)
    · exact hkept r q hqr (h.waits r u hr hdrop todo hpc q hq hqr)
  · refine forall_task_update htask (fun t' ht' hdrop hpc => ?_)
      (fun r u _ hr hdrop hpc => (h.all r u hr hdrop hpc).taskStep ht hs)
    rw [taskStep_state ht hs ht'] at hdrop
    obtain ⟨_, hending, hfinal, _⟩ := taskStep_ending ht hs ht'
    have hall : AllDropping W s := by
      rcases hpc with hpc | hpc
      · exact allDropping_of_waited hS h ht hdrop (hfinal hpc)
      · rcases hending hpc with hpc' | ⟨_, hpc' | hpc'⟩
        · exact h.all p t ht hdrop (Or.inr hpc')
        · exact h.all p t ht hdrop (Or.inl hpc')
        · exact absurd hpc' (h.notSolo p t ht).2
    exact hall.taskStep ht hs
  · refine forall_task_update htask (fun t' ht' hpc => ?_) (fun r u _ hr => h.ending r u hr)
    rw [taskStep_state ht hs ht']
    rcases (taskStep_ending ht hs ht').2.1 hpc with hpc' | ⟨hdrop, _⟩
    · exact h.ending p t ht hpc'
    · exact hdrop

theorem Closing.step {a : Action P} (h : Closing W s) (hS : Sound W s) (hP : P ≠ 1)
    (ha : StartsAlone s a) (hc : Careful W s a) (hs : s.step a = some s') : Closing W s' := by
  rcases hS.owned.single.cases ha hs with hop | ⟨p, q, t, _, ht, htask⟩
  · exact h.opStep hc hop
  · exact h.taskStep hS hP ht htask

theorem Closing.init (hs : Initial s) : Closing W s := by
  obtain ⟨mode, garbage, hmode, rfl⟩ := hs
  constructor
  · intro p t ht
    cases ht
  · exact fun p r _ hdrop => absurd hdrop hmode
  · intro p t ht
    cases ht
  · intro p t ht
    cases ht
  · intro p t ht
    cases ht

end

end Lamellar.Darc
