import Lamellar.Batching.Transfer

/-!
# Every message is sent once

Once no further call comes in, every run of the calls and tasks ends, and then each message
has been sent in exactly one buffer. Up to then a batch that is not empty has a task with its
`batch_id`, or a call that is about to submit one.
-/

namespace Lamellar.Batching

variable {M B : Type} {I : Inner M B} {s s' : State M B}

/-- The steps of the calls and tasks that are there. -/
def Action.Internal : Action M → Prop
  | .call _ | .mark => False
  | .callStep _ | .taskStep _ => True

/-! ## The work that is left -/

def Call.work (c : Call M) : ℕ :=
  match c.pc with
  | .start => 12
  | .add => 11
  | .first => 10
  | .loaded _ => 9
  | .full => 3
  | .returned => 0

/-- A task that finds the stall mark changed goes round its loop once. -/
def Task.work (stallMark : UInt64) (t : Task M B) : ℕ :=
  match t.pc with
  | .stall => if t.stallMark ≠ stallMark then 8 else 4
  | .size => 7
  | .id => 6
  | .update => 5
  | .final => 3
  | .swap => 2
  | .send _ => 1
  | .done | .panicked => 0

def Call.starting (c : Call M) : Bool := c.pc = .start

def Call.open (c : Call M) : Bool := c.pc ≠ .returned

namespace State

/-- A call may change the stall mark when it starts, and send each task of the others through
its loop again. -/
def work (s : State M B) : ℕ :=
  s.calls.countP Call.starting * (4 * (s.tasks.length + s.calls.countP Call.open) + 1) +
    (s.calls.map Call.work).sum + (s.tasks.map (Task.work s.stallMark)).sum

end State

theorem Task.work_le (m m' : UInt64) (t : Task M B) : t.work m' ≤ t.work m + 4 := by
  unfold Task.work
  split <;> first | omega | (split <;> split <;> omega)

theorem sum_work_le (m m' : UInt64) (ts : List (Task M B)) :
    (ts.map (Task.work m')).sum ≤ (ts.map (Task.work m)).sum + 4 * ts.length := by
  induction ts with
  | nil => simp
  | cons t ts ih =>
    have hle := t.work_le m m'
    simp only [List.map_cons, List.sum_cons, List.length_cons]
    omega

/-- A step of a call after its start, with the tasks that it submits. -/
theorem work_setCall {k : ℕ} {c : Call M} (hk : s.calls[k]? = some c) (c' : Call M)
    (ts : List (Task M B)) (hpc : c.pc ≠ .start) (hpc' : c'.pc ≠ .start) (hopen : c.open = true)
    (hts : ts.length + (if c'.open then 1 else 0) ≤ 1)
    (hlt : c'.work + (ts.map (Task.work s.stallMark)).sum < c.work) {b : B} {n : ℕ} :
    State.work { s with calls := s.calls.set k c', tasks := s.tasks ++ ts, batch := b, size := n }
      < s.work := by
  have hstarting := Roster.countP_set Call.starting c' hk
  have hopening := Roster.countP_set Call.open c' hk
  have hsum := Roster.sum_map_set Call.work c' hk
  have hold : c.starting = false := by simp [Call.starting, hpc]
  have hnew : c'.starting = false := by simp [Call.starting, hpc']
  rw [hopen] at hopening
  rw [hold, hnew] at hstarting
  simp only [if_true, Bool.false_eq_true, if_false, Nat.add_zero] at hopening hstarting
  simp only [State.work, List.map_append, List.sum_append, List.length_append, hstarting]
  have hmul : s.calls.countP Call.starting *
      (4 * (s.tasks.length + ts.length + (s.calls.set k c').countP Call.open) + 1) ≤
      s.calls.countP Call.starting *
        (4 * (s.tasks.length + s.calls.countP Call.open) + 1) :=
    Nat.mul_le_mul_left _ (by omega)
  omega

theorem work_start {k : ℕ} {c : Call M} (hk : s.calls[k]? = some c) (hpc : c.pc = .start)
    (m : UInt64) : State.work { s.setCall k c .add with stallMark := m } < s.work := by
  have hstarting := Roster.countP_set Call.starting { c with pc := .add } hk
  have hopening := Roster.countP_set Call.open { c with pc := .add } hk
  have hsum := Roster.sum_map_set Call.work { c with pc := .add } hk
  have hwork : c.work = 12 := by simp [Call.work, hpc]
  have hwork' : Call.work { c with pc := .add } = 11 := rfl
  have htasks := sum_work_le s.stallMark m s.tasks
  simp only [Call.starting, Call.open, hpc, decide_true, if_true, ne_eq, reduceCtorEq,
    not_false_eq_true, decide_false, Bool.false_eq_true, if_false, Nat.add_zero,
    Nat.add_right_cancel_iff] at hstarting hopening
  simp only [State.work, State.setCall, ← hstarting, Nat.add_mul, Nat.one_mul]
  have hmul : (s.calls.set k { c with pc := .add }).countP Call.open =
      s.calls.countP Call.open := hopening
  rw [hmul]
  omega

theorem work_callStep {k : ℕ} {c : Call M} (hk : s.calls[k]? = some c)
    (hstep : s.callStep I k c = some s') : s'.work < s.work := by
  have hnil : s.tasks ++ [] = s.tasks := List.append_nil _
  cases hpc : c.pc with
  | start =>
    simp only [State.callStep, hpc, Option.some.injEq] at hstep
    subst hstep
    exact work_start hk hpc _
  | add =>
    simp only [State.callStep, hpc, Option.some.injEq] at hstep
    subst hstep
    have hlt := work_setCall hk { c with pc := .afterAdd s.size } []
      (b := (I.add s.batch c.msg c.size).1) (n := s.size + (I.add s.batch c.msg c.size).2)
      (by simp [hpc]) (by rcases CallPc.afterAdd_cases s.size with h | h | h <;> simp [h])
      (by simp [Call.open, hpc])
      (by rcases CallPc.afterAdd_cases s.size with h | h | h <;> simp [Call.open, h])
      (by rcases CallPc.afterAdd_cases s.size with h | h | h <;> simp [Call.work, h, hpc])
    rwa [hnil] at hlt
  | first =>
    simp only [State.callStep, hpc, Option.some.injEq] at hstep
    subst hstep
    have hlt := work_setCall hk { c with pc := .loaded s.batchId } [] (b := s.batch)
      (n := s.size) (by simp [hpc]) (by simp) (by simp [Call.open, hpc])
      (by simp [Call.open]) (by simp [Call.work, hpc])
    rwa [hnil] at hlt
  | loaded batchId =>
    simp only [State.callStep, hpc, Option.some.injEq] at hstep
    subst hstep
    refine work_setCall hk { c with pc := .returned } _ (by simp [hpc]) (by simp)
      (by simp [Call.open, hpc]) (by simp [Call.open]) ?_
    simp only [Call.work, hpc, List.map_cons, List.map_nil, List.sum_cons, List.sum_nil,
      Task.work]
    split <;> omega
  | full =>
    simp only [State.callStep, hpc, Option.some.injEq] at hstep
    subst hstep
    exact work_setCall hk { c with pc := .returned } _ (by simp [hpc]) (by simp)
      (by simp [Call.open, hpc]) (by simp [Call.open]) (by simp [Call.work, Task.work, hpc])
  | returned => simp [State.callStep, hpc] at hstep

theorem work_setTask {j : ℕ} {t : Task M B} (hj : s.tasks[j]? = some t) (t' : Task M B)
    (hlt : t'.work s.stallMark < t.work s.stallMark) {b : B} {n : ℕ} {id : UInt64}
    {sent : List (Sent M B)} :
    State.work { s with tasks := s.tasks.set j t', batch := b, size := n, batchId := id, sent }
      < s.work := by
  have hsum := Roster.sum_map_set (Task.work s.stallMark) t' hj
  simp only [State.work, List.length_set]
  omega

theorem work_taskStep {j : ℕ} {t : Task M B} (hj : s.tasks[j]? = some t)
    (hstep : s.taskStep I j t = some s') : s'.work < s.work := by
  cases hpc : t.pc with
  | stall =>
    simp only [State.taskStep, hpc, Option.some.injEq] at hstep
    subst hstep
    refine work_setTask hj _ ?_
    by_cases hmark : t.stallMark = s.stallMark <;> simp [Task.work, hpc, hmark]
  | size =>
    simp only [State.taskStep, hpc, Option.some.injEq] at hstep
    subst hstep
    refine work_setTask hj _ ?_
    by_cases hsize : s.size < maxBatchSize <;> simp [Task.work, hpc, hsize]
  | id =>
    simp only [State.taskStep, hpc, Option.some.injEq] at hstep
    subst hstep
    refine work_setTask hj _ ?_
    by_cases hid : t.batchId = some s.batchId <;> simp [Task.work, hpc, hid]
  | update =>
    simp only [State.taskStep, hpc, Option.some.injEq] at hstep
    subst hstep
    exact work_setTask hj _ (by simp [Task.work, hpc])
  | final =>
    simp only [State.taskStep, hpc, Option.some.injEq] at hstep
    subst hstep
    refine work_setTask hj _ ?_
    by_cases hid : t.batchId = some s.batchId <;> simp [Task.work, hpc, hid]
  | swap =>
    simp only [State.taskStep, hpc, Option.some.injEq] at hstep
    subst hstep
    refine work_setTask hj _ ?_
    by_cases hsize : s.size > 0 <;> simp [Task.work, hpc, hsize]
  | send buf =>
    simp only [State.taskStep, hpc] at hstep
    split at hstep
    all_goals
      cases hstep
      exact work_setTask hj _ (by simp [Task.work, hpc])
  | done => simp [State.taskStep, hpc] at hstep
  | panicked => simp [State.taskStep, hpc] at hstep

theorem work_step {a : Action M} (ha : a.Internal) (hstep : s.step I a = some s') :
    s'.work < s.work := by
  cases a with
  | call c => exact ha.elim
  | mark => exact ha.elim
  | callStep k =>
    simp only [State.step] at hstep
    split at hstep
    · exact work_callStep ‹_› hstep
    · cases hstep
  | taskStep j =>
    simp only [State.step] at hstep
    split at hstep
    · exact work_taskStep ‹_› hstep
    · cases hstep

/-! ## The end of a run -/

/-- No call or task can take a step. -/
def State.Stopped (I : Inner M B) (s : State M B) : Prop :=
  ∀ a : Action M, a.Internal → s.step I a = none

theorem State.Stopped.call_returned (h : s.Stopped I) {c : Call M} (hc : c ∈ s.calls) :
    c.pc = .returned := by
  obtain ⟨k, hk⟩ := List.mem_iff_getElem?.mp hc
  have hnone := h (.callStep k) trivial
  simp only [State.step, hk, State.callStep] at hnone
  split at hnone
  all_goals first | assumption | cases hnone

theorem State.Stopped.task_done (h : s.Stopped I) (hinv : Inv I s) {t : Task M B}
    (ht : t ∈ s.tasks) : t.pc = .done := by
  obtain ⟨j, hj⟩ := List.mem_iff_getElem?.mp ht
  have hnone := h (.taskStep j) trivial
  have hpanicked := hinv.not_panicked t ht
  simp only [State.step, hj, State.taskStep] at hnone
  cases hpc : t.pc with
  | done => rfl
  | panicked => exact absurd hpc hpanicked
  | send buf =>
    simp only [hpc] at hnone
    split at hnone <;> cases hnone
  | _ => simp [hpc] at hnone

/-- Once no step is left, all messages of the calls are in the buffers that were sent. -/
theorem State.Stopped.sent (h : s.Stopped I) (hinv : Inv I s) :
    s.msgs.Perm (s.sentMessages I) := by
  have hadded : s.added = s.msgs := by
    rw [State.added, State.msgs, List.map_eq_flatMap]
    refine List.flatMap_congr ?_
    intro c hc
    simp [Call.added, h.call_returned hc]
  have hheld : s.held I = [] := by
    refine List.flatMap_eq_nil_iff.mpr ?_
    intro t ht
    simp [Task.held, h.task_done hinv ht]
  have hbatch : I.messages s.batch = [] := by
    by_contra hne
    rcases hinv.covered hne with ⟨t, ht, -, hwaiting⟩ | ⟨c, hc, hpc⟩
    · simp [h.task_done hinv ht, TaskPc.waiting] at hwaiting
    · simp [h.call_returned hc] at hpc
  have hconserved := hinv.conserved
  rwa [hadded, hheld, hbatch] at hconserved

/-- Each added message is in one place; a batch that is not empty has a task with its
`batch_id`, or a call that is about to submit one; and once no further call comes in, every
run ends, with each message sent once. -/
structure Kept (I : Inner M B) (s : State M B) : Prop where
  conserved : s.added.Perm (I.messages s.batch ++ s.held I ++ s.sentMessages I)
  covered : I.messages s.batch ≠ [] → s.HasTask ∨ s.HasCall
  ends : ∀ as s', (∀ a ∈ as, a.Internal) → Transition.run (State.step I) s as = some s' →
    as.length ≤ s.work ∧ (s'.Stopped I → s'.msgs.Perm (s'.sentMessages I))

end Lamellar.Batching
