import Lamellar.Batching.Batch
import Lamellar.Lib.Roster
import Lamellar.Lib.Transition

/-!
# Adding to a batch and transferring it: `add_*_to_batch` and `create_tx_task`

A call adds its message under the lock of the batch and gets the old `size` back. If that is
zero, it loads the `batch_id` and submits a task, which waits until the stall mark stays the
same, the batch is full or another task has taken the batch; then, if the `batch_id` is still
its own, it swaps the batch for an empty one, writes its messages into a buffer and sends it.
A call that has found the batch full submits a task that swaps at once.

The four calls of the two batchers differ only in the message and its size. Each access to
an atomic is a step, and so are `add` and `swap`, which hold the lock. The stall mark is
shared with the other batches of the PE: `mark` is a change from there.
-/

namespace Lamellar.Batching

def maxBatchSize : ℕ := 1000000

/-- The arguments of a call -/
structure NewCall (M : Type) where
  msg : M
  size : ℕ
  stallMark : UInt64

section Calls

variable {A D R : Type}

def addRemoteAmToBatch (req : ReqMetaData) (am : A) (amId : AmId) (amSize : ℕ)
    (stallMark : UInt64) : NewCall (Message A D R) :=
  ⟨⟨req, .am am amId⟩, amSize, stallMark⟩

def addReturnAmToBatch (req : ReqMetaData) (am : A) (amId : AmId) (amSize : ℕ)
    (stallMark : UInt64) : NewCall (Message A D R) :=
  ⟨⟨req, .ret am amId⟩, amSize, stallMark⟩

/-- `darcs` comes from `data.ser`, and the last size from `serialized_size(&darcs)`. -/
def addDataAmToBatch (req : ReqMetaData) (data : D) (dataSize : ℕ) (darcs : List R)
    (darcListSize : ℕ) (stallMark : UInt64) : NewCall (Message A D R) :=
  ⟨⟨req, .data data darcs darcListSize⟩, dataSize, stallMark⟩

def addUnitAmToBatch (req : ReqMetaData) (stallMark : UInt64) : NewCall (Message A D R) :=
  ⟨⟨req, .unit⟩, 0, stallMark⟩

end Calls

inductive CallPc where
  /-- Before the test of `stall_mark` -/
  | start
  | add
  /-- The old size was zero; before the load of `batch_id` -/
  | first
  | loaded (batchId : UInt64)
  /-- The old size was `MAX_BATCH_SIZE` or more. -/
  | full
  | returned
  deriving DecidableEq

/-- Where a call goes on that has got the old size from `add`. -/
def CallPc.afterAdd (size : ℕ) : CallPc :=
  if size = 0 then .first else if size ≥ maxBatchSize then .full else .returned

theorem CallPc.afterAdd_cases (size : ℕ) :
    afterAdd size = .first ∨ afterAdd size = .full ∨ afterAdd size = .returned := by
  unfold afterAdd
  split
  · exact Or.inl rfl
  · split
    · exact Or.inr (Or.inl rfl)
    · exact Or.inr (Or.inr rfl)

structure Call (M : Type) extends NewCall M where
  pc : CallPc

inductive TaskPc (B : Type) where
  -- The conditions of the loop, in their order
  | stall
  | size
  | id
  | update
  /-- After the loop -/
  | final
  | swap
  | send (buf : B)
  | done
  /-- `buf[0]` out of bounds -/
  | panicked

structure Task (M B : Type) where
  /-- The message of the call that has submitted the task -/
  msg : M
  /-- None for an immediate task -/
  batchId : Option UInt64
  stallMark : UInt64
  pc : TaskPc B

/-- A buffer with the messages of `buf`, sent to the team of the request of `route`. -/
structure Sent (M B : Type) where
  buf : B
  route : M

structure State (M B : Type) where
  batch : B
  size : ℕ
  batchId : UInt64
  stallMark : UInt64
  calls : List (Call M)
  tasks : List (Task M B)
  sent : List (Sent M B)

inductive Action (M : Type) where
  | call (c : NewCall M)
  | mark
  | callStep (k : ℕ)
  | taskStep (j : ℕ)

variable {M B : Type} (I : Inner M B)

namespace State

def new : State M B where
  batch := I.empty
  size := 0
  batchId := 0
  stallMark := 0
  calls := []
  tasks := []
  sent := []

def setCall (s : State M B) (k : ℕ) (c : Call M) (pc : CallPc) : State M B :=
  { s with calls := s.calls.set k { c with pc } }

def setTask (s : State M B) (j : ℕ) (t : Task M B) (pc : TaskPc B) : State M B :=
  { s with tasks := s.tasks.set j { t with pc } }

/-- One step of call `k`, which is `c`. -/
def callStep (s : State M B) (k : ℕ) (c : Call M) : Option (State M B) :=
  match c.pc with
  | .start =>
    let stallMark := if c.stallMark = 0 then s.stallMark + 1 else s.stallMark
    some { s.setCall k c .add with stallMark }
  | .add =>
    let added := I.add s.batch c.msg c.size
    some { s.setCall k c (.afterAdd s.size) with batch := added.1, size := s.size + added.2 }
  | .first => some (s.setCall k c (.loaded s.batchId))
  | .loaded batchId =>
    some { s.setCall k c .returned with
      tasks := s.tasks ++ [⟨c.msg, some batchId, c.stallMark, .stall⟩] }
  | .full =>
    some { s.setCall k c .returned with
      tasks := s.tasks ++ [⟨c.msg, none, c.stallMark, .swap⟩] }
  | .returned => none

/-- One step of task `j`, which is `t`. -/
def taskStep (s : State M B) (j : ℕ) (t : Task M B) : Option (State M B) :=
  match t.pc with
  | .stall => some (s.setTask j t (if t.stallMark ≠ s.stallMark then .size else .final))
  | .size => some (s.setTask j t (if s.size < maxBatchSize then .id else .final))
  | .id => some (s.setTask j t (if t.batchId = some s.batchId then .update else .final))
  | .update => some (s.setTask j { t with stallMark := s.stallMark } .stall)
  | .final => some (s.setTask j t (if t.batchId = some s.batchId then .swap else .done))
  | .swap =>
    some { s.setTask j t (if s.size > 0 then .send s.batch else .done) with
      batch := I.empty, size := 0, batchId := s.batchId + 1 }
  | .send buf =>
    match I.route buf t.msg with
    | some route => some { s.setTask j t .done with sent := s.sent ++ [⟨buf, route⟩] }
    | none => some (s.setTask j t .panicked)
  | .done | .panicked => none

def step (s : State M B) : Action M → Option (State M B)
  | .call c => some { s with calls := s.calls ++ [⟨c, .start⟩] }
  | .mark => some { s with stallMark := s.stallMark + 1 }
  | .callStep k =>
    match s.calls[k]? with
    | some c => s.callStep I k c
    | none => none
  | .taskStep j =>
    match s.tasks[j]? with
    | some t => s.taskStep I j t
    | none => none

end State

/-- The states of all runs. -/
abbrev Reachable : State M B → Prop :=
  Transition.Reach (· = State.new I) (State.step I) fun _ _ => True

/-! ## The messages of a state -/

/-- The message of a call, once it has been added. -/
def Call.added (c : Call M) : List M :=
  match c.pc with
  | .start | .add => []
  | .first | .loaded _ | .full | .returned => [c.msg]

/-- The messages that the task has taken from the batch and not sent yet. -/
def Task.held (t : Task M B) : List M :=
  match t.pc with
  | .send buf => I.messages buf
  | .stall | .size | .id | .update | .final | .swap | .done | .panicked => []

/-- The task has not swapped a batch yet. -/
def TaskPc.waiting : TaskPc B → Bool
  | .stall | .size | .id | .update | .final | .swap => true
  | .send _ | .done | .panicked => false

namespace State

def msgs (s : State M B) : List M := s.calls.map fun c => c.msg

def added (s : State M B) : List M := s.calls.flatMap Call.added

def held (s : State M B) : List M := s.tasks.flatMap (Task.held I)

def sentMessages (s : State M B) : List M := s.sent.flatMap fun b => I.messages b.buf

/-- A transfer task that is to swap the current batch: one with its `batch_id`. -/
def HasTask (s : State M B) : Prop :=
  ∃ t ∈ s.tasks, t.batchId = some s.batchId ∧ t.pc.waiting = true

/-- A call that has found the batch empty and not submitted its task yet: that task will have
the current `batch_id`. -/
def HasCall (s : State M B) : Prop := ∃ c ∈ s.calls, c.pc = .first ∨ c.pc = .loaded s.batchId

end State

/-- What holds between the steps. -/
structure Inv (s : State M B) : Prop where
  size_eq_zero : s.size = 0 ↔ I.messages s.batch = []
  conserved : s.added.Perm (I.messages s.batch ++ s.held I ++ s.sentMessages I)
  covered : I.messages s.batch ≠ [] → s.HasTask ∨ s.HasCall
  send_ne_nil : ∀ t ∈ s.tasks, ∀ buf, t.pc = .send buf → I.messages buf ≠ []
  not_panicked : ∀ t ∈ s.tasks, t.pc ≠ .panicked

variable {I} {s s' : State M B}

theorem Task.held_of_not_send {t : Task M B} (h : ∀ buf, t.pc ≠ .send buf) : t.held I = [] := by
  unfold Task.held
  split
  · rename_i buf hpc
    exact absurd hpc (h buf)
  all_goals rfl

/-- A step of a task before its swap, or its end. -/
theorem Inv.setTask (h : Inv I s) {j : ℕ} {t t' : Task M B} (hj : s.tasks[j]? = some t)
    (hpc : ∀ buf, t.pc ≠ .send buf) (hpc' : t'.pc.waiting = true ∨ t'.pc = .done)
    (hkeep : t.batchId = some s.batchId ∧ t.pc.waiting = true →
      t'.batchId = some s.batchId ∧ t'.pc.waiting = true) :
    Inv I { s with tasks := s.tasks.set j t' } := by
  classical
  have hnot : ∀ buf, t'.pc ≠ .send buf := by
    intro buf heq
    simp [heq, TaskPc.waiting] at hpc'
  have hnotPanicked : t'.pc ≠ .panicked := by
    intro heq
    simp [heq, TaskPc.waiting] at hpc'
  refine ⟨h.size_eq_zero, ?_, ?_, ?_, ?_⟩
  · rw [List.perm_iff_count]
    intro x
    have hx := List.perm_iff_count.mp h.conserved x
    have hset := Roster.count_flatMap_set (Task.held I) x t' hj
    rw [Task.held_of_not_send hpc, Task.held_of_not_send hnot] at hset
    simp only [List.count_append, State.held, State.added, State.sentMessages,
      List.count_nil, Nat.add_zero] at hx hset ⊢
    rw [hx, hset]
  · intro hne
    rcases h.covered hne with htask | hcall
    · exact Or.inl (Roster.exists_set htask hj hkeep)
    · exact Or.inr hcall
  · intro u hu buf hsend
    rcases List.mem_or_eq_of_mem_set hu with hu | rfl
    · exact h.send_ne_nil u hu buf hsend
    · exact absurd hsend (hnot buf)
  · intro u hu
    rcases List.mem_or_eq_of_mem_set hu with hu | rfl
    · exact h.not_panicked u hu
    · exact hnotPanicked

/-- A step of a call other than `add`, with the task that it submits. -/
theorem Inv.setCall (h : Inv I s) {k : ℕ} {c : Call M} (hk : s.calls[k]? = some c)
    (c' : Call M) (ts : List (Task M B)) (stallMark : UInt64) (hadded : c'.added = c.added)
    (hts : ∀ t ∈ ts, t.pc = .stall ∨ t.pc = .swap)
    (hkeep : c.pc = .first ∨ c.pc = .loaded s.batchId →
      (c'.pc = .first ∨ c'.pc = .loaded s.batchId) ∨
        ∃ t ∈ ts, t.batchId = some s.batchId ∧ t.pc.waiting = true) :
    Inv I { s with calls := s.calls.set k c', tasks := s.tasks ++ ts, stallMark } := by
  classical
  have hheld : ts.flatMap (Task.held I) = [] := by
    refine List.flatMap_eq_nil_iff.mpr ?_
    intro t ht
    refine Task.held_of_not_send ?_
    intro buf heq
    rcases hts t ht with hpc | hpc <;> simp [hpc] at heq
  refine ⟨h.size_eq_zero, ?_, ?_, ?_, ?_⟩
  · rw [List.perm_iff_count]
    intro x
    have hx := List.perm_iff_count.mp h.conserved x
    have hset := Roster.count_flatMap_set Call.added x c' hk
    rw [hadded] at hset
    simp only [List.count_append, State.held, State.added, State.sentMessages,
      List.flatMap_append, hheld, List.append_nil] at hx hset ⊢
    omega
  · intro hne
    rcases h.covered hne with ⟨t, ht, hid⟩ | ⟨d, hd, hpc⟩
    · exact Or.inl ⟨t, List.mem_append_left _ ht, hid⟩
    · obtain ⟨i, hi⟩ := List.mem_iff_getElem?.mp hd
      by_cases hki : k = i
      · subst hki
        rw [hk] at hi
        cases hi
        rcases hkeep hpc with hpc' | ⟨t, ht, hid⟩
        · exact Or.inr ⟨c', List.mem_set (List.getElem?_eq_some_iff.mp hk).1 c', hpc'⟩
        · exact Or.inl ⟨t, List.mem_append_right _ ht, hid⟩
      · exact Or.inr ⟨d, List.mem_of_getElem? ((List.getElem?_set_ne hki).trans hi), hpc⟩
  · intro t ht buf hsend
    rcases List.mem_append.mp ht with ht | ht
    · exact h.send_ne_nil t ht buf hsend
    · rcases hts t ht with hpc | hpc <;> simp [hpc] at hsend
  · intro t ht
    rcases List.mem_append.mp ht with ht | ht
    · exact h.not_panicked t ht
    · rcases hts t ht with hpc | hpc <;> simp [hpc]

/-- `add` puts the message of the call into the batch; the first one makes its call load the
`batch_id`. -/
theorem Inv.add (h : Inv I s) {k : ℕ} {c : Call M} (hk : s.calls[k]? = some c)
    (hpc : c.pc = .add) (hstep : s.callStep I k c = some s') : Inv I s' := by
  classical
  simp only [State.callStep, hpc, Option.some.injEq] at hstep
  subst hstep
  have hperm := I.messages_add s.batch c.msg c.size
  have hne : I.messages (I.add s.batch c.msg c.size).1 ≠ [] := by
    intro hnil
    rw [hnil] at hperm
    exact List.cons_ne_nil _ _ hperm.nil_eq.symm
  have hpos := I.add_pos s.batch c.msg c.size
  refine ⟨?_, ?_, ?_, h.send_ne_nil, h.not_panicked⟩
  · exact ⟨fun hz => absurd hz (by dsimp only [State.setCall]; omega), fun hnil => absurd hnil hne⟩
  · rw [List.perm_iff_count]
    intro x
    have hx := List.perm_iff_count.mp h.conserved x
    have hbatch := List.perm_iff_count.mp hperm x
    have hset := Roster.count_flatMap_set Call.added x { c with pc := .afterAdd s.size } hk
    have hold : c.added = [] := by simp [Call.added, hpc]
    have hnew : Call.added { c with pc := .afterAdd s.size } = [c.msg] := by
      rcases CallPc.afterAdd_cases s.size with h | h | h <;> simp [Call.added, h]
    rw [hold, hnew] at hset
    rw [List.count_cons] at hbatch
    simp only [List.count_append, State.held, State.added, State.sentMessages, State.setCall,
      List.count_nil, List.count_cons] at hx hset ⊢
    omega
  · intro _
    by_cases hsize : s.size = 0
    · refine Or.inr ⟨_, List.mem_set (List.getElem?_eq_some_iff.mp hk).1 _, Or.inl ?_⟩
      exact if_pos hsize
    · have hbatch : I.messages s.batch ≠ [] := fun hnil => hsize (h.size_eq_zero.mpr hnil)
      rcases h.covered hbatch with htask | hcall
      · exact Or.inl htask
      · refine Or.inr (Roster.exists_set hcall hk ?_)
        intro hfirst
        simp [hpc] at hfirst

theorem Inv.callStep (h : Inv I s) {k : ℕ} {c : Call M} (hk : s.calls[k]? = some c)
    (hstep : s.callStep I k c = some s') : Inv I s' := by
  have hnil : s.tasks ++ [] = s.tasks := List.append_nil _
  cases hpc : c.pc with
  | start =>
    simp only [State.callStep, hpc, Option.some.injEq] at hstep
    subst hstep
    have hinv := h.setCall hk { c with pc := .add } []
      (if c.stallMark = 0 then s.stallMark + 1 else s.stallMark) (by simp [Call.added, hpc])
      (by simp) (by simp [hpc])
    rwa [hnil] at hinv
  | add => exact h.add hk hpc hstep
  | first =>
    simp only [State.callStep, hpc, Option.some.injEq] at hstep
    subst hstep
    have hinv := h.setCall hk { c with pc := .loaded s.batchId } [] s.stallMark
      (by simp [Call.added, hpc]) (by simp) (by simp)
    rwa [hnil] at hinv
  | loaded batchId =>
    simp only [State.callStep, hpc, Option.some.injEq] at hstep
    subst hstep
    refine h.setCall hk { c with pc := .returned } _ _ (by simp [Call.added, hpc]) (by simp) ?_
    intro hloaded
    simp only [hpc, reduceCtorEq, CallPc.loaded.injEq, false_or] at hloaded
    exact Or.inr ⟨_, List.mem_singleton_self _, congrArg some hloaded, rfl⟩
  | full =>
    simp only [State.callStep, hpc, Option.some.injEq] at hstep
    subst hstep
    exact h.setCall hk { c with pc := .returned } _ _ (by simp [Call.added, hpc]) (by simp)
      (by simp [hpc])
  | returned => simp [State.callStep, hpc] at hstep

/-- The swap leaves an empty batch with the next `batch_id`. -/
theorem Inv.swap (h : Inv I s) {j : ℕ} {t : Task M B} (hj : s.tasks[j]? = some t)
    (hpc : t.pc = .swap) (hstep : s.taskStep I j t = some s') : Inv I s' := by
  classical
  simp only [State.taskStep, hpc, Option.some.injEq] at hstep
  subst hstep
  have hmessages : I.messages I.empty = [] := I.messages_empty
  have hold : t.held I = [] := by simp [Task.held, hpc]
  have hnew : Task.held I { t with pc := if s.size > 0 then .send s.batch else .done } =
      I.messages s.batch := by
    by_cases hsize : s.size > 0
    · simp [Task.held, hsize]
    · have hnil := h.size_eq_zero.mp (by omega)
      simp [Task.held, hsize, hnil]
  refine ⟨⟨fun _ => hmessages, fun _ => rfl⟩, ?_, ?_, ?_, ?_⟩
  · rw [List.perm_iff_count]
    intro x
    have hx := List.perm_iff_count.mp h.conserved x
    have hset := Roster.count_flatMap_set (Task.held I) x
      { t with pc := if s.size > 0 then .send s.batch else .done } hj
    rw [hold, hnew] at hset
    simp only [List.count_append, State.held, State.added, State.sentMessages, State.setTask,
      hmessages, List.count_nil] at hx hset ⊢
    omega
  · intro hne
    exact absurd hmessages hne
  · intro u hu buf hsend
    rcases List.mem_or_eq_of_mem_set hu with hu | rfl
    · exact h.send_ne_nil u hu buf hsend
    · by_cases hsize : s.size > 0
      · simp only [hsize, if_true, TaskPc.send.injEq] at hsend
        subst hsend
        intro hnil
        have hzero := h.size_eq_zero.mpr hnil
        omega
      · simp [hsize] at hsend
  · intro u hu
    rcases List.mem_or_eq_of_mem_set hu with hu | rfl
    · exact h.not_panicked u hu
    · dsimp only
      split <;> simp

/-- The messages of the buffer are sent; `buf[0]` exists. -/
theorem Inv.send (h : Inv I s) {j : ℕ} {t : Task M B} (hj : s.tasks[j]? = some t) {buf : B}
    (hpc : t.pc = .send buf) (hstep : s.taskStep I j t = some s') : Inv I s' := by
  classical
  have hne := h.send_ne_nil t (List.mem_of_getElem? hj) buf hpc
  obtain ⟨route, hroute⟩ := Option.isSome_iff_exists.mp (I.route_of_ne_nil buf t.msg hne)
  simp only [State.taskStep, hpc, hroute, Option.some.injEq] at hstep
  subst hstep
  refine ⟨h.size_eq_zero, ?_, ?_, ?_, ?_⟩
  · rw [List.perm_iff_count]
    intro x
    have hx := List.perm_iff_count.mp h.conserved x
    have hset := Roster.count_flatMap_set (Task.held I) x { t with pc := .done } hj
    simp only [Task.held, hpc] at hset
    simp only [List.count_append, State.held, State.added, State.sentMessages, State.setTask,
      List.flatMap_append, List.flatMap_cons, List.flatMap_nil, List.count_nil,
      List.append_nil] at hx hset ⊢
    omega
  · intro hbatch
    rcases h.covered hbatch with htask | hcall
    · refine Or.inl (Roster.exists_set htask hj ?_)
      simp [hpc, TaskPc.waiting]
    · exact Or.inr hcall
  · intro u hu buf' hsend
    rcases List.mem_or_eq_of_mem_set hu with hu | rfl
    · exact h.send_ne_nil u hu buf' hsend
    · cases hsend
  · intro u hu
    rcases List.mem_or_eq_of_mem_set hu with hu | rfl
    · exact h.not_panicked u hu
    · simp

theorem Inv.taskStep (h : Inv I s) {j : ℕ} {t : Task M B} (hj : s.tasks[j]? = some t)
    (hstep : s.taskStep I j t = some s') : Inv I s' := by
  cases hpc : t.pc with
  | stall | size | id =>
    simp only [State.taskStep, hpc, Option.some.injEq] at hstep
    subst hstep
    refine h.setTask hj (by simp [hpc]) (Or.inl ?_) fun hid => ⟨hid.1, ?_⟩
    all_goals
      dsimp only
      split <;> rfl
  | update =>
    simp only [State.taskStep, hpc, Option.some.injEq] at hstep
    subst hstep
    exact h.setTask hj (by simp [hpc]) (Or.inl rfl) fun hid => ⟨hid.1, rfl⟩
  | final =>
    simp only [State.taskStep, hpc, Option.some.injEq] at hstep
    subst hstep
    refine h.setTask hj (by simp [hpc]) ?_ fun hid => ⟨hid.1, ?_⟩
    · dsimp only
      split
      · exact Or.inl rfl
      · exact Or.inr rfl
    · simp [hid.1, TaskPc.waiting]
  | swap => exact h.swap hj hpc hstep
  | send buf => exact h.send hj hpc hstep
  | done => simp [State.taskStep, hpc] at hstep
  | panicked => simp [State.taskStep, hpc] at hstep

theorem Inv.step (h : Inv I s) {a : Action M} (hstep : s.step I a = some s') : Inv I s' := by
  cases a with
  | call c =>
    cases hstep
    refine ⟨h.size_eq_zero, ?_, ?_, h.send_ne_nil, h.not_panicked⟩
    · have hadded : State.added { s with calls := s.calls ++ [⟨c, .start⟩] } = s.added := by
        simp [State.added, Call.added]
      rw [hadded]
      exact h.conserved
    · intro hne
      rcases h.covered hne with htask | ⟨d, hd, hpc⟩
      · exact Or.inl htask
      · exact Or.inr ⟨d, List.mem_append_left _ hd, hpc⟩
  | mark =>
    cases hstep
    exact ⟨h.size_eq_zero, h.conserved, h.covered, h.send_ne_nil, h.not_panicked⟩
  | callStep k =>
    simp only [State.step] at hstep
    split at hstep
    · exact h.callStep ‹_› hstep
    · cases hstep
  | taskStep j =>
    simp only [State.step] at hstep
    split at hstep
    · exact h.taskStep ‹_› hstep
    · cases hstep

/-! ## What a step can change -/

/-- Only a task at `send` sends. -/
theorem step_sent {a : Action M} (hstep : s.step I a = some s') :
    s'.sent = s.sent ∨ ∃ j t buf route, a = .taskStep j ∧ s.tasks[j]? = some t ∧
      t.pc = .send buf ∧ I.route buf t.msg = some route ∧ s'.sent = s.sent ++ [⟨buf, route⟩] := by
  cases a with
  | call c =>
    cases hstep
    exact Or.inl rfl
  | mark =>
    cases hstep
    exact Or.inl rfl
  | callStep k =>
    simp only [State.step] at hstep
    split at hstep
    · simp only [State.callStep] at hstep
      split at hstep
      all_goals
        cases hstep
        try exact Or.inl rfl
    · cases hstep
  | taskStep j =>
    simp only [State.step] at hstep
    split at hstep
    · rename_i t hj
      simp only [State.taskStep] at hstep
      split at hstep
      case h_7 buf hpc =>
        split at hstep
        · rename_i route hroute
          cases hstep
          exact Or.inr ⟨j, t, buf, route, rfl, hj, hpc, hroute, rfl⟩
        · cases hstep
          exact Or.inl rfl
      all_goals
        cases hstep
        try exact Or.inl rfl
    · cases hstep

/-- The messages of the calls stay. -/
theorem step_msgs {a : Action M} (ha : ∀ c, a ≠ .call c) (hstep : s.step I a = some s') :
    s'.msgs = s.msgs := by
  have hset : ∀ (k : ℕ) (c : Call M) (pc : CallPc), s.calls[k]? = some c →
      ((s.calls.set k { c with pc }).map fun c => c.msg) = s.calls.map fun c => c.msg := by
    intro k c pc hk
    obtain ⟨hlt, hget⟩ := List.getElem?_eq_some_iff.mp hk
    have hself := List.set_getElem_self (show k < (s.calls.map fun c => c.msg).length by
      simpa using hlt)
    rw [List.getElem_map, hget] at hself
    rw [List.map_set]
    exact hself
  cases a with
  | call c => exact absurd rfl (ha c)
  | mark =>
    cases hstep
    rfl
  | callStep k =>
    simp only [State.step] at hstep
    split at hstep
    · rename_i c hk
      simp only [State.callStep] at hstep
      split at hstep
      all_goals
        cases hstep
        try exact hset k c _ hk
    · cases hstep
  | taskStep j =>
    simp only [State.step] at hstep
    split at hstep
    · simp only [State.taskStep] at hstep
      split at hstep
      case h_7 => split at hstep <;> (cases hstep; rfl)
      all_goals
        cases hstep
        try rfl
    · cases hstep

/-- A task is as before, has just been submitted by a call, or has taken a step; then what it
is to send is the batch that it has swapped out. -/
theorem step_tasks {a : Action M} (hstep : s.step I a = some s') {t : Task M B}
    (ht : t ∈ s'.tasks) :
    t ∈ s.tasks ∨ (∃ c ∈ s.calls, t.msg = c.msg ∧ ∀ buf, t.pc ≠ .send buf) ∨
      ∃ j t₀, a = .taskStep j ∧ s.tasks[j]? = some t₀ ∧ t.msg = t₀.msg ∧
        ∀ buf, t.pc = .send buf → t₀.pc = .swap ∧ buf = s.batch := by
  cases a with
  | call c =>
    cases hstep
    exact Or.inl ht
  | mark =>
    cases hstep
    exact Or.inl ht
  | callStep k =>
    simp only [State.step] at hstep
    split at hstep
    · rename_i c hk
      have hc := List.mem_of_getElem? hk
      simp only [State.callStep] at hstep
      split at hstep
      case h_4 | h_5 =>
        cases hstep
        rcases List.mem_append.mp ht with ht | ht
        · exact Or.inl ht
        · cases List.mem_singleton.mp ht
          exact Or.inr (Or.inl ⟨c, hc, rfl, by simp⟩)
      all_goals
        cases hstep
        try exact Or.inl ht
    · cases hstep
  | taskStep j =>
    simp only [State.step] at hstep
    split at hstep
    · rename_i t₀ hj
      have hset : ∀ t', t ∈ s.tasks.set j t' → t'.msg = t₀.msg →
          (∀ buf, t'.pc = .send buf → t₀.pc = .swap ∧ buf = s.batch) → t ∈ s.tasks ∨
          (∃ c ∈ s.calls, t.msg = c.msg ∧ ∀ buf, t.pc ≠ .send buf) ∨
          ∃ i t₀, Action.taskStep j = (.taskStep i : Action M) ∧ s.tasks[i]? = some t₀ ∧
            t.msg = t₀.msg ∧ ∀ buf, t.pc = .send buf → t₀.pc = .swap ∧ buf = s.batch := by
        intro t' hmem hmsg hsend
        rcases List.mem_or_eq_of_mem_set hmem with hmem | rfl
        · exact Or.inl hmem
        · exact Or.inr (Or.inr ⟨j, t₀, rfl, hj, hmsg, hsend⟩)
      simp only [State.taskStep] at hstep
      split at hstep
      case h_6 hpc =>
        cases hstep
        refine hset _ ht rfl ?_
        intro buf hbuf
        dsimp only at hbuf
        split at hbuf <;> cases hbuf
        exact ⟨hpc, rfl⟩
      case h_7 =>
        split at hstep
        all_goals
          cases hstep
          exact hset _ ht rfl (by simp)
      all_goals
        cases hstep
        try
          refine hset _ ht rfl ?_
          intro buf hbuf
          dsimp only at hbuf
          first | cases hbuf | (split at hbuf <;> cases hbuf)
    · cases hstep

theorem Inv.new : Inv I (State.new I) where
  size_eq_zero := ⟨fun _ => I.messages_empty, fun _ => rfl⟩
  conserved := by
    simp [State.new, State.added, State.held, State.sentMessages, I.messages_empty]
  covered hne := absurd I.messages_empty hne
  send_ne_nil := by simp [State.new]
  not_panicked := by simp [State.new]

end Lamellar.Batching
