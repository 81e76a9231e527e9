import Lamellar.BatchOps.Calls
import Lamellar.BatchOps.Scatter
import Lamellar.Lib.Folds

/-!
# Runs of a batched operation

A call of `initiate_batch_op`, `initiate_batch_fetch_op_2` or `initiate_batch_result_op_2`, while
others work on the array. Its tasks send their requests one after another and then hand their
futures over; a message that has arrived is executed on its PE, where it accesses the elements step
by step among the other executions. When all tasks are done, the call awaits its futures and puts
the results in their places.
-/

namespace Lamellar.BatchOps

open Lamellar.Array ReadModifyWrite

variable {T : Type}

/-- What a call is about -/
structure Batch (T : Type) where
  elem : MemLayout T
  arr : OpArray
  cmd : ArrayOpCmd T
  ret : BatchReturnType

namespace Batch

/-- The result of one operation of the call -/
abbrev Ret (b : Batch T) : Type := b.ret.Ret T

section Exec

variable [ElementOps T] [DecidableEq T] [DecidableLT T]

/-- What `exec` of a message does. None where it panics. -/
def exec (b : Batch T) (req : BatchReq) : Option (List (ElementOp T b.Ret)) := do
  let code ← b.cmd.code b.arr.kind b.ret
  req.ops b.elem b.arr code

/-- A request does these operations, and their results go to its positions. -/
def Does (b : Batch T) (req : BatchReq) (ops : List (ElementOp T b.Ret)) : Prop :=
  b.exec req = some ops ∧ ops.map (·.tag) = req.resBuff.map some

end Exec

end Batch

/-- The lock is held for the whole message: by a guard of the local data, or by `lock_index` before
the loop over the values. -/
def ArrayKind.keeps : ArrayKind → BatchAm → Bool
  | .localLock, _ => true
  | .globalLock, _ => true
  | .genericAtomic, .multiValSingleIdx _ => true
  | _, _ => false

/-- A task, with the requests that it has still to send and the numbers of those it has sent -/
structure BatchTask where
  toSend : List BatchReq
  sent : List ℕ
  finished : Bool

/-- The task after it has sent its next request, with the number `n` -/
def BatchTask.next (task : BatchTask) (n : ℕ) : BatchTask :=
  { task with toSend := task.toSend.tail, sent := task.sent ++ [n] }

/-- A request that has been sent, and its execution once it has begun -/
structure SentReq where
  req : BatchReq
  agent : Option ℕ

/-- `array` is the memory of the array with all executions that work on it, also those of others.
-/
structure BatchState (T R : Type) where
  array : ReadModifyWrite.State (ℕ × ℕ) T R (Option ℕ) ElementLock
  tasks : List BatchTask
  reqs : List SentReq
  futures : List ℕ
  cnt : ℕ

inductive BatchAction (T R : Type) where
  /-- `exec_arc_am_pe` in a task -/
  | send (k : ℕ)
  /-- The end of a task -/
  | finish (k : ℕ)
  /-- The message of a request begins its `exec`. -/
  | exec (i : ℕ)
  /-- A step of an execution, or of someone else -/
  | array (act : ReadModifyWrite.Action (ℕ × ℕ) T R (Option ℕ) ElementLock)

namespace BatchState

def init (R : Type) (mem : ℕ × ℕ → T) (call : BatchCall) : BatchState T R where
  array := ⟨mem, fun _ => none, [], [], []⟩
  tasks := call.tasks.map fun reqs => ⟨reqs, [], false⟩
  reqs := []
  futures := []
  cnt := 0

section Step

variable [ElementOps T] [DecidableEq T] [DecidableLT T] (b : Batch T)

def step (s : BatchState T b.Ret) : BatchAction T b.Ret → Option (BatchState T b.Ret)
  | .send k => do
    let task ← s.tasks[k]?
    let req ← task.toSend.head?
    some
      { s with
        tasks := s.tasks.set k (task.next s.reqs.length)
        reqs := s.reqs ++ [⟨req, none⟩] }
  | .finish k => do
    let task ← s.tasks[k]?
    if task.toSend = [] ∧ task.finished = false then
      some
        { s with
          tasks := s.tasks.set k { task with finished := true }
          futures := s.futures ++ task.sent
          cnt := s.cnt + 1 }
    else none
  | .exec i => do
    let sent ← s.reqs[i]?
    let ops ← b.exec sent.req
    let array ← s.array.step b.arr.kind.lockOf (.spawn ops (b.arr.kind.keeps sent.req.am))
    if sent.agent = none then
      some
        { s with
          array := array
          reqs := s.reqs.set i { sent with agent := some s.array.agents.length } }
    else none
  | .array act => do
    let array ← s.array.step b.arr.kind.lockOf act
    some { s with array := array }

/-- `(req.await, res_buff)`. A message whose `exec` has panicked never returns. -/
def returned {R : Type} (s : BatchState T R) (i : ℕ) : Option (List R × List ℕ) := do
  let sent ← s.reqs[i]?
  let agent ← sent.agent
  let ag ← s.array.agents[agent]?
  if ag.undone = [] then some (ag.done.map Prod.snd, sent.req.resBuff) else none

/-- What the call returns, once it does -/
def results {R : Type} (s : BatchState T R) (numReqs vLen iLen : ℕ) : Option (List (Option R)) := do
  if numReqs ≤ s.cnt then
    let rets ← s.futures.mapM s.returned
    scatter (max iLen vLen) rets
  else none

end Step

end BatchState

/-- The operations of others have no place in the results of the call. -/
def BatchAllowed (b : Batch T) : BatchAction T b.Ret → Prop
  | .array (.spawn todo keep) => Allowed b.arr.kind.lockOf (.spawn todo keep) ∧
    ∀ op ∈ todo, op.tag = none
  | _ => True

/-- A step of the call itself, or of an execution -/
def BatchAction.Internal {R : Type} : BatchAction T R → Prop
  | .array act => act.Internal
  | _ => True

section Reachable

variable [ElementOps T] [DecidableEq T] [DecidableLT T] (b : Batch T)

/-- The states of all runs of the call -/
abbrev BatchReachable (mem : ℕ × ℕ → T) (call : BatchCall) : BatchState T b.Ret → Prop :=
  Transition.Reach (· = .init b.Ret mem call) (BatchState.step b) fun _ act => BatchAllowed b act

end Reachable

/-! ## Locks of messages -/

section Locks

variable {arr : OpArray}

/-- Each operation of a message is that of one of its entries. -/
theorem BatchReq.element_of_mem {R : Type} {elem : MemLayout T} {code : ElementCode T R}
    {req : BatchReq} {ops : List (ElementOp T R)} (h : req.ops elem arr code = some ops)
    {op : ElementOp T R} (hop : op ∈ ops) :
    ∃ x ∈ req.am.entries elem, arr.element req.pe x.1 = some op.cell := by
  obtain ⟨x, hx, hop⟩ := Folds.mem_mapM h hop
  obtain ⟨cell, hcell, hop⟩ := Option.bind_eq_some_iff.mp hop
  obtain rfl := Option.some.inj hop
  exact ⟨x.1, List.fst_mem_of_mem_zipIdx hx, hcell⟩

/-- A message that holds its lock to the end needs only one. -/
theorem keeps_lockOf {R : Type} {elem : MemLayout T} {code : ElementCode T R} {req : BatchReq}
    {ops : List (ElementOp T R)} (h : req.ops elem arr code = some ops)
    (hkeep : arr.kind.keeps req.am = true) :
    ∀ op ∈ ops, ∀ op' ∈ ops, arr.kind.lockOf op.cell = arr.kind.lockOf op'.cell := by
  intro op hop op' hop'
  obtain ⟨x, hx, hcell⟩ := BatchReq.element_of_mem h hop
  obtain ⟨x', hx', hcell'⟩ := BatchReq.element_of_mem h hop'
  cases hkind : arr.kind with
  | nativeAtomic => rfl
  | readOnly => rfl
  | globalLock => rfl
  | localLock =>
    have hsame : op.cell.1 = op'.cell.1 :=
      (OpArray.element_fst hcell).trans (OpArray.element_fst hcell').symm
    exact congrArg (fun pe => some (ElementLock.onPe pe)) hsame
  | genericAtomic =>
    rw [hkind] at hkeep
    cases ham : req.am with
    | multiValMultiIdx am =>
      rw [ham] at hkeep
      cases hkeep
    | singleValMultiIdx am =>
      rw [ham] at hkeep
      cases hkeep
    | multiValSingleIdx am =>
      -- All values are for the same element.
      have hindex {x} (hx : x ∈ req.am.entries elem) : x.1 = am.idx := by
        rw [ham] at hx
        obtain ⟨v, -, rfl⟩ := List.mem_map.mp hx
        rfl
      rw [hindex hx] at hcell
      rw [hindex hx'] at hcell'
      rw [Option.some.inj (hcell.symm.trans hcell')]

end Locks

/-! ## The invariant -/

section Invariant

variable [ElementOps T] [DecidableEq T] [DecidableLT T] {b : Batch T} {mem : ℕ × ℕ → T}
  {call : BatchCall} {s s' : BatchState T b.Ret}

/-- What a task has sent and not handed over yet -/
def BatchTask.pending (task : BatchTask) : List ℕ := if task.finished then [] else task.sent

theorem BatchTask.pending_eq (task : BatchTask) (hopen : task.finished = false) :
    task.pending = task.sent := by
  rw [pending, hopen]
  rfl

/-- What a request has been given to do -/
def SentReq.given (b : Batch T) (sent : SentReq) : List (ElementOp T b.Ret) :=
  if sent.agent.isSome then (b.exec sent.req).getD [] else []

structure BatchInv (b : Batch T) (mem : ℕ × ℕ → T) (call : BatchCall) (s : BatchState T b.Ret) :
    Prop where
  array : Reachable b.arr.kind.lockOf mem s.array
  messages : (s.reqs.map SentReq.req ++ s.tasks.flatMap BatchTask.toSend).Perm call.tasks.flatten
  futures : (s.futures ++ s.tasks.flatMap BatchTask.pending).Perm (List.range s.reqs.length)
  cnt : s.cnt = s.tasks.countP BatchTask.finished
  length : s.tasks.length = call.tasks.length
  finished : ∀ task ∈ s.tasks, task.finished → task.toSend = []
  /-- An execution does what its message says. -/
  execs : ∀ sent ∈ s.reqs, ∀ agent, sent.agent = some agent →
    s.array.given[agent]? = some (sent.given b)
  /-- Nobody else has an operation of the call. -/
  others : ∀ agent ops, s.array.given[agent]? = some ops →
    (∀ op ∈ ops, op.tag = none) ∨ ∃ sent ∈ s.reqs, sent.agent = some agent
  tagged : (s.array.given.flatten.filter (·.tag.isSome)).Perm (s.reqs.flatMap (SentReq.given b))

variable {k : ℕ} {task : BatchTask} {req : BatchReq}

theorem BatchInv.init (b : Batch T) (mem : ℕ × ℕ → T) (call : BatchCall) :
    BatchInv b mem call (.init b.Ret mem call) where
  array := .init rfl
  messages := by
    rw [BatchState.init, List.map_nil, List.nil_append, List.flatMap_map, List.flatMap_id']
  futures := by
    rw [BatchState.init, List.nil_append]
    refine .of_eq (List.flatMap_eq_nil_iff.mpr fun task htask => ?_)
    obtain ⟨reqs, -, rfl⟩ := List.mem_map.mp htask
    rfl
  cnt := by
    refine (List.countP_eq_zero.mpr fun task htask => ?_).symm
    obtain ⟨reqs, -, rfl⟩ := List.mem_map.mp htask
    exact Bool.false_ne_true
  length := List.length_map _
  finished task htask hfinished := by
    obtain ⟨reqs, -, rfl⟩ := List.mem_map.mp htask
    cases hfinished
  execs sent hsent := absurd hsent List.not_mem_nil
  others agent ops hops := by cases hops
  tagged := .refl _

theorem BatchInv.finished_eq_false (h : BatchInv b mem call s) (hk : s.tasks[k]? = some task)
    (hreq : task.toSend.head? = some req) : task.finished = false := by
  refine Bool.eq_false_iff.mpr fun hfinished => ?_
  rw [h.finished task (List.mem_of_getElem? hk) hfinished] at hreq
  cases hreq

/-- A task sends its next request. -/
theorem BatchInv.send (h : BatchInv b mem call s) (hk : s.tasks[k]? = some task)
    (hreq : task.toSend.head? = some req) : BatchInv b mem call
      { s with
        tasks := s.tasks.set k (task.next s.reqs.length)
        reqs := s.reqs ++ [⟨req, none⟩] } where
  array := h.array
  messages := by
    obtain ⟨rest, hold, hnew⟩ := Roster.exists_perm_flatMap_set BatchTask.toSend
      (task.next s.reqs.length) hk
    obtain ⟨reqs, hreqs⟩ := List.head?_eq_some_iff.mp hreq
    rw [hreqs] at hold
    rw [List.map_append, List.append_assoc]
    refine List.Perm.trans ?_ h.messages
    have hnext : (task.next s.reqs.length).toSend = reqs := by
      rw [BatchTask.next, hreqs]
      rfl
    rw [hnext] at hnew
    exact ((hnew.append_left [req]).trans hold.symm).append_left _
  futures := by
    obtain ⟨rest, hold, hnew⟩ := Roster.exists_perm_flatMap_set BatchTask.pending
      (task.next s.reqs.length) hk
    have hopen := h.finished_eq_false hk hreq
    rw [task.pending_eq hopen] at hold
    rw [(task.next s.reqs.length).pending_eq hopen] at hnew
    have hmoved : (task.sent ++ [s.reqs.length] ++ rest).Perm
        (task.sent ++ rest ++ [s.reqs.length]) := by
      rw [List.append_assoc, List.append_assoc]
      exact List.perm_append_comm.append_left _
    rw [List.length_append, List.length_singleton, List.range_succ]
    refine List.Perm.trans ?_ (h.futures.append_right _)
    rw [List.append_assoc]
    exact (hnew.trans (hmoved.trans (hold.symm.append_right _))).append_left _
  cnt := by
    have hcount := Roster.countP_set BatchTask.finished
      (task.next s.reqs.length) hk
    rw [h.cnt]
    exact (Nat.add_right_cancel hcount).symm
  length := by rw [List.length_set, h.length]
  finished task' htask' hfinished := by
    rcases List.mem_or_eq_of_mem_set htask' with hold | rfl
    · exact h.finished task' hold hfinished
    · have hopen : task.finished = true := hfinished
      rw [h.finished_eq_false hk hreq] at hopen
      cases hopen
  execs sent hsent agent hagent := by
    rcases List.mem_append.mp hsent with hold | hnew
    · exact h.execs sent hold agent hagent
    · rw [List.mem_singleton.mp hnew] at hagent
      cases hagent
  others agent ops hops := by
    rcases h.others agent ops hops with hnone | ⟨sent, hsent, hagent⟩
    · exact .inl hnone
    · exact .inr ⟨sent, List.mem_append_left _ hsent, hagent⟩
  tagged := by
    rw [List.flatMap_append, List.flatMap_singleton]
    exact h.tagged.trans (.of_eq (List.append_nil _).symm)

/-- A task hands over what it has sent. -/
theorem BatchInv.finish (h : BatchInv b mem call s) (hk : s.tasks[k]? = some task)
    (hnil : task.toSend = []) (hopen : task.finished = false) : BatchInv b mem call
      { s with
        tasks := s.tasks.set k { task with finished := true }
        futures := s.futures ++ task.sent
        cnt := s.cnt + 1 } where
  array := h.array
  messages := by
    obtain ⟨rest, hold, hnew⟩ := Roster.exists_perm_flatMap_set BatchTask.toSend
      { task with finished := true } hk
    exact ((hnew.trans hold.symm).append_left _).trans h.messages
  futures := by
    obtain ⟨rest, hold, hnew⟩ := Roster.exists_perm_flatMap_set BatchTask.pending
      { task with finished := true } hk
    rw [task.pending_eq hopen] at hold
    refine List.Perm.trans ?_ h.futures
    rw [List.append_assoc]
    exact ((hnew.append_left _).trans hold.symm).append_left _
  cnt := by
    have hcount := Roster.countP_set BatchTask.finished { task with finished := true } hk
    rw [hopen] at hcount
    rw [h.cnt]
    exact hcount.symm
  length := by rw [List.length_set, h.length]
  finished task' htask' hfinished := by
    rcases List.mem_or_eq_of_mem_set htask' with hold | rfl
    · exact h.finished task' hold hfinished
    · exact hnil
  execs := h.execs
  others := h.others
  tagged := h.tagged

variable {i : ℕ} {sent : SentReq} {ops : List (ElementOp T b.Ret)}
  {array' : ReadModifyWrite.State (ℕ × ℕ) T b.Ret (Option ℕ) ElementLock}

theorem Batch.Does.filter_eq (h : b.Does req ops) : ops.filter (·.tag.isSome) = ops := by
  refine List.filter_eq_self.mpr fun op hop => ?_
  have htag : op.tag ∈ req.resBuff.map some := h.2 ▸ List.mem_map.mpr ⟨op, hop, rfl⟩
  obtain ⟨j, -, hj⟩ := List.mem_map.mp htag
  rw [← hj]
  rfl

theorem BatchInv.mem_messages (h : BatchInv b mem call s) (hi : s.reqs[i]? = some sent) :
    sent.req ∈ call.tasks.flatten :=
  h.messages.mem_iff.mp (List.mem_append_left _
    (List.mem_map.mpr ⟨sent, List.mem_of_getElem? hi, rfl⟩))

/-- The execution of a request begins. -/
theorem BatchInv.exec (h : BatchInv b mem call s) (hi : s.reqs[i]? = some sent)
    (hagent : sent.agent = none) (hdoes : b.Does sent.req ops)
    (hs : s.array.step b.arr.kind.lockOf (.spawn ops (b.arr.kind.keeps sent.req.am)) =
      some array') : BatchInv b mem call
      { s with
        array := array'
        reqs := s.reqs.set i { sent with agent := some s.array.agents.length } } where
  array := by
    refine .step h.array ?_ hs
    intro hkeep
    obtain ⟨code, -, hops⟩ := Option.bind_eq_some_iff.mp hdoes.1
    exact keeps_lockOf hops hkeep
  messages := by
    rw [Roster.map_set_of_eq hi]
    · exact h.messages
    · rfl
  futures := by
    rw [List.length_set]
    exact h.futures
  cnt := h.cnt
  length := h.length
  finished := h.finished
  execs sent' hsent' agent hagent' := by
    obtain rfl := Option.some.inj hs
    rcases List.mem_or_eq_of_mem_set hsent' with hold | rfl
    · exact Roster.append_old (h.execs sent' hold agent hagent')
    · obtain rfl := Option.some.inj hagent'
      have hgiven : SentReq.given b { sent with agent := some s.array.agents.length } = ops := by
        rw [SentReq.given, hdoes.1]
        rfl
      rw [hgiven, (Reachable.inv h.array).ordered.length_eq]
      exact List.getElem?_concat_length
  others agent ops' hops' := by
    obtain rfl := Option.some.inj hs
    rcases Roster.append_new hops' with hold | ⟨rfl, rfl⟩
    · rcases h.others agent ops' hold with hnone | ⟨other, hother, hagent'⟩
      · exact .inl hnone
      · obtain ⟨j, hj⟩ := List.mem_iff_getElem?.mp hother
        obtain ⟨other', hj', rfl | ⟨rfl, -⟩⟩ := Roster.set_old
          { sent with agent := some s.array.agents.length } hi hj
        · exact .inr ⟨other', List.mem_of_getElem? hj', hagent'⟩
        · rw [hagent] at hagent'
          cases hagent'
    · refine .inr ⟨_, List.mem_set (List.getElem?_eq_some_iff.mp hi).1 _, ?_⟩
      rw [← (Reachable.inv h.array).ordered.length_eq]
  tagged := by
    obtain rfl := Option.some.inj hs
    obtain ⟨rest, hold, hnew⟩ := Roster.exists_perm_flatMap_set (SentReq.given b)
      { sent with agent := some s.array.agents.length } hi
    have hnone : SentReq.given b sent = [] := by
      rw [SentReq.given, hagent]
      rfl
    have hgiven : SentReq.given b { sent with agent := some s.array.agents.length } = ops := by
      rw [SentReq.given, hdoes.1]
      rfl
    rw [hnone, List.nil_append] at hold
    rw [hgiven] at hnew
    rw [List.flatten_append, List.filter_append, List.flatten_singleton, hdoes.filter_eq]
    refine List.Perm.trans ?_ hnew.symm
    exact ((h.tagged.trans hold).append_right ops).trans List.perm_append_comm

/-- A step of an execution, or of someone else -/
theorem BatchInv.arrayStep {act : ReadModifyWrite.Action (ℕ × ℕ) T b.Ret (Option ℕ) ElementLock}
    (h : BatchInv b mem call s) (hact : BatchAllowed b (.array act))
    (hs : s.array.step b.arr.kind.lockOf act = some array') :
    BatchInv b mem call { s with array := array' } := by
  have hreach : Reachable b.arr.kind.lockOf mem array' := by
    refine .step h.array ?_ hs
    cases act <;> first | trivial | exact hact.1
  by_cases hspawn : ∃ todo keep, act = .spawn todo keep
  · obtain ⟨todo, keep, rfl⟩ := hspawn
    obtain rfl := Option.some.inj hs
    refine ⟨hreach, h.messages, h.futures, h.cnt, h.length, h.finished, ?_, ?_, ?_⟩
    · intro sent hsent agent hagent
      exact Roster.append_old (h.execs sent hsent agent hagent)
    · intro agent ops hops
      rcases Roster.append_new hops with hold | ⟨rfl, rfl⟩
      · exact h.others agent ops hold
      · exact .inl hact.2
    · have hnone : todo.filter (·.tag.isSome) = [] := by
        refine List.filter_eq_nil_iff.mpr fun op hop => ?_
        rw [hact.2 op hop]
        exact Bool.false_ne_true
      rw [List.flatten_append, List.filter_append, List.flatten_singleton, hnone, List.append_nil]
      exact h.tagged
  · have hgiven : array'.given = s.array.given :=
      given_of_step (fun todo keep hact' => hspawn ⟨todo, keep, hact'⟩) hs
    refine ⟨hreach, h.messages, h.futures, h.cnt, h.length, h.finished, ?_, ?_, ?_⟩
    · intro sent hsent agent hagent
      rw [hgiven]
      exact h.execs sent hsent agent hagent
    · intro agent ops hops
      rw [hgiven] at hops
      exact h.others agent ops hops
    · rw [hgiven]
      exact h.tagged

theorem BatchInv.step {act : BatchAction T b.Ret} (h : BatchInv b mem call s)
    (hdoes : ∀ req ∈ call.tasks.flatten, ∃ ops, b.Does req ops) (hact : BatchAllowed b act)
    (hs : s.step b act = some s') : BatchInv b mem call s' := by
  cases act with
  | send k =>
    obtain ⟨task, hk, hs⟩ := Option.bind_eq_some_iff.mp hs
    obtain ⟨req, hreq, hs⟩ := Option.bind_eq_some_iff.mp hs
    cases hs
    exact h.send hk hreq
  | finish k =>
    obtain ⟨task, hk, hs⟩ := Option.bind_eq_some_iff.mp hs
    obtain ⟨⟨hnil, hopen⟩, hs⟩ := Option.ite_none_right_eq_some.mp hs
    cases hs
    exact h.finish hk hnil hopen
  | exec i =>
    obtain ⟨sent, hi, hs⟩ := Option.bind_eq_some_iff.mp hs
    obtain ⟨ops, hops, hs⟩ := Option.bind_eq_some_iff.mp hs
    obtain ⟨array', harray, hs⟩ := Option.bind_eq_some_iff.mp hs
    obtain ⟨hagent, hs⟩ := Option.ite_none_right_eq_some.mp hs
    cases hs
    obtain ⟨ops', hdoes'⟩ := hdoes sent.req (h.mem_messages hi)
    obtain rfl := Option.some.inj (hops.symm.trans hdoes'.1)
    exact h.exec hi hagent hdoes' harray
  | array act =>
    obtain ⟨array', harray, hs⟩ := Option.bind_eq_some_iff.mp hs
    cases hs
    exact h.arrayStep hact harray

theorem BatchReachable.inv (hdoes : ∀ req ∈ call.tasks.flatten, ∃ ops, b.Does req ops)
    (hs : BatchReachable b mem call s) : BatchInv b mem call s := by
  refine Transition.Reach.invariant ?_ (fun _ _ _ h hact hstep => h.step hdoes hact hstep) hs
  rintro s rfl
  exact .init b mem call

end Invariant

end Lamellar.BatchOps
