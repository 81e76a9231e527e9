import Lamellar.CommandQueue.Buffers
import Lamellar.Lib.Transition

/-!
# The command queue: `src/lamellae/command_queues.rs`

The command queues of `P` PEs. The state is kept by link: the link of a PE and a destination
has what the PE keeps for the destination (the send slot, the `CmdMsgBuffer`, the waiting
flag and the words of the `CmdBuf`s), the puts on their way, and what the destination keeps
for the PE as a source (the receive slot and the tasks that fetch from it).

Every access to shared data is a step of its own: the sections under the lock of
`cmd_buffers[dst]` are cut where another PE, another destination or a task without the lock
can come in between. `Crit` says who holds the lock and where it stands.

The puts of a link to its receive slot take effect in their order, and so do those to the
states of its buffers. Puts of opposite links are not ordered with each other, also where
they run between the same PEs, so there are more runs here than a network has that keeps all
puts between two PEs in order. A get returns the bytes that are there.

What a `Send` records beyond the arguments of the call only counts; no step reads it.
-/

namespace Lamellar.CommandQueue

inductive CmdQStatus where
  | active
  | finished
  | shuttingDown
  | panic
  deriving DecidableEq

/-! ## The sender -/

/-- A call of `send`, and what has become of its command. -/
structure Send (P : ℕ) where
  pe : Fin P
  dst : Fin P
  addr : UInt64
  len : UInt64
  hash : UInt64
  /-- It is counted in `pending_cmds`. -/
  pending : Bool
  pushed : Bool
  fetched : ℕ
  submitted : ℕ
  decremented : ℕ

inductive SendPc where
  /-- Before `pending_cmds.fetch_add` -/
  | start
  /-- The heads of the two loops -/
  | loop1
  | loop2
  /-- At the lock of `cmd_buffers[dst]` in each loop -/
  | lock1
  | lock2
  /-- The task has the lock -/
  | inside
  | returned
  | panicked
  deriving DecidableEq

/-- The task of a call of `send`. -/
structure Task where
  pc : SendPc
  imWaiting : Bool

/-- Who runs `progress_transfers`: a `send` in its first or second loop, or `recv_data`. -/
inductive Holder where
  | first (k : ℕ)
  | second (k : ℕ)
  | recv
  deriving DecidableEq

/-- The sections under the lock of `cmd_buffers[dst]`. -/
inductive Crit where
  | push (k : ℕ)
  /-- After `try_push`, before `pending_cmds.fetch_sub` -/
  | pushed (k : ℕ)
  /-- The second loop, at `empty` -/
  | head (k : ℕ)
  | transfer (h : Holder)
  /-- The two loops of `check_free_data` -/
  | scan (h : Holder) (todo freed : List UInt64)
  | freeData (h : Holder) (freed : List UInt64)
  /-- `try_sending_buffer` at the load of `pending_cmds`, then under the lock of the slots -/
  | sending (h : Holder)
  | flush (h : Holder)
  | sent (h : Holder) (result : Bool)

/-! ## The receiver -/

inductive CmdPc where
  | get
  | submit
  /-- `cmd_cnt.fetch_sub` -/
  | count
  | free
  | done
  deriving DecidableEq

inductive FetchPc where
  | get
  /-- The loop over the hash in `get_data` -/
  | wait (data : List CmdMsg)
  | release (data : List CmdMsg)
  /-- The loop over the commands -/
  | spawn (rest : List CmdMsg)
  | done
  | panicked

/-- The task that fetches a buffer, with the tasks that it has submitted for its commands. -/
structure Fetch where
  /-- The `cmd_buf_cmd` -/
  cmd : CmdMsg
  pc : FetchPc
  cmdCnt : ℕ
  tasks : List (CmdMsg × CmdPc)

/-! ## The links -/

structure Link where
  sendSlot : CmdMsg
  cmdBuffer : CmdMsgBuffer
  sendWaiting : Bool
  crit : Option Crit
  mem : Mem
  slotPuts : List CmdMsg
  statePuts : List (UInt64 × Cmd)
  recvSlot : CmdMsg
  fetches : List Fetch

/-- What the runtime fixes: the length of a buffer, and where the buffers of a PE for a
destination lie. `rt_alloc` never returns the null address, nor memory that is in use. -/
structure Config (P : ℕ) where
  cmdBufLen : ℕ
  addrs : Fin P → Fin P → List UInt64
  cmdBufLen_pos : 0 < cmdBufLen
  size_lt : cmdBufLen * cmdMsgSize < 2 ^ 64
  addrs_ne_zero : ∀ p d, (0 : UInt64) ∉ addrs p d
  addrs_nodup : ∀ p d, (addrs p d).Nodup

/-! `CMD_BUF_LEN` is 50000. -/

theorem Config.default_pos : 0 < 50000 := Nat.succ_pos _

theorem Config.default_lt : 50000 * cmdMsgSize < 2 ^ 64 := by decide

structure State (P : ℕ) where
  links : Fin P → Fin P → Link
  sends : List (Send P)
  /-- The tasks of the `sends`, in the same order. -/
  tasks : List Task
  pendingCmds : Fin P → ℕ
  active : Fin P → CmdQStatus
  /-- The reference count of the data at an address. -/
  refCnt : Fin P → UInt64 → ℕ
  /-- How many `SerializedData` of a PE refer to an address. -/
  handles : Fin P → UInt64 → ℕ
  /-- What `rt_free` has been called for. -/
  rtFreed : List (Fin P × UInt64)
  panics : List Panic

variable {P : ℕ}

def Link.new (addrs : List UInt64) (mem : Mem) : Link where
  sendSlot := .clearCmd
  cmdBuffer := .new addrs
  sendWaiting := false
  crit := none
  mem := mem
  slotPuts := []
  statePuts := []
  recvSlot := .clearCmd
  fetches := []

/-- `InnerCQ::new` on all PEs, with any bytes in the memory of the buffers. -/
def State.new (cfg : Config P) (mem : Fin P → Fin P → Mem) : State P where
  links := fun p d => .new (cfg.addrs p d) (mem p d)
  sends := []
  tasks := []
  pendingCmds := fun _ => 0
  active := fun _ => .active
  refCnt := fun _ _ => 0
  handles := fun _ _ => 0
  rtFreed := []
  panics := []

namespace State

def setLink (s : State P) (p d : Fin P) (l : Link) : State P :=
  { s with links := Function.update s.links p (Function.update (s.links p) d l) }

/-- The holder of the lock of a link goes on in another section, or without the lock. -/
def setCrit (s : State P) (p d : Fin P) (crit : Option Crit) : State P :=
  s.setLink p d { s.links p d with crit := crit }

def setTask (s : State P) (k : ℕ) (f : Task → Task) : State P :=
  { s with tasks := s.tasks.modify k f }

def setSend (s : State P) (k : ℕ) (f : Send P → Send P) : State P :=
  { s with sends := s.sends.modify k f }

def goto (s : State P) (k : ℕ) (pc : SendPc) : State P := s.setTask k fun t => { t with pc }

def panic (s : State P) (e : Panic) : State P := { s with panics := e :: s.panics }

/-- The holder panics; the lock is given back. -/
def panicHolder (s : State P) (h : Holder) (e : Panic) : State P :=
  match h with
  | .first k | .second k => (s.panic e).goto k .panicked
  | .recv => s.panic e

/-! ## `send` -/

/-- `fetch_sub` of a reference count, and `rt_free` after the last one -/
def decrement (s : State P) (p : Fin P) (addr : UInt64) : State P :=
  { s with
    refCnt := Function.update s.refCnt p
      (Function.update (s.refCnt p) addr (s.refCnt p addr - 1))
    rtFreed := if s.refCnt p addr = 1 then (p, addr) :: s.rtFreed else s.rtFreed }

/-- The loop over the commands of a buffer in `check_free_data` on PE `p`. -/
def freeCmds (s : State P) (p : Fin P) (cmds : List CmdMsg) : State P :=
  cmds.foldl (fun s c =>
    if 0 < c.dsize then
      (s.decrement p c.daddr).setSend c.send fun t => { t with decremented := t.decremented + 1 }
    else s) s

/-- `send_data`: the count goes up before `send` starts. -/
def send (s : State P) (p d : Fin P) (addr len hash : UInt64) : State P :=
  { s with
    sends := s.sends ++ [⟨p, d, addr, len, hash, false, false, 0, 0, 0⟩]
    tasks := s.tasks ++ [⟨.start, false⟩]
    refCnt := Function.update s.refCnt p
      (Function.update (s.refCnt p) addr (s.refCnt p addr + 1)) }

/-- The steps of `send` outside the lock. -/
def runTask (s : State P) (k : ℕ) (t : Send P) : SendPc → Option (State P)
  | .start =>
    let s := { s with
      pendingCmds := Function.update s.pendingCmds t.pe (s.pendingCmds t.pe + 1) }
    some ((s.setSend k fun t => { t with pending := true }).goto k .loop1)
  | .loop1 => some (s.goto k (if s.active t.pe = .panic then .loop2 else .lock1))
  | .lock1 =>
    if (s.links t.pe t.dst).crit.isNone then
      some ((s.setCrit t.pe t.dst (some (.push k))).goto k .inside)
    else none
  | .loop2 => some (s.goto k (if s.active t.pe = .panic then .returned else .lock2))
  | .lock2 =>
    if (s.links t.pe t.dst).crit.isNone then
      some ((s.setCrit t.pe t.dst (some (.head k))).goto k .inside)
    else none
  | .inside | .returned | .panicked => none

/-- `check_transfer`, with the slot made `Clear` after a transfer, and the start of
`check_free_data`, which goes through the `HashMap` in some order. -/
def transfer (s : State P) (p d : Fin P) (h : Holder) (order : List UInt64) :
    Option (State P) :=
  let l := s.links p d
  match l.cmdBuffer.checkTransfer l.mem l.sendSlot.daddr with
  | (m, .error e) =>
    some ((s.setLink p d { l with cmdBuffer := m, crit := none }).panicHolder h e)
  | (m, .ok done) =>
    if order.Perm (m.waitingBufs.map CmdBuf.addr) then
      some (s.setLink p d { l with
        cmdBuffer := m
        sendSlot := if done then l.sendSlot.clear else l.sendSlot
        crit := some (.scan h order []) })
    else none

/-- `try_sending_buffer` once it has the lock of the slots -/
def flush (s : State P) (p d : Fin P) (h : Holder) : State P :=
  let l := s.links p d
  if l.sendSlot.hash = CmdMsg.clearCmd.hash then
    let (m, slot) := l.cmdBuffer.flushBuffer l.mem l.sendSlot
    s.setLink p d { l with
      cmdBuffer := m
      sendSlot := slot
      slotPuts := if 0 < slot.dsize then l.slotPuts ++ [slot] else l.slotPuts
      crit := some (.sent h true) }
  else s.setCrit p d (some (.sent h false))

/-- The steps of the holder of the lock of `cmd_buffers[d]` on PE `p`, apart from `transfer`
and the exchange of the waiting flag. -/
def runCrit (cfg : Config P) (s : State P) (p d : Fin P) : Crit → Option (State P)
  | .push k =>
    let l := s.links p d
    match s.sends[k]? with
    | none => none
    | some t =>
      match l.cmdBuffer.tryPush cfg.cmdBufLen l.mem t.addr t.len t.hash k with
      | .pushed mem m =>
        some ((s.setLink p d { l with mem, cmdBuffer := m, crit := some (.pushed k) }).setSend k
          fun t => { t with pushed := true })
      | .busy => some (s.setCrit p d (some (.transfer (.first k))))
      | .panicked m =>
        some ((s.setLink p d { l with cmdBuffer := m, crit := none }).panicHolder (.first k) .push)
  | .pushed k =>
    let s := { s with pendingCmds := Function.update s.pendingCmds p (s.pendingCmds p - 1) }
    some (((s.setCrit p d none).setSend k fun t => { t with pending := false }).goto k .loop2)
  | .head k =>
    if (s.links p d).cmdBuffer.empty then
      some
        ((s.setLink p d { s.links p d with sendWaiting := false, crit := none }).goto k .returned)
    else some (s.setCrit p d (some (.transfer (.second k))))
  | .transfer _ => none
  | .scan h [] freed => some (s.setCrit p d (some (.freeData h freed)))
  | .scan h (addr :: todo) freed =>
    let l := s.links p d
    match lookup addr l.cmdBuffer.waitingBufs with
    | none => some (s.setCrit p d (some (.scan h todo freed)))
    | some b =>
      match CmdMsgBuffer.checkFreed (b.state l.mem) with
      | .error e => some ((s.setCrit p d none).panicHolder h e)
      | .ok true => some (s.setCrit p d (some (.scan h todo (freed ++ [addr]))))
      | .ok false => some (s.setCrit p d (some (.scan h todo freed)))
  | .freeData h (addr :: freed) =>
    let l := s.links p d
    match lookup addr l.cmdBuffer.waitingBufs with
    | none => some (s.setCrit p d (some (.freeData h freed)))
    | some b =>
      some ((s.freeCmds p (b.cmds l.mem)).setLink p d
        { l with cmdBuffer := l.cmdBuffer.giveBack b, crit := some (.freeData h freed) })
  | .freeData h [] =>
    match h with
    | .recv => some (s.setCrit p d none)
    | h => some (s.setCrit p d (some (.sending h)))
  | .sending h =>
    if s.pendingCmds p = 0 ∨ 0 < (s.links p d).cmdBuffer.fullBufs.length then
      some (s.setCrit p d (some (.flush h)))
    else some (s.setCrit p d (some (.sent h false)))
  | .flush h => some (s.flush p d h)
  | .sent (.first k) _ => some ((s.setCrit p d none).goto k .loop1)
  | .sent (.second k) true =>
    some ((s.setLink p d { s.links p d with sendWaiting := false, crit := none }).goto k .returned)
  | .sent (.second _) false => none
  | .sent .recv _ => none

/-- The end of an iteration of the second loop that has not sent. `compare_exchange_weak` may
fail without a reason. -/
def exchange (s : State P) (p d : Fin P) (k : ℕ) (weak : Bool) : Option (State P) :=
  match s.tasks[k]? with
  | none => none
  | some task =>
    if task.imWaiting then some ((s.setCrit p d none).goto k .loop2)
    else if (s.links p d).sendWaiting ∨ weak then some ((s.setCrit p d none).goto k .returned)
    else
      some ((s.setLink p d { s.links p d with sendWaiting := true, crit := none }).setTask k
        fun t => { t with pc := .loop2, imWaiting := true })

/-! ## `recv_data` -/

/-- `ready(src)` of PE `d` and the match on its result -/
def poll (s : State P) (p d : Fin P) : State P :=
  let l := s.links p d
  let c := l.recvSlot
  if c.checkHash then
    match c.cmd with
    | .clear => s
    | .tx | .print | .free | .release =>
      if c.daddr = 0 then s
      else
        let l := { l with recvSlot := c.clear }
        match c.cmd with
        | .tx => s.setLink p d { l with fetches := l.fetches ++ [⟨c, .get, 0, []⟩] }
        | .print => s.setLink p d l
        | cmd => (s.setLink p d l).panic (.recvData cmd)
    | cmd => s.panic (.recvData cmd)
  else s

def setFetch (s : State P) (p d : Fin P) (j : ℕ) (f : Fetch) : State P :=
  s.setLink p d { s.links p d with fetches := (s.links p d).fetches.set j f }

/-- `send_release` and `send_free`: a put into the first word of a buffer of the source -/
def putState (s : State P) (p d : Fin P) (addr : UInt64) (cmd : Cmd) : State P :=
  s.setLink p d { s.links p d with statePuts := (s.links p d).statePuts ++ [(addr, cmd)] }

/-- The task that fetches a buffer of PE `p` on PE `d`. -/
def runFetch (s : State P) (p d : Fin P) (j : ℕ) (f : Fetch) : Option (State P) :=
  match f.pc with
  | .get =>
    let len := f.cmd.dsize.toNat / cmdMsgSize
    let data := (List.range len).map ((s.links p d).mem f.cmd.daddr)
    some (s.setFetch p d j { f with pc := .wait data })
  | .wait data =>
    if calcHash data = f.cmd.msgHash ∨ s.active d = .panic then
      some (s.setFetch p d j { f with pc := .release data })
    else none
  | .release data =>
    some ((s.putState p d f.cmd.daddr .release).setFetch p d j
      { f with pc := .spawn data, cmdCnt := data.length })
  | .spawn [] => some (s.setFetch p d j { f with pc := .done })
  | .spawn (c :: rest) =>
    if c.dsize ≠ 0 then
      some (s.setFetch p d j { f with pc := .spawn rest, tasks := f.tasks ++ [(c, .get)] })
    else some ((s.setFetch p d j { f with pc := .panicked }).panic .fetch)
  | .done | .panicked => none

/-- The task for command `i` of a buffer. `checksum` is that of the bytes it gets. -/
def runCmd (s : State P) (p d : Fin P) (j i : ℕ) (checksum : UInt64) (f : Fetch) (c : CmdMsg) :
    CmdPc → Option (State P)
  | .get =>
    if checksum = c.msgHash ∨ s.active d = .panic then
      some ((s.setFetch p d j { f with tasks := f.tasks.set i (c, .submit) }).setSend c.send
        fun t => { t with fetched := t.fetched + 1 })
    else none
  | .submit =>
    some ((s.setFetch p d j { f with tasks := f.tasks.set i (c, .count) }).setSend c.send
      fun t => { t with submitted := t.submitted + 1 })
  | .count =>
    let pc := if f.cmdCnt = 1 then CmdPc.free else .done
    some (s.setFetch p d j { f with cmdCnt := f.cmdCnt - 1, tasks := f.tasks.set i (c, pc) })
  | .free =>
    some ((s.putState p d f.cmd.daddr .free).setFetch p d j
      { f with tasks := f.tasks.set i (c, .done) })
  | .done => none

/-- The command whose data a task waits for, where it may run into its timeout. -/
def lateCmd (f : Fetch) : Option ℕ → Option CmdMsg
  | none =>
    match f.pc with
    | .get => some f.cmd
    | .wait data => if calcHash data = f.cmd.msgHash then none else some f.cmd
    | _ => none
  | some i =>
    match f.tasks[i]? with
    | some (c, .get) => some c
    | _ => none

/-- `send_print` of PE `d` to `p` once the slot is clear -/
def print (s : State P) (p d : Fin P) (c : CmdMsg) : Option (State P) :=
  let l := s.links d p
  if l.sendSlot.hash = CmdMsg.clearCmd.hash then
    let slot := { l.sendSlot with
      daddr := c.daddr, dsize := c.dsize, cmd := .print, msgHash := c.msgHash }.calcHash
    some (s.setLink d p { l with sendSlot := slot, slotPuts := l.slotPuts ++ [slot] })
  else none

end State

/-! ## Steps -/

inductive Action (P : ℕ) where
  | send (p d : Fin P) (addr len hash : UInt64)
  | task (k : ℕ)
  | crit (p d : Fin P)
  | transfer (p d : Fin P) (order : List UInt64)
  | exchange (p d : Fin P) (weak : Bool)
  /-- `check_transfers` of `recv_data` takes the lock. -/
  | checkTransfers (p d : Fin P)
  | poll (p d : Fin P)
  | fetch (p d : Fin P) (j : ℕ)
  | cmd (p d : Fin P) (j i : ℕ) (checksum : UInt64)
  | print (p d : Fin P) (j : ℕ) (i : Option ℕ)
  | deliverSlot (p d : Fin P)
  | deliverState (p d : Fin P)
  | status (p : Fin P) (status : CmdQStatus)
  /-- A `SerializedData` is made, cloned or dropped. -/
  | hold (p : Fin P) (addr : UInt64)
  | drop (p : Fin P) (addr : UInt64)

def State.step (cfg : Config P) (s : State P) : Action P → Option (State P)
  | .send p d addr len hash => some (s.send p d addr len hash)
  | .task k =>
    match s.sends[k]?, s.tasks[k]? with
    | some t, some task => s.runTask k t task.pc
    | _, _ => none
  | .crit p d =>
    match (s.links p d).crit with
    | some crit => s.runCrit cfg p d crit
    | none => none
  | .transfer p d order =>
    match (s.links p d).crit with
    | some (.transfer h) => s.transfer p d h order
    | _ => none
  | .exchange p d weak =>
    match (s.links p d).crit with
    | some (.sent (.second k) false) => s.exchange p d k weak
    | _ => none
  | .checkTransfers p d =>
    if p ≠ d ∧ (s.links p d).crit.isNone then some (s.setCrit p d (some (.transfer .recv)))
    else none
  | .poll p d => if p ≠ d then some (s.poll p d) else none
  | .fetch p d j =>
    match (s.links p d).fetches[j]? with
    | some f => s.runFetch p d j f
    | none => none
  | .cmd p d j i checksum =>
    match (s.links p d).fetches[j]? with
    | some f =>
      match f.tasks[i]? with
      | some (c, pc) => s.runCmd p d j i checksum f c pc
      | none => none
    | none => none
  | .print p d j i =>
    match (s.links p d).fetches[j]? with
    | some f =>
      match State.lateCmd f i with
      | some c => s.print p d c
      | none => none
    | none => none
  | .deliverSlot p d =>
    let l := s.links p d
    match l.slotPuts with
    | c :: rest => some (s.setLink p d { l with recvSlot := c, slotPuts := rest })
    | [] => none
  | .deliverState p d =>
    let l := s.links p d
    match l.statePuts with
    | (addr, cmd) :: rest =>
      some (s.setLink p d { l with
        mem := l.mem.write addr 0 { l.mem addr 0 with cmd }
        statePuts := rest })
    | [] => none
  | .status p status => some { s with active := Function.update s.active p status }
  | .hold p addr =>
    some { s with
      handles := Function.update s.handles p
        (Function.update (s.handles p) addr (s.handles p addr + 1))
      refCnt := Function.update s.refCnt p
        (Function.update (s.refCnt p) addr (s.refCnt p addr + 1)) }
  | .drop p addr =>
    if 0 < s.handles p addr then
      some { s.decrement p addr with
        handles := Function.update s.handles p
          (Function.update (s.handles p) addr (s.handles p addr - 1)) }
    else none

def Initial (cfg : Config P) (s : State P) : Prop := ∃ mem, s = State.new cfg mem

/-! ## The lock of the slots

The slots of a PE have one lock, `send_buffer`. It is given back within a step, but for
`send_print`: when the slot has not been clear for `DEADLOCK_TIMEOUT`, it asks for the lock that
it has. From then on nobody on the PE comes to a slot again. -/

/-- The PE whose `send_buffer` a step locks: in `progress_transfers`, `try_sending_buffer` and
`send_print` -/
def Action.sendBuffer (s : State P) : Action P → Option (Fin P)
  | .transfer p _ _ => some p
  | .crit p d =>
    match (s.links p d).crit with
    | some (.flush _) => some p
    | _ => none
  | .print _ d _ _ => some d
  | _ => none

/-- The command queues, and the PEs whose `send_print` waits for the lock that it has -/
structure Queues (P : ℕ) where
  state : State P
  deadlocked : Fin P → Bool

inductive QueueAction (P : ℕ) where
  | act (a : Action P)
  /-- The task that would go on with `Action.print` has not found the slot clear for
  `DEADLOCK_TIMEOUT`. -/
  | printTimeout (p d : Fin P) (j : ℕ) (i : Option ℕ)

namespace Queues

def ofState (s : State P) : Queues P := ⟨s, fun _ => false⟩

def step (cfg : Config P) (q : Queues P) : QueueAction P → Option (Queues P)
  | .act a =>
    if (a.sendBuffer q.state).any q.deadlocked then none
    else (q.state.step cfg a).map fun s => { q with state := s }
  | .printTimeout p d j i => do
    let f ← (q.state.links p d).fetches[j]?
    let _ ← State.lateCmd f i
    if (q.state.links d p).sendSlot.hash ≠ CmdMsg.clearCmd.hash ∧ q.state.active d ≠ .panic ∧
        q.deadlocked d = false then
      some { q with deadlocked := Function.update q.deadlocked d true }
    else none

def Initial (cfg : Config P) (q : Queues P) : Prop := ∃ mem, q = ofState (State.new cfg mem)

end Queues

end Lamellar.CommandQueue
