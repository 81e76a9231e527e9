import Lamellar.CommandQueue.Model
import Mathlib.Data.List.Count
import Mathlib.Data.List.Perm.Basic
import Mathlib.Data.List.Infix

/-!
# What holds of a link

A buffer that has been flushed is carried around once: its `Tx` is on its way or in the
receive slot (`sent`), then one task fetches it (`fetch j`), and the state in its first word
goes from `Tx` over `Release` to `Free` as the puts of this task arrive. `Stage` says how far
a buffer is, `Fetch.trail` which states its task has put so far. The state in memory and the
puts on their way are always the rest of this trail, so the sender sees no other state.

The invariant of a link comes in parts, and each names only what it is about.
-/

namespace Lamellar.CommandQueue

variable {P : ℕ}

/-! ## Buffers and commands -/

namespace CmdMsgBuffer

/-- Flushed and not yet given back. -/
def inFlight (m : CmdMsgBuffer) : List CmdBuf := m.txBufs ++ m.waitingBufs

/-- Being filled, or waiting to be flushed. -/
def filling (m : CmdMsgBuffer) : List CmdBuf := m.fullBufs ++ m.curBuf.toList

def used (m : CmdMsgBuffer) : List CmdBuf := m.filling ++ m.inFlight

def all (m : CmdMsgBuffer) : List CmdBuf := m.emptyBufs ++ m.used

end CmdMsgBuffer

/-- What a command says, apart from its state. -/
def CmdMsg.body (c : CmdMsg) : UInt64 × UInt64 × UInt64 × ℕ :=
  (c.daddr, c.dsize, c.msgHash, c.send)

/-! ## Fetching tasks -/

/-- How often a command has been fetched and submitted by its task. -/
def CmdPc.counts : CmdPc → ℕ × ℕ
  | .get => (0, 0)
  | .submit => (1, 0)
  | .count | .free | .done => (1, 1)

/-- The task has not come to `cmd_cnt.fetch_sub` or is at it. -/
def CmdPc.uncounted : CmdPc → Bool
  | .get | .submit | .count => true
  | .free | .done => false

namespace Fetch

/-- The task has not put `Release` yet. -/
def reading (f : Fetch) : Bool :=
  match f.pc with
  | .get | .wait _ | .release _ => true
  | .spawn _ | .done | .panicked => false

/-- The commands that no task has been submitted for. -/
def rest (f : Fetch) : List CmdMsg :=
  match f.pc with
  | .wait data | .release data | .spawn data => data
  | .get | .done | .panicked => []

/-- `Free` has been put. -/
def closed (f : Fetch) : Bool :=
  !f.reading && f.cmdCnt = 0 && f.tasks.all fun t => t.2 ≠ .free

/-- The states that the buffer goes through by what has been put so far. -/
def trail (f : Fetch) : List Cmd :=
  if f.reading then [.tx] else if f.closed then [.tx, .release, .free] else [.tx, .release]

/-- How far command `i` is. -/
def counts (f : Fetch) (i : ℕ) : ℕ × ℕ :=
  match f.tasks[i]? with
  | some t => t.2.counts
  | none => (0, 0)

structure Ok (f : Fetch) : Prop where
  calm : f.pc ≠ .panicked
  unspawned : f.reading → f.tasks = []
  count : ¬ f.reading → f.cmdCnt = f.rest.length + f.tasks.countP (·.2.uncounted)
  last : ∀ t ∈ f.tasks, t.2 = .free → f.cmdCnt = 0
  one : f.tasks.countP (·.2 = .free) ≤ 1

/-- The task fetches the buffer `b`. -/
structure Carries (mem : Mem) (f : Fetch) (b : CmdBuf) : Prop where
  size : f.cmd.dsize = b.size
  cmds : f.pc ≠ .get →
    (f.tasks.map Prod.fst ++ f.rest).map CmdMsg.body = (b.cmds mem).map CmdMsg.body

end Fetch

/-! ## Stages -/

inductive Stage where
  | idle
  /-- Its `Tx` has been put and not been read. -/
  | sent
  /-- The task `j` has read its `Tx`. -/
  | fetch (j : ℕ)
  deriving DecidableEq

def Stage.trail (fetches : List Fetch) : Stage → List Cmd
  | .idle => []
  | .sent => [.tx]
  | .fetch j =>
    match fetches[j]? with
    | some f => f.trail
    | none => []

def Stage.counts (fetches : List Fetch) (i : ℕ) : Stage → ℕ × ℕ
  | .idle | .sent => (0, 0)
  | .fetch j =>
    match fetches[j]? with
    | some f => f.counts i
    | none => (0, 0)

/-- The puts on their way to the state of a buffer. -/
def backTo (addr : UInt64) (statePuts : List (UInt64 × Cmd)) : List Cmd :=
  (statePuts.filter (·.1 = addr)).map Prod.snd

/-- The buffers that the holder of the lock has found free. -/
def Crit.freed : Crit → List UInt64
  | .scan _ _ freed | .freeData _ freed => freed
  | _ => []

/-! ## The parts of the invariant -/

/-- The buffers are where they belong, and each is in one place. -/
structure Placed (cfg : Config P) (p d : Fin P) (m : CmdMsgBuffer) : Prop where
  addrs : (m.all.map CmdBuf.addr).Perm (cfg.addrs p d)
  cnt : ∀ b ∈ m.all, b.allocatedCnt = b.index
  le : ∀ b ∈ m.all, b.index ≤ cfg.cmdBufLen
  empty : ∀ b ∈ m.emptyBufs, b.index = 0
  pos : ∀ b ∈ m.fullBufs ++ m.inFlight, 0 < b.index
  cur : ∀ b ∈ m.curBuf, b.index < cfg.cmdBufLen

/-- The slot holds a `Tx` exactly while its buffer is in `tx_bufs`. -/
structure SlotOk (slot : CmdMsg) (txBufs : List CmdBuf) : Prop where
  hash : slot.cmdHash = slot.hash
  kind : slot.cmd = .clear ∨ slot.cmd = .print ∨ slot.cmd = .tx
  tx : slot.cmd = .tx →
    slot.hash ≠ CmdMsg.clearCmd.hash ∧ ∃ b, txBufs = [b] ∧ b.addr = slot.daddr
  free : slot.cmd ≠ .tx → txBufs = []

/-- What is in the receive slot and on its way to it. -/
structure Inbox (m : CmdMsgBuffer) (stage : UInt64 → Stage) (inbox : List CmdMsg) : Prop where
  hash : ∀ c ∈ inbox, c.cmdHash = c.hash
  kind : ∀ c ∈ inbox, c.cmd = .clear ∨ c.cmd = .print ∨ c.cmd = .tx
  tx : ∀ c ∈ inbox, c.cmd = .tx →
    stage c.daddr = .sent ∧ ∃ b ∈ m.inFlight, b.addr = c.daddr ∧ b.size = c.dsize
  one : inbox.countP (·.cmd = .tx) ≤ 1

/-- What is in the states of the buffers and on its way to them. -/
structure Back (mem : Mem) (m : CmdMsgBuffer) (stage : UInt64 → Stage)
    (statePuts : List (UInt64 × Cmd)) (fetches : List Fetch) : Prop where
  fresh : ∀ b ∈ m.filling, 0 < b.index → b.state mem = .tx
  suffix : ∀ b ∈ m.inFlight,
    (b.state mem :: backTo b.addr statePuts) <:+ (stage b.addr).trail fetches
  waiting : ∀ b ∈ m.waitingBufs, b.state mem ≠ .tx
  puts : ∀ x ∈ statePuts, stage x.1 ≠ .idle

structure Fetching (mem : Mem) (m : CmdMsgBuffer) (stage : UInt64 → Stage)
    (fetches : List Fetch) : Prop where
  ok : ∀ f ∈ fetches, f.Ok
  named : ∀ addr j, stage addr = .fetch j → ∃ f, fetches[j]? = some f ∧ f.cmd.daddr = addr
  opened : ∀ (j : ℕ) f, fetches[j]? = some f → ¬ f.closed → stage f.cmd.daddr = .fetch j
  carries : ∀ b ∈ m.inFlight, ∀ j f, stage b.addr = .fetch j → fetches[j]? = some f →
    f.Carries mem b

/-- The call `t` has pushed the command `c`, which has been fetched and submitted as often as
`counts` says. -/
structure Send.Holds (t : Send P) (p d : Fin P) (c : CmdMsg) (counts : ℕ × ℕ) : Prop where
  pe : t.pe = p
  dst : t.dst = d
  addr : t.addr = c.daddr
  len : t.len = c.dsize
  hash : t.hash = c.msgHash
  len_ne : t.len ≠ 0
  pushed : t.pushed = true
  counts : (t.fetched, t.submitted) = counts
  decremented : t.decremented = 0

/-- The command of call `k` lies in a buffer. -/
def Held (mem : Mem) (m : CmdMsgBuffer) (k : ℕ) : Prop :=
  ∃ b ∈ m.used, ∃ i < b.index, (mem b.addr i).send = k

/-- What the commands in the buffers stand for, and what has become of the calls of `send`. -/
structure Content (sends : List (Send P)) (p d : Fin P) (mem : Mem) (m : CmdMsgBuffer)
    (counts : UInt64 → ℕ → ℕ × ℕ) : Prop where
  held : ∀ b ∈ m.used, ∀ i < b.index, ∃ t, sends[(mem b.addr i).send]? = some t ∧
    t.Holds p d (mem b.addr i) (counts b.addr i)
  inj : ∀ b ∈ m.used, ∀ b' ∈ m.used, ∀ i < b.index, ∀ i' < b'.index,
    (mem b.addr i).send = (mem b'.addr i').send → b.addr = b'.addr ∧ i = i'
  unpushed : ∀ (k : ℕ) (t : Send P), sends[k]? = some t → t.pe = p → t.dst = d → t.pushed = false →
    t.fetched = 0 ∧ t.submitted = 0 ∧ t.decremented = 0
  gone : ∀ (k : ℕ) (t : Send P), sends[k]? = some t → t.pe = p → t.dst = d → t.pushed = true →
    ¬ Held mem m k → t.fetched = 1 ∧ t.submitted = 1 ∧ t.decremented = 1

/-- How often the command at a place of a buffer has been fetched and submitted. -/
def placeCounts (stage : UInt64 → Stage) (fetches : List Fetch) (addr : UInt64) (i : ℕ) :
    ℕ × ℕ :=
  (stage addr).counts fetches i

structure LinkInv (cfg : Config P) (sends : List (Send P)) (p d : Fin P) (l : Link)
    (stage : UInt64 → Stage) : Prop where
  placed : Placed cfg p d l.cmdBuffer
  flight : ∀ addr, stage addr ≠ .idle ↔ ∃ b ∈ l.cmdBuffer.inFlight, b.addr = addr
  slot : SlotOk l.sendSlot l.cmdBuffer.txBufs
  inbox : Inbox l.cmdBuffer stage (l.recvSlot :: l.slotPuts)
  back : Back l.mem l.cmdBuffer stage l.statePuts l.fetches
  fetching : Fetching l.mem l.cmdBuffer stage l.fetches
  content : Content sends p d l.mem l.cmdBuffer (placeCounts stage l.fetches)
  freed : ∀ c, l.crit = some c → ∀ addr ∈ c.freed, ∀ b ∈ l.cmdBuffer.waitingBufs,
    b.addr = addr → b.state l.mem = .free
  ready : ∀ h, l.crit = some (.flush h) → ∀ b m, l.cmdBuffer.takeFlush = some (b, m) →
    0 < b.index

end Lamellar.CommandQueue
