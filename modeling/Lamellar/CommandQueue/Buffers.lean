import Mathlib.Data.UInt
import Mathlib.Logic.Function.Basic

/-!
# Commands and command buffers: `src/lamellae/command_queues.rs`

`CmdMsg`, `CmdBuf` and `CmdMsgBuffer`. A `usize` is a `UInt64`, and its sums wrap. The words
of a `CmdBuf` lie in memory that the receiver reads and writes, so they are kept apart from
the record that the sender moves from container to container: `Mem` gives the commands at
the address of a buffer.

A `Vec` is a list whose head is the last element, the one that `pop` takes. A `HashMap` of
buffers is a list with one buffer for each address.
-/

namespace Lamellar.CommandQueue

inductive Cmd where
  | clear
  | free
  | release
  | print
  | tx
  | alloc
  | panic
  deriving DecidableEq, Repr

/-- The discriminants, `cmd as usize`. -/
def Cmd.toUInt64 : Cmd → UInt64
  | .clear => 1
  | .free => 2
  | .release => 3
  | .print => 4
  | .tx => 5
  | .alloc => 6
  | .panic => 7

/-- A command. `pad` stands for the bytes between `cmd` and `msg_hash`, which no assignment
writes. `send` is no part of the record: it remembers the call of `send` that the command
comes from, and no step reads it. -/
structure CmdMsg where
  daddr : UInt64
  dsize : UInt64
  cmd : Cmd
  pad : UInt64
  msgHash : UInt64
  cmdHash : UInt64
  send : ℕ
  deriving DecidableEq

/-- `size_of::<CmdMsg>()` -/
def cmdMsgSize : ℕ := 40

namespace CmdMsg

def hash (c : CmdMsg) : UInt64 :=
  let res := c.daddr + c.dsize + c.cmd.toUInt64 + c.msgHash
  if res = 0 then 1 else res

def calcHash (c : CmdMsg) : CmdMsg := { c with cmdHash := c.hash }

def checkHash (c : CmdMsg) : Bool := c.cmdHash = c.hash ∧ c.cmdHash ≠ 0

/-- A hash is never zero. -/
theorem checkHash_of_eq {c : CmdMsg} (h : c.cmdHash = c.hash) : c.checkHash = true := by
  have hne : c.hash ≠ 0 := by
    simp only [CmdMsg.hash]
    split
    · decide
    · assumption
  simp [CmdMsg.checkHash, h, hne]

/-- The five words of a command. -/
def words (c : CmdMsg) : List UInt64 :=
  [c.daddr, c.dsize, c.cmd.toUInt64 + c.pad, c.msgHash, c.cmdHash]

/-- The assignments that make a slot `Clear`. -/
def clear (c : CmdMsg) : CmdMsg :=
  { c with daddr := 0, dsize := 0, cmd := .clear, msgHash := 0 }.calcHash

/-- A slot as `InnerCQ::new` leaves it, which is also `clear_cmd`. -/
def clearCmd : CmdMsg := clear ⟨0, 0, .clear, 0, 0, 0, 0⟩

end CmdMsg

/-- `calc_hash` over the bytes of a list of commands -/
def calcHash (cmds : List CmdMsg) : UInt64 := (cmds.flatMap CmdMsg.words).foldl (· + ·) 0

/-- The commands at an address. -/
abbrev Mem := UInt64 → ℕ → CmdMsg

def Mem.write (mem : Mem) (addr : UInt64) (i : ℕ) (c : CmdMsg) : Mem :=
  Function.update mem addr (Function.update (mem addr) i c)

/-- The panics of the modelled functions. -/
inductive Panic where
  /-- `push`: this shouldnt happen! -/
  | push
  /-- `check_transfer`: am I ever here? -/
  | transferEmpty
  /-- `check_transfer`: a state that it should not see -/
  | transfer (state : Cmd)
  /-- `check_free_data`: a state that it should not see -/
  | freeData (state : Cmd)
  /-- `ready` and the match of `recv_data` -/
  | recvData (cmd : Cmd)
  /-- The task of `recv_data`: should not be here! -/
  | fetch
  deriving DecidableEq

/-! ## One buffer -/

structure CmdBuf where
  addr : UInt64
  index : ℕ
  allocatedCnt : ℕ
  deriving DecidableEq

namespace CmdBuf

/-- `none` is the panic. The tag `k` is the call of `send`. -/
def push (mem : Mem) (b : CmdBuf) (daddr dsize hash : UInt64) (k : ℕ) : Option (Mem × CmdBuf) :=
  if daddr = 0 ∨ dsize = 0 then none
  else
    let cmd := { mem b.addr b.index with daddr, dsize, cmd := .tx, msgHash := hash, send := k }
    some (mem.write b.addr b.index cmd.calcHash,
      { b with
        index := b.index + 1
        allocatedCnt := if 0 < dsize then b.allocatedCnt + 1 else b.allocatedCnt })

def full (cmdBufLen : ℕ) (b : CmdBuf) : Bool := b.index = cmdBufLen

def reset (b : CmdBuf) : CmdBuf := { b with index := 0, allocatedCnt := 0 }

def size (b : CmdBuf) : UInt64 := UInt64.ofNat (b.index * cmdMsgSize)

/-- `iter`: the commands pushed since the last reset -/
def cmds (mem : Mem) (b : CmdBuf) : List CmdMsg := (List.range b.index).map (mem b.addr)

def state (mem : Mem) (b : CmdBuf) : Cmd := (mem b.addr 0).cmd

end CmdBuf

/-! ## The buffers for a destination -/

structure CmdMsgBuffer where
  emptyBufs : List CmdBuf
  fullBufs : List CmdBuf
  txBufs : List CmdBuf
  waitingBufs : List CmdBuf
  curBuf : Option CmdBuf
  numBufs : ℕ

/-- `HashMap::get`, by address -/
def lookup (addr : UInt64) (bufs : List CmdBuf) : Option CmdBuf := bufs.find? (·.addr = addr)

/-- `HashMap::remove` -/
def remove (addr : UInt64) (bufs : List CmdBuf) : List CmdBuf := bufs.filter (·.addr ≠ addr)

/-- `HashMap::insert`, by the address of the buffer -/
def insert (b : CmdBuf) (bufs : List CmdBuf) : List CmdBuf := b :: remove b.addr bufs

/-- What `try_push` does: it pushes, it finds no buffer, or `push` panics. -/
inductive PushResult where
  | pushed (mem : Mem) (m : CmdMsgBuffer)
  | busy
  | panicked (m : CmdMsgBuffer)

namespace CmdMsgBuffer

def new (addrs : List UInt64) : CmdMsgBuffer where
  emptyBufs := (addrs.map fun addr => ⟨addr, 0, 0⟩).reverse
  fullBufs := []
  txBufs := []
  waitingBufs := []
  curBuf := none
  numBufs := addrs.length

/-- The start of `try_push`: a current buffer, if one is to be had. -/
def takeCur (m : CmdMsgBuffer) : CmdMsgBuffer :=
  if m.curBuf.isNone then { m with curBuf := m.emptyBufs.head?, emptyBufs := m.emptyBufs.tail }
  else m

def tryPush (cmdBufLen : ℕ) (mem : Mem) (m : CmdMsgBuffer) (addr len hash : UInt64) (k : ℕ) :
    PushResult :=
  match m.takeCur.curBuf with
  | none => .busy
  | some b =>
    match b.push mem addr len hash k with
    | none => .panicked m.takeCur
    | some (mem, b) =>
      if b.full cmdBufLen then
        .pushed mem { m.takeCur with fullBufs := b :: m.fullBufs, curBuf := none }
      else .pushed mem { m.takeCur with curBuf := some b }

/-- The `Tx` that names a buffer, written over a slot. -/
def txCmd (mem : Mem) (b : CmdBuf) (slot : CmdMsg) : CmdMsg :=
  { slot with
    daddr := b.addr, dsize := b.size, cmd := .tx, msgHash := calcHash (b.cmds mem) }.calcHash

/-- The buffer that `flush_buffer` takes, with the containers without it. -/
def takeFlush (m : CmdMsgBuffer) : Option (CmdBuf × CmdMsgBuffer) :=
  match m.fullBufs with
  | b :: rest => some (b, { m with fullBufs := rest })
  | [] => m.curBuf.map fun b => (b, { m with curBuf := none })

def flushBuffer (mem : Mem) (m : CmdMsgBuffer) (slot : CmdMsg) : CmdMsgBuffer × CmdMsg :=
  match m.takeFlush with
  | some (b, m) => ({ m with txBufs := insert b m.txBufs }, txCmd mem b slot)
  | none => (m, slot)

def checkTransfer (mem : Mem) (m : CmdMsgBuffer) (addr : UInt64) :
    CmdMsgBuffer × Except Panic Bool :=
  match lookup addr m.txBufs with
  | none => (m, .ok false)
  | some b =>
    let m := { m with txBufs := remove addr m.txBufs }
    match b.state mem with
    | .tx => ({ m with txBufs := insert b m.txBufs }, .ok false)
    | .release | .free =>
      if 0 < b.allocatedCnt then
        ({ m with waitingBufs := insert b m.waitingBufs }, .ok true)
      else (m, .error .transferEmpty)
    | state => (m, .error (.transfer state))

/-- The first loop of `check_free_data` on one buffer: whether it is to be freed. -/
def checkFreed (state : Cmd) : Except Panic Bool :=
  match state with
  | .release => .ok false
  | .free => .ok true
  | state => .error (.freeData state)

/-- The second loop of `check_free_data` on one buffer, once its commands are done with. -/
def giveBack (m : CmdMsgBuffer) (b : CmdBuf) : CmdMsgBuffer :=
  { m with waitingBufs := remove b.addr m.waitingBufs, emptyBufs := b.reset :: m.emptyBufs }

def empty (m : CmdMsgBuffer) : Bool := m.emptyBufs.length = m.numBufs

end CmdMsgBuffer

end Lamellar.CommandQueue
