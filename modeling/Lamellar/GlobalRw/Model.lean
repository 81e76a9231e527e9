import Lamellar.Lib.Transition
import Lamellar.Lib.Pool

/-!
# The global lock: `src/darc/global_rw_darc.rs`

The `DistRwLock` of a `GlobalRwDarc` on `P` PEs. Its atomics live on PE 0, where every lock
and unlock runs as a `LockAm` or an `UnlockAm`; `collective_cnt` is the only one that each PE
uses in its own copy. A call is one use of the lock by one task, from the `LockAm` over the
guards to the end of the `UnlockAm`. Any number of calls run side by side, and each takes one
step for every access to an atomic. A spin loop has no step until its condition holds.

A call that has ended stays in the state, and so does one that has panicked.
-/

namespace Lamellar.GlobalRw

inductive LockType where
  | read
  | write
  | collectiveWrite (cnt : ℕ)
  deriving DecidableEq, Repr

/-- Where a call stands in the methods of `DistRwLock`. -/
inductive Pc where
  /-- `async_reader_lock` -/
  | readWait
  | readAdd
  | readCheck
  | readBack
  /-- `async_writer_lock` -/
  | writerSwap
  | writerReaders
  /-- `async_collective_writer_lock` -/
  | collectiveWriter
  | collectiveReaders
  | collectiveSub
  | collectiveZero
  /-- The lock has returned, its guards are in use. -/
  | held
  /-- `reader_unlock` -/
  | readSub
  /-- `writer_unlock` -/
  | writerRelease
  /-- `collective_writer_unlock` -/
  | collectiveCheck
  | collectiveAdd
  | collectiveFull
  | collectiveRelease
  | done
  | panicked
  deriving DecidableEq, Repr

/-- One use of the lock by a task on `pe`. `guards` is the number of guards in use, `localCnt`
the `local_cnt` that read guards share. -/
structure Call (P : ℕ) where
  pe : Fin P
  lockType : LockType
  pc : Pc
  localCnt : ℕ
  guards : ℕ
  deriving DecidableEq

/-- The atomics on PE 0. -/
structure DistRwLock where
  readers : ℕ
  writer : ℕ
  collectiveWriter : ℕ

structure State (P : ℕ) where
  lock : DistRwLock
  /-- `collective_cnt` in the copy of each PE. -/
  collectiveCnt : Fin P → ℕ
  calls : Multiset (Call P)

variable {P : ℕ}

/-- `DistRwLock::new` on all PEs. -/
def State.new : State P where
  lock := ⟨0, P, P⟩
  collectiveCnt := fun _ => P + 1
  calls := 0

namespace Call

/-- What the call stores in `writer` to own the lock. -/
def id (c : Call P) : ℕ :=
  match c.lockType with
  | .collectiveWrite cnt => cnt
  | _ => c.pe

/-- The lock has returned: one guard. -/
def acquired (c : Call P) : Call P := { c with pc := .held, localCnt := 1, guards := 1 }

/-- The next step of the call, on PE 0. -/
def run (l : DistRwLock) (c : Call P) : Option (DistRwLock × Call P) :=
  match c.pc with
  | .readWait => if l.writer = P then some (l, { c with pc := .readAdd }) else none
  | .readAdd => some ({ l with readers := l.readers + 1 }, { c with pc := .readCheck })
  | .readCheck =>
    if l.writer = P then some (l, c.acquired) else some (l, { c with pc := .readBack })
  | .readBack => some ({ l with readers := l.readers - 1 }, { c with pc := .readWait })
  | .writerSwap =>
    if l.writer = P then some ({ l with writer := c.id }, { c with pc := .writerReaders })
    else none
  | .writerReaders =>
    if l.readers = 0 then
      match c.lockType with
      | .collectiveWrite _ => some (l, { c with pc := .collectiveSub })
      | _ => some (l, c.acquired)
    else none
  | .collectiveWriter =>
    if l.writer = c.id then some (l, { c with pc := .collectiveReaders }) else none
  | .collectiveReaders =>
    if l.readers = 0 then some (l, { c with pc := .collectiveSub }) else none
  | .collectiveSub =>
    some ({ l with collectiveWriter := l.collectiveWriter - 1 }, { c with pc := .collectiveZero })
  | .collectiveZero => if l.collectiveWriter = 0 then some (l, c.acquired) else none
  | .held => none
  | .readSub => some ({ l with readers := l.readers - 1 }, { c with pc := .done })
  | .writerRelease =>
    if l.writer = c.id then some ({ l with writer := P }, { c with pc := .done })
    else some (l, { c with pc := .panicked })
  | .collectiveCheck =>
    if l.writer = c.id then some (l, { c with pc := .collectiveAdd })
    else some (l, { c with pc := .panicked })
  | .collectiveAdd =>
    some ({ l with collectiveWriter := l.collectiveWriter + 1 }, { c with pc := .collectiveFull })
  | .collectiveFull =>
    if l.collectiveWriter = P then
      if c.pe.val = 0 then some (l, { c with pc := .collectiveRelease })
      else some (l, { c with pc := .done })
    else none
  | .collectiveRelease =>
    if l.writer = c.id then some ({ l with writer := P }, { c with pc := .done })
    else some (l, { c with pc := .panicked })
  | .done => none
  | .panicked => none

/-- `Clone for GlobalRwDarcReadGuard`. -/
def cloneGuard (c : Call P) : Option (Call P) :=
  if 0 < c.guards ∧ c.lockType = .read then
    some { c with localCnt := c.localCnt + 1, guards := c.guards + 1 }
  else none

/-- The `Drop` of a guard: it launches the `UnlockAm`, for a read guard only the last one. -/
def dropGuard (c : Call P) : Option (Call P) :=
  if 0 < c.guards then
    match c.lockType with
    | .read =>
      some
        { c with
          localCnt := c.localCnt - 1
          guards := c.guards - 1
          pc := if c.localCnt = 1 then .readSub else c.pc }
    | .write => some { c with guards := c.guards - 1, pc := .writerRelease }
    | .collectiveWrite _ => some { c with guards := c.guards - 1, pc := .collectiveCheck }
  else none

end Call

/-! ## The system -/

inductive Action (P : ℕ) where
  /-- `read`, `write` and `collective_write` on a PE. -/
  | read (pe : Fin P)
  | write (pe : Fin P)
  | collectiveWrite (pe : Fin P)
  | run (c : Call P)
  | cloneGuard (c : Call P)
  | dropGuard (c : Call P)

namespace State

/-- A new call. -/
def called (s : State P) (pe : Fin P) (lockType : LockType) (pc : Pc) : State P :=
  { s with calls := ⟨pe, lockType, pc, 0, 0⟩ ::ₘ s.calls }

/-- `GlobalRwDarc::collective_write`: PE 0 takes the lock for all others. -/
def collectiveWrite (s : State P) (pe : Fin P) : State P :=
  { s.called pe (.collectiveWrite (s.collectiveCnt pe))
      (if pe.val = 0 then .writerSwap else .collectiveWriter) with
    collectiveCnt := Function.update s.collectiveCnt pe (s.collectiveCnt pe + 1) }

/-- The call `c` has become `c'`. -/
def stepped (s : State P) (l : DistRwLock) (c c' : Call P) : State P :=
  { s with lock := l, calls := Pool.replace s.calls c c' }

def step (s : State P) : Action P → Option (State P)
  | .read pe => some (s.called pe .read .readWait)
  | .write pe => some (s.called pe .write .writerSwap)
  | .collectiveWrite pe => some (s.collectiveWrite pe)
  | .run c =>
    if c ∈ s.calls then (c.run s.lock).map fun (l, c') => s.stepped l c c' else none
  | .cloneGuard c =>
    if c ∈ s.calls then c.cloneGuard.map fun c' => s.stepped s.lock c c' else none
  | .dropGuard c =>
    if c ∈ s.calls then c.dropGuard.map fun c' => s.stepped s.lock c c' else none

end State

/-- The states of all runs. -/
def Reachable (s : State P) : Prop :=
  Transition.Reach (· = State.new) State.step (fun _ _ => True) s

end Lamellar.GlobalRw
