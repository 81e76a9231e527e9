import Lamellar.Lib.Transition
import Mathlib.Data.Finset.Image
import Mathlib.Data.Fintype.Basic
import Mathlib.Data.Multiset.AddSub

/-!
# Distributed reference counting: `src/darc.rs`

One `Darc` on `P` PEs: the `DarcInner` of every PE with the words of its memory region, the
serialized handles and `FinishedAm`s in flight, and the tasks of every PE, each of them a
`block_on_outstanding` (called by a collective conversion, or by the `DroppedWaitAM` that
the last local drop launches). A PE steps one of its tasks at a time, and may change to
another one at any time (`switch`).

A delivery, a drop and a task take one step for every access to a word that other PEs or
other threads may change meanwhile; the loops of the source over all PEs visit the words in
any order (`todo` is what remains). The other operations on handles are single steps. Puts
take effect at once. A barrier is entered in one step and left in another, when all PEs have
entered it as often.

A handle carries a generation, the number of conversions its PE had called when it was
made, and a PE counts its calls: these are the only parts of the state that the source
does not have.
-/

namespace Lamellar.Darc

inductive DarcMode where
  | dropped
  | darc
  | localRw
  | globalRw
  | unsafeArray
  | readOnlyArray
  | genericAtomicArray
  | nativeAtomicArray
  | localLockArray
  | globalLockArray
  deriving DecidableEq, Repr

/-- A serialized `Darc` in flight from `src` to `dst`. It is `opened` when `total_ref_cnt` of
the receiver counts it. -/
structure NetworkDarc (P : ℕ) where
  src : Fin P
  dst : Fin P
  gen : ℕ
  opened : Bool
  deriving DecidableEq

/-- A `FinishedAm` in flight to `dst`. -/
structure FinishedAm (P : ℕ) where
  dst : Fin P
  cnt : ℕ
  deriving DecidableEq

/-- The barriers of `block_on_outstanding`: the one before the loop, the three of a round,
and the one after the modes were exchanged. -/
inductive BarrierPoint where
  | initial
  | counted
  | checked
  | voted
  | final
  deriving DecidableEq, Repr

/-- Where a task stands. The loops carry the PEs they have not visited yet. -/
inductive Pc (P : ℕ) where
  | start
  | await (b : BarrierPoint)
  | localTest
  | sendFinished
  | readRefs (todo : Finset (Fin P))
  | readDist
  | putRefs (todo : Finset (Fin P))
  | checkLocal
  | checkDist
  | checkRefs (todo : Finset (Fin P)) (barrierSum : ℕ)
  | putIds (todo : Finset (Fin P))
  | readIds (todo : Finset (Fin P))
  | storeMode
  | putModes (todo : Finset (Fin P))
  | waitModes (todo : Finset (Fin P))
  | waitDropped (todo : Finset (Fin P))
  | invalidate
  | waitDist
  | waitLocal
  | dropItem
  | waitWeak
  | free
  | done
  | soloTest
  | soloStore
  deriving DecidableEq

/-- Where a `Drop for Darc` stands that has decremented `local_cnt`. -/
inductive DropPc where
  | sendFinished
  | localTest
  | exchange
  deriving DecidableEq, Repr

/-- The local variables of `block_on_outstanding`. -/
structure Task (P : ℕ) where
  state : DarcMode
  pc : Pc P
  outstandingRefs : Bool
  prevRefCnts : Fin P → ℕ
  oldRefCnts : Fin P → ℕ
  oldLocalCnt : ℕ
  oldDistCnt : ℕ
  barrierId : ℕ
  oldBarrierId : ℕ

structure State (P : ℕ) where
  localCnt : Fin P → ℕ
  totalLocalCnt : Fin P → ℕ
  weakLocalCnt : Fin P → ℕ
  distCnt : Fin P → ℕ
  totalDistCnt : Fin P → ℕ
  /-- `refCnts p q`: the word for `q` in the `ref_cnts` of PE `p`, and so on below. -/
  refCnts : Fin P → Fin P → ℕ
  totalRefCnts : Fin P → Fin P → ℕ
  modes : Fin P → Fin P → DarcMode
  modeRefCnts : Fin P → Fin P → ℕ
  modeBarriers : Fin P → Fin P → ℕ
  valid : Fin P → Bool
  itemDropped : Fin P → Bool
  freed : Fin P → Bool
  /-- The strong handles of a PE, without the one a running conversion has consumed. -/
  handles : Fin P → Multiset ℕ
  weakHandles : Fin P → Multiset ℕ
  /-- The task that a PE steps, and the others it has. -/
  task : Fin P → Option (Task P)
  suspended : Fin P → List (Task P)
  drops : Fin P → Multiset DropPc
  /-- How many barriers of this `Darc` a PE has entered, and the last of them. -/
  entered : Fin P → ℕ
  lastBarrier : Fin P → BarrierPoint
  calls : Fin P → ℕ
  inFlight : Multiset (NetworkDarc P)
  /-- The handles that `ref_cnts` of their receiver counts, but `local_cnt` does not. -/
  arriving : Multiset (NetworkDarc P)
  /-- How many handles of a PE came in that `total_local_cnt` does not count. -/
  unsettled : Fin P → ℕ
  finished : Multiset (FinishedAm P)

variable {P : ℕ}

/-- `f` with the value at `p`, `q` replaced. -/
def update₂ {α : Type} (f : Fin P → Fin P → α) (p q : Fin P) (v : α) : Fin P → Fin P → α :=
  Function.update f p (Function.update (f p) q v)

/-- `try_new_with_drop` on all PEs. The words of `total_ref_cnt` are not initialised: they
hold the `garbage` that was in the memory. -/
def State.new (mode : DarcMode) (garbage : Fin P → Fin P → ℕ) : State P where
  localCnt := fun _ => 1
  totalLocalCnt := fun _ => 1
  weakLocalCnt := fun _ => 0
  distCnt := fun _ => 0
  totalDistCnt := fun _ => 0
  refCnts := fun _ _ => 0
  totalRefCnts := garbage
  modes := fun _ _ => mode
  modeRefCnts := fun _ _ => 0
  modeBarriers := fun _ _ => 0
  valid := fun _ => true
  itemDropped := fun _ => false
  freed := fun _ => false
  handles := fun _ => {0}
  weakHandles := fun _ => 0
  task := fun _ => none
  suspended := fun _ => []
  drops := fun _ => 0
  entered := fun _ => 0
  lastBarrier := fun _ => .final
  calls := fun _ => 0
  inFlight := 0
  arriving := 0
  unsettled := fun _ => 0
  finished := 0

/-- The local variables at the call of `block_on_outstanding`. -/
def Task.new (state : DarcMode) : Task P where
  state := state
  pc := .start
  outstandingRefs := true
  prevRefCnts := fun _ => 0
  oldRefCnts := fun _ => 0
  oldLocalCnt := 0
  oldDistCnt := 0
  barrierId := 1
  oldBarrierId := 1

/-- `outstanding_refs |= b`. -/
def Task.flag (t : Task P) (b : Bool) : Task P :=
  { t with outstandingRefs := t.outstandingRefs || b }

/-- One turn of the put loop: `prev_ref_cnts[q] != old_ref_cnts[q]` is outstanding work. -/
def Task.flagRef (t : Task P) (q : Fin P) : Task P :=
  if t.prevRefCnts q ≠ t.oldRefCnts q then { t with outstandingRefs := true, barrierId := 0 }
  else t

/-- After the checks: an outstanding reference resets the barrier id. -/
def Task.resetId (t : Task P) : Task P :=
  if t.outstandingRefs then { t with barrierId := 0 } else t

/-- The end of a round: `prev_ref_cnts = old_ref_cnts`, `barrier_id = old_barrier_id + 1`. -/
def Task.nextRound (t : Task P) : Task P :=
  { t with prevRefCnts := t.oldRefCnts, barrierId := t.oldBarrierId + 1 }

/-- The head of the loop over rounds. -/
def Task.head (t : Task P) : Task P :=
  { t with outstandingRefs := false, oldBarrierId := t.barrierId, pc := .localTest }

namespace State

def setTask (s : State P) (p : Fin P) (t : Task P) : State P :=
  { s with task := Function.update s.task p (some t) }

/-- A `block_on_outstanding` is called on `p`, beside the tasks that `p` has. -/
def begun (s : State P) (p : Fin P) (state : DarcMode) : State P :=
  { s with
    task := Function.update s.task p (some (Task.new state))
    suspended := Function.update s.suspended p ((s.task p).toList ++ s.suspended p) }

/-- `p` goes on with task number `i` of those it does not step, which is `t`. -/
def switched (s : State P) (p : Fin P) (i : ℕ) (t : Task P) : State P :=
  { s with
    task := Function.update s.task p (some t)
    suspended := Function.update s.suspended p
      ((s.task p).toList ++ (s.suspended p).eraseIdx i) }

def switch (s : State P) (p : Fin P) (i : ℕ) : Option (State P) :=
  (s.suspended p)[i]?.map (s.switched p i)

/-- `send_finished` on PE `p`: swap every word of `ref_cnts` with zero, and send what was
in it to the PE it counts for. -/
def sendFinished (s : State P) (p : Fin P) : State P :=
  { s with
    refCnts := Function.update s.refCnts p fun _ => 0
    finished := s.finished +
      (Finset.univ.filter fun q => 0 < s.refCnts p q).val.map fun q => ⟨q, s.refCnts p q⟩ }

/-! ## Operations on handles -/

/-- One more strong handle on `p`. -/
def cloned (s : State P) (p : Fin P) (g : ℕ) : State P :=
  { s with
    localCnt := Function.update s.localCnt p (s.localCnt p + 1)
    totalLocalCnt := Function.update s.totalLocalCnt p (s.totalLocalCnt p + 1)
    handles := Function.update s.handles p (g ::ₘ s.handles p) }

/-- `Clone for Darc`. -/
def clone (s : State P) (p : Fin P) (g : ℕ) : Option (State P) :=
  if g ∈ s.handles p then some (s.cloned p g) else none

/-- `local_cnt.fetch_sub(1)` of `Drop for Darc`. Only the last handle looks at `ref_cnts`. -/
def uncounted (s : State P) (p : Fin P) (g : ℕ) : State P :=
  { s with
    localCnt := Function.update s.localCnt p (s.localCnt p - 1)
    handles := Function.update s.handles p ((s.handles p).erase g)
    drops := Function.update s.drops p
      ((if s.localCnt p = 1 then .sendFinished else .localTest) ::ₘ s.drops p) }

/-- `Drop for Darc` begins. -/
def drop (s : State P) (p : Fin P) (g : ℕ) : Option (State P) :=
  if g ∈ s.handles p then some (s.uncounted p g) else none

/-- A drop on `p` goes on from `pc`, or ends. -/
def dropOn (s : State P) (p : Fin P) (pc : DropPc) (next : Multiset DropPc) : State P :=
  { s with drops := Function.update s.drops p ((s.drops p).erase pc + next) }

/-- The mode of `p` is `Dropped` and its `DroppedWaitAM` runs. -/
def launched (s : State P) (p : Fin P) : State P :=
  { s.begun p .dropped with modes := update₂ s.modes p p .dropped }

/-- The next step of a drop. Without local references, the first drop that finds the mode not
yet `Dropped` replaces it and launches the `DroppedWaitAM`. -/
def runDrop (s : State P) (p : Fin P) (pc : DropPc) : Option (State P) :=
  if pc ∈ s.drops p then
    match pc with
    | .sendFinished =>
      let s := s.dropOn p pc {.localTest}
      some (if ∃ q, 0 < s.refCnts p q then s.sendFinished p else s)
    | .localTest => some (s.dropOn p pc (if s.localCnt p = 0 then {.exchange} else 0))
    | .exchange =>
      let s := s.dropOn p pc 0
      some (if s.modes p p ≠ .dropped then s.launched p else s)
  else none

/-- Serialized handles for the PEs `dsts` are on their way. The clone that becomes the
`NetworkDarc` was dropped again. -/
def serialized (s : State P) (p : Fin P) (g : ℕ) (dsts : List (Fin P)) : State P :=
  { s with
    totalLocalCnt := Function.update s.totalLocalCnt p (s.totalLocalCnt p + 1)
    distCnt := Function.update s.distCnt p (s.distCnt p + dsts.length)
    totalDistCnt := Function.update s.totalDistCnt p (s.totalDistCnt p + dsts.length)
    inFlight := s.inFlight +
      ((dsts.map fun q => NetworkDarc.mk p q g false : List _) : Multiset _) }

/-- `DarcSerde::ser` for the destinations of one message. -/
def serialize (s : State P) (p : Fin P) (g : ℕ) (dsts : List (Fin P)) : Option (State P) :=
  if g ∈ s.handles p ∧ p ∉ dsts then some (s.serialized p g dsts) else none

/-- `total_ref_cnt.fetch_add(1)` of `inc_pe_ref_count`. -/
def opened (s : State P) (m : NetworkDarc P) : State P :=
  { s with
    totalRefCnts := update₂ s.totalRefCnts m.dst m.src (s.totalRefCnts m.dst m.src + 1)
    inFlight := { m with opened := true } ::ₘ s.inFlight.erase m }

/-- `DarcSerde::des` of a message begins: `deserialize_update_cnts`, `inc_pe_ref_count`. -/
def deliver (s : State P) (m : NetworkDarc P) : Option (State P) :=
  if m ∈ s.inFlight ∧ m.opened = false then some (s.opened m) else none

/-- `ref_cnt.fetch_add(1)` of `inc_pe_ref_count`. -/
def credited (s : State P) (m : NetworkDarc P) : State P :=
  { s with
    refCnts := update₂ s.refCnts m.dst m.src (s.refCnts m.dst m.src + 1)
    inFlight := s.inFlight.erase m
    arriving := m ::ₘ s.arriving }

def credit (s : State P) (m : NetworkDarc P) : Option (State P) :=
  if m ∈ s.inFlight ∧ m.opened = true then some (s.credited m) else none

/-- `local_cnt.fetch_add(1)` of `deserialize_update_cnts`: the handle is counted. -/
def held (s : State P) (m : NetworkDarc P) : State P :=
  { s with
    localCnt := Function.update s.localCnt m.dst (s.localCnt m.dst + 1)
    handles := Function.update s.handles m.dst (m.gen ::ₘ s.handles m.dst)
    arriving := s.arriving.erase m
    unsettled := Function.update s.unsettled m.dst (s.unsettled m.dst + 1) }

def hold (s : State P) (m : NetworkDarc P) : Option (State P) :=
  if m ∈ s.arriving then some (s.held m) else none

/-- `total_local_cnt.fetch_add(1)` of `deserialize_update_cnts`. -/
def settled (s : State P) (p : Fin P) : State P :=
  { s with
    totalLocalCnt := Function.update s.totalLocalCnt p (s.totalLocalCnt p + 1)
    unsettled := Function.update s.unsettled p (s.unsettled p - 1) }

def settle (s : State P) (p : Fin P) : Option (State P) :=
  if 0 < s.unsettled p then some (s.settled p) else none

/-- `dist_cnt.fetch_sub(cnt)`. -/
def executed (s : State P) (m : FinishedAm P) : State P :=
  { s with
    distCnt := Function.update s.distCnt m.dst (s.distCnt m.dst - m.cnt)
    finished := s.finished.erase m }

/-- `FinishedAm::exec`. -/
def execFinished (s : State P) (m : FinishedAm P) : Option (State P) :=
  if m ∈ s.finished then some (s.executed m) else none

/-- The weak handles of `p` are `weak`, and their count is `cnt`. -/
def reweakened (s : State P) (p : Fin P) (cnt : ℕ) (weak : Multiset ℕ) : State P :=
  { s with
    weakLocalCnt := Function.update s.weakLocalCnt p cnt
    weakHandles := Function.update s.weakHandles p weak }

/-- `Darc::downgrade`. -/
def downgrade (s : State P) (p : Fin P) (g : ℕ) : Option (State P) :=
  if g ∈ s.handles p then some (s.reweakened p (s.weakLocalCnt p + 1) (g ::ₘ s.weakHandles p))
  else none

/-- `Clone for WeakDarc`. -/
def weakClone (s : State P) (p : Fin P) (g : ℕ) : Option (State P) :=
  if g ∈ s.weakHandles p then
    some (s.reweakened p (s.weakLocalCnt p + 1) (g ::ₘ s.weakHandles p))
  else none

/-- `Drop for WeakDarc`. -/
def weakDrop (s : State P) (p : Fin P) (g : ℕ) : Option (State P) :=
  if g ∈ s.weakHandles p then
    some (s.reweakened p (s.weakLocalCnt p - 1) ((s.weakHandles p).erase g))
  else none

/-- What a failed upgrade leaves behind: it has taken `local_cnt` back. -/
def upgradeFailed (s : State P) (p : Fin P) : State P :=
  { s with totalLocalCnt := Function.update s.totalLocalCnt p (s.totalLocalCnt p + 1) }

/-- `WeakDarc::upgrade`: it looks at `valid` only. -/
def upgrade (s : State P) (p : Fin P) (g : ℕ) : Option (State P) :=
  if g ∈ s.weakHandles p then
    if s.valid p then some (s.cloned p g) else some (s.upgradeFailed p)
  else none

/-- A conversion has consumed a handle of `p` and calls `block_on_outstanding`. -/
def converting (s : State P) (p : Fin P) (g : ℕ) (state : DarcMode) : State P :=
  { s.begun p state with handles := Function.update s.handles p ((s.handles p).erase g) }

/-- The call of a collective conversion (`into_localrw`, `into_globalrw`, …) on a handle. -/
def convert (s : State P) (p : Fin P) (g : ℕ) (state : DarcMode) : Option (State P) :=
  if g ∈ s.handles p ∧ state ≠ .dropped then some (s.converting p g state) else none

/-! ## `block_on_outstanding` and `DroppedWaitAM` -/

/-- `async_barrier()`: the PE has entered the barrier and waits for the others. -/
def enter (s : State P) (p : Fin P) (t : Task P) (b : BarrierPoint) : State P :=
  { s with
    entered := Function.update s.entered p (s.entered p + 1)
    lastBarrier := Function.update s.lastBarrier p b
    task := Function.update s.task p (some { t with pc := .await b }) }

/-- The return of a collective conversion: the handle moves into the new `Darc`, which is
counted, and the old one is dropped. -/
def returned (s : State P) (p : Fin P) : State P :=
  { s with
    totalLocalCnt := Function.update s.totalLocalCnt p (s.totalLocalCnt p + 1)
    handles := Function.update s.handles p (s.calls p ::ₘ s.handles p)
    task := Function.update s.task p none }

/-- The return of `block_on_outstanding`: `DroppedWaitAM` goes on to wait for the modes of
all PEs. -/
def finishCall (s : State P) (p : Fin P) (t : Task P) : State P :=
  if t.state = .dropped then s.setTask p { t with pc := .waitDropped Finset.univ }
  else s.returned p

def called (s : State P) (p : Fin P) : State P :=
  { s with calls := Function.update s.calls p (s.calls p + 1) }

/-- A put of `old_ref_cnts[q]`, of the barrier id and of the mode to PE `q`. -/
def putRef (s : State P) (p q : Fin P) (v : ℕ) : State P :=
  { s with modeRefCnts := update₂ s.modeRefCnts q p v }

def putId (s : State P) (p q : Fin P) (v : ℕ) : State P :=
  { s with modeBarriers := update₂ s.modeBarriers q p v }

def putMode (s : State P) (p q : Fin P) (m : DarcMode) : State P :=
  { s with modes := update₂ s.modes q p m }

/-- All PEs have entered the barrier: what comes after it. -/
def passBarrier (s : State P) (p : Fin P) (t : Task P) : BarrierPoint → State P
  | .initial => s.setTask p t.head
  | .counted => s.setTask p { t with pc := .checkLocal }
  | .checked => s.setTask p { t with pc := .putIds Finset.univ }
  | .voted => s.setTask p { t with pc := .readIds Finset.univ }
  | .final => s.finishCall p t

/-- After the ids were read: another round if anything is outstanding. -/
def endRound (s : State P) (p : Fin P) (t : Task P) : State P :=
  if t.outstandingRefs then s.setTask p t.nextRound.head
  else s.setTask p { t.nextRound with pc := .storeMode }

/-- The next step of the task of PE `p`; a loop visits PE `q`. -/
def runTask (s : State P) (p : Fin P) (t : Task P) (q : Fin P) : Option (State P) :=
  match t.pc with
  | .start =>
    let s := s.called p
    if P = 1 then some (s.setTask p { t with pc := .soloTest }) else some (s.enter p t .initial)
  | .await b =>
    if ∀ r, s.entered p ≤ s.entered r then some (s.passBarrier p t b) else none
  | .localTest =>
    if s.localCnt p ≤ 1 then some (s.setTask p { t with pc := .sendFinished }) else none
  | .sendFinished =>
    some ((s.sendFinished p).setTask p { t with pc := .readRefs Finset.univ })
  | .readRefs todo =>
    if q ∈ todo then some (s.setTask p
      { t with
        oldRefCnts := Function.update t.oldRefCnts q (s.totalRefCnts p q)
        pc := .readRefs (todo.erase q) })
    else if todo = ∅ then
      some (s.setTask p { t with oldLocalCnt := s.totalLocalCnt p, pc := .readDist })
    else none
  | .readDist =>
    some (s.setTask p { t with oldDistCnt := s.totalDistCnt p, pc := .putRefs Finset.univ })
  | .putRefs todo =>
    if q ∈ todo then
      let s := if t.prevRefCnts q ≠ t.oldRefCnts q then s.putRef p q (t.oldRefCnts q) else s
      some (s.setTask p { t.flagRef q with pc := .putRefs (todo.erase q) })
    else if todo = ∅ then some (s.enter p t .counted)
    else none
  | .checkLocal =>
    some (s.setTask p
      { t.flag (t.oldLocalCnt ≠ s.totalLocalCnt p) with pc := .checkDist })
  | .checkDist =>
    some (s.setTask p
      { t.flag (t.oldDistCnt ≠ s.totalDistCnt p) with pc := .checkRefs Finset.univ 0 })
  | .checkRefs todo barrierSum =>
    if q ∈ todo then some (s.setTask p
      { t.flag (t.oldRefCnts q ≠ s.totalRefCnts p q) with
        pc := .checkRefs (todo.erase q) (barrierSum + s.modeRefCnts p q) })
    else if todo = ∅ then
      some (s.enter p (t.flag (barrierSum ≠ t.oldDistCnt)).resetId .checked)
    else none
  | .putIds todo =>
    if q ∈ todo then
      some ((s.putId p q t.barrierId).setTask p { t with pc := .putIds (todo.erase q) })
    else if todo = ∅ then some (s.enter p t .voted)
    else none
  | .readIds todo =>
    if q ∈ todo then some (s.setTask p
      { t.flag (s.modeBarriers p q = 0) with pc := .readIds (todo.erase q) })
    else if todo = ∅ then some (s.endRound p t)
    else none
  | .storeMode =>
    some ((s.putMode p p t.state).setTask p { t with pc := .putModes Finset.univ })
  | .putModes todo =>
    if q ∈ todo then
      some ((s.putMode p q t.state).setTask p { t with pc := .putModes (todo.erase q) })
    else if todo = ∅ then some (s.setTask p { t with pc := .waitModes Finset.univ })
    else none
  | .waitModes todo =>
    if q ∈ todo then
      if s.modes p q = t.state then some (s.setTask p { t with pc := .waitModes (todo.erase q) })
      else if s.localCnt p = 1 then some (s.sendFinished p)
      else none
    else if todo = ∅ then some (s.enter p t .final)
    else none
  | .waitDropped todo =>
    if q ∈ todo then
      if s.modes p q = .dropped then
        some (s.setTask p { t with pc := .waitDropped (todo.erase q) })
      else if s.localCnt p = 0 then some (s.sendFinished p)
      else none
    else if todo = ∅ then some (s.setTask p { t with pc := .invalidate })
    else none
  | .invalidate =>
    some ({ s with valid := Function.update s.valid p false }.setTask p
      { t with pc := .waitDist })
  | .waitDist =>
    if s.distCnt p = 0 then some (s.setTask p { t with pc := .waitLocal })
    else if s.localCnt p = 0 then some (s.sendFinished p)
    else none
  | .waitLocal =>
    if s.localCnt p = 0 then some (s.setTask p { t with pc := .dropItem })
    else some (s.setTask p { t with pc := .waitDist })
  | .dropItem =>
    some ({ s with itemDropped := Function.update s.itemDropped p true }.setTask p
      { t with pc := .waitWeak })
  | .waitWeak =>
    if s.weakLocalCnt p = 0 then some (s.setTask p { t with pc := .free }) else none
  | .free =>
    some ({ s with freed := Function.update s.freed p true }.setTask p { t with pc := .done })
  | .done => none
  | .soloTest =>
    if s.localCnt p ≤ 1 then some (s.setTask p { t with pc := .soloStore }) else none
  | .soloStore =>
    some ((s.putMode p p t.state).finishCall p t)

end State

/-! ## The system -/

inductive Action (P : ℕ) where
  | clone (p : Fin P) (g : ℕ)
  | drop (p : Fin P) (g : ℕ)
  | runDrop (p : Fin P) (pc : DropPc)
  | serialize (p : Fin P) (g : ℕ) (dsts : List (Fin P))
  | deliver (m : NetworkDarc P)
  | credit (m : NetworkDarc P)
  | hold (m : NetworkDarc P)
  | settle (p : Fin P)
  | execFinished (m : FinishedAm P)
  | downgrade (p : Fin P) (g : ℕ)
  | weakClone (p : Fin P) (g : ℕ)
  | weakDrop (p : Fin P) (g : ℕ)
  | upgrade (p : Fin P) (g : ℕ)
  | convert (p : Fin P) (g : ℕ) (state : DarcMode)
  | switch (p : Fin P) (i : ℕ)
  | run (p q : Fin P)

def State.step (s : State P) : Action P → Option (State P)
  | .clone p g => s.clone p g
  | .drop p g => s.drop p g
  | .runDrop p pc => s.runDrop p pc
  | .serialize p g dsts => s.serialize p g dsts
  | .deliver m => s.deliver m
  | .credit m => s.credit m
  | .hold m => s.hold m
  | .settle p => s.settle p
  | .execFinished m => s.execFinished m
  | .downgrade p g => s.downgrade p g
  | .weakClone p g => s.weakClone p g
  | .weakDrop p g => s.weakDrop p g
  | .upgrade p g => s.upgrade p g
  | .convert p g state => s.convert p g state
  | .switch p i => s.switch p i
  | .run p q =>
    match s.task p with
    | some t => s.runTask p t q
    | none => none

/-- A new `Darc`, whatever its memory held before. -/
def Initial (s : State P) : Prop :=
  ∃ mode garbage, mode ≠ DarcMode.dropped ∧ s = State.new mode garbage

/-- The states of all runs. -/
def Reachable (s : State P) : Prop :=
  Transition.Reach Initial State.step (fun _ _ => True) s

end Lamellar.Darc
