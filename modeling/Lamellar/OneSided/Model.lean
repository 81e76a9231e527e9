import Lamellar.Lib.Transition
import Mathlib.Data.Multiset.AddSub
import Mathlib.Data.Multiset.MapFold
import Mathlib.Algebra.BigOperators.Group.Multiset.Basic
import Mathlib.Algebra.Group.Nat.Defs

/-!
# One-sided memory regions: `src/memregion/one_sided.rs`

The handles of one-sided regions on the `P` PEs of the world team. A `MemRegionHandleInner`
counts the handles of its PE, and each PE finds its own in `ONE_SIDED_MEM_REGIONS` by the
`my_id` of the one whose handle it has received. A copy that is received counts for the
sender until the receiver returns it with a `MemRegionFinishedAm`.

A section of the source that holds the lock of the map is one step, and so is every access to
a counter outside of it. An active message is never serialized for its own PE. `entries` holds
all the `Arc`s that were ever made, also those that nothing owns any more.
-/

namespace Lamellar.OneSided

variable {P : ℕ}

/-- What does not change in a `MemRegionHandleInner`. `region` says which memory `mr` is: the
`my_id` of the one that has allocated it. -/
structure Ids (P : ℕ) where
  region : ℕ × Fin P
  myId : ℕ × Fin P
  parentId : ℕ × Fin P
  grandParentId : ℕ × Fin P
  deriving DecidableEq

/-- Where a `MemRegionDropWaitAm` stands: at the load of `remote_sent` or of `local_ref` in its
loop, or at the lock of the map. -/
inductive WaitPc where
  | sent
  | ref
  | lock
  deriving DecidableEq

structure MemRegionHandleInner (P : ℕ) extends Ids P where
  localRef : ℕ
  remoteSent : ℕ
  remoteRecv : ℕ
  localDropped : Bool
  /-- The handles of the PE that `des` has counted, or that `new` or `clone` has made. -/
  handles : ℕ
  /-- The handles of the PE that are deserialized and not yet counted by `des`. -/
  opened : ℕ
  /-- `local_dropped` lets at most one `MemRegionDropWaitAm` start. -/
  wait : Option WaitPc
  deriving DecidableEq

/-- On the world team, the ids of a PE carry its number. -/
def Ids.pe (e : Ids P) : Fin P := e.myId.2

structure NetMemRegionHandle (P : ℕ) where
  dst : Fin P
  region : ℕ × Fin P
  myId : ℕ × Fin P
  parentId : ℕ × Fin P
  deriving DecidableEq

structure MemRegionFinishedAm (P : ℕ) where
  dst : Fin P
  cnt : ℕ
  parentId : ℕ × Fin P
  deriving DecidableEq

structure State (P : ℕ) where
  entries : List (MemRegionHandleInner P)
  /-- `ONE_SIDED_MEM_REGIONS` of each PE, with the positions in `entries` -/
  map : Fin P → ℕ × Fin P → Option ℕ
  idCounter : Fin P → ℕ
  inFlight : Multiset (NetMemRegionHandle P)
  finished : Multiset (MemRegionFinishedAm P)

inductive Action (P : ℕ) where
  /-- `OneSidedMemoryRegion::try_new` -/
  | new (p : Fin P)
  | clone (i : ℕ)
  /-- `ser`, with the PEs that the message goes to -/
  | ser (i : ℕ) (dsts : List (Fin P))
  /-- `From<NetMemRegionHandle>` -/
  | receive (m : NetMemRegionHandle P)
  | des (i : ℕ)
  | drop (i : ℕ)
  | finish (m : MemRegionFinishedAm P)
  | waitStep (i : ℕ)

/-- `NetMemRegionHandle::from` -/
def Ids.net (e : Ids P) (dst : Fin P) : NetMemRegionHandle P := ⟨dst, e.region, e.myId, e.parentId⟩

namespace State

def empty : State P where
  entries := []
  map := fun _ _ => none
  idCounter := fun _ => 0
  inFlight := 0
  finished := 0

def setEntry (s : State P) (i : ℕ) (e : MemRegionHandleInner P) : State P :=
  { s with entries := s.entries.set i e }

def setMap (s : State P) (p : Fin P) (key : ℕ × Fin P) (v : Option ℕ) : State P :=
  { s with map := Function.update s.map p (Function.update (s.map p) key v) }

/-- A new `Arc` on PE `p`, under `key` in its map. -/
def insert (s : State P) (p : Fin P) (key : ℕ × Fin P) (e : MemRegionHandleInner P) : State P :=
  { s.setMap p key (some s.entries.length) with
    entries := s.entries ++ [e]
    idCounter := Function.update s.idCounter p (s.idCounter p + 1) }

def new (s : State P) (p : Fin P) : State P :=
  let id := (s.idCounter p, p)
  s.insert p id
    { region := id, myId := id, parentId := id, grandParentId := id
      localRef := 1, remoteSent := 0, remoteRecv := 0, localDropped := false
      handles := 1, opened := 0, wait := none }

def clone (s : State P) (i : ℕ) (e : MemRegionHandleInner P) : State P :=
  s.setEntry i { e with localRef := e.localRef + 1, handles := e.handles + 1 }

def ser (s : State P) (i : ℕ) (e : MemRegionHandleInner P) (dsts : List (Fin P)) : State P :=
  { s.setEntry i { e with remoteSent := e.remoteSent + dsts.length } with
    inFlight := s.inFlight + (dsts.map e.net : Multiset (NetMemRegionHandle P)) }

def receive (s : State P) (m : NetMemRegionHandle P) : Option (State P) :=
  let s' := { s with inFlight := s.inFlight.erase m }
  match s.map m.dst m.myId with
  | some i =>
    match s.entries[i]? with
    | some e => some (s'.setEntry i { e with localRef := e.localRef + 1, opened := e.opened + 1 })
    | none => none
  | none =>
    some
      (s'.insert m.dst m.myId
        { region := m.region, myId := (s.idCounter m.dst, m.dst)
          parentId := m.myId, grandParentId := m.parentId
          localRef := 1, remoteSent := 0, remoteRecv := 0, localDropped := false
          handles := 0, opened := 1, wait := none })

def des (s : State P) (i : ℕ) (e : MemRegionHandleInner P) : State P :=
  s.setEntry i
    { e with remoteRecv := e.remoteRecv + 1, opened := e.opened - 1, handles := e.handles + 1 }

/-- Both `Drop` and `MemRegionDropWaitAm` end so: `e` leaves the map, and what it has received
is returned. -/
def release (s : State P) (i : ℕ) (e : MemRegionHandleInner P) : State P :=
  let s' := s.setMap e.pe e.parentId none
  if e.myId ≠ e.parentId then
    { s'.setEntry i { e with remoteRecv := 0 } with
      finished :=
        if e.remoteRecv > 0 then ⟨e.parentId.2, e.remoteRecv, e.grandParentId⟩ ::ₘ s.finished
        else s.finished }
  else s'.setEntry i e

def drop (s : State P) (i : ℕ) (e : MemRegionHandleInner P) : State P :=
  let e' := { e with localRef := e.localRef - 1, handles := e.handles - 1 }
  if e.localRef = 1 ∧ e.localDropped = false then
    if e.remoteSent = 0 then s.release i { e' with localDropped := true }
    else s.setEntry i { e' with localDropped := true, wait := some .sent }
  else s.setEntry i e'

/-- `MemRegionFinishedAm`; the source prints a message if the map has no entry. -/
def finish (s : State P) (m : MemRegionFinishedAm P) : State P :=
  let s' := { s with finished := s.finished.erase m }
  match s.map m.dst m.parentId with
  | some i =>
    { s' with
      entries := s.entries.modify i fun e => { e with remoteSent := e.remoteSent - m.cnt } }
  | none => s'

def waitStep (s : State P) (i : ℕ) (e : MemRegionHandleInner P) : Option (State P) :=
  match e.wait with
  | some .sent =>
    some (s.setEntry i { e with wait := some (if e.remoteSent ≠ 0 then .sent else .ref) })
  | some .ref =>
    some (s.setEntry i { e with wait := some (if e.localRef ≠ 0 then .sent else .lock) })
  | some .lock =>
    if e.remoteSent = 0 ∧ e.localRef = 0 then some (s.release i { e with wait := none })
    else some (s.setEntry i { e with wait := some .sent })
  | none => none

def step (s : State P) : Action P → Option (State P)
  | .new p => some (s.new p)
  | .clone i =>
    match s.entries[i]? with
    | some e => if 0 < e.handles then some (s.clone i e) else none
    | none => none
  | .ser i dsts =>
    match s.entries[i]? with
    | some e => if 0 < e.handles ∧ e.pe ∉ dsts then some (s.ser i e dsts) else none
    | none => none
  | .receive m => if m ∈ s.inFlight then s.receive m else none
  | .des i =>
    match s.entries[i]? with
    | some e => if 0 < e.opened then some (s.des i e) else none
    | none => none
  | .drop i =>
    match s.entries[i]? with
    | some e => if 0 < e.handles then some (s.drop i e) else none
    | none => none
  | .finish m => if m ∈ s.finished then some (s.finish m) else none
  | .waitStep i =>
    match s.entries[i]? with
    | some e => s.waitStep i e
    | none => none

end State

/-- The states of all runs. -/
abbrev Reachable : State P → Prop :=
  Transition.Reach (· = State.empty) State.step fun _ _ => True

/-! ## What a state says -/

namespace State

/-- `e` at position `i` is in the map of its PE. -/
def Live (s : State P) (i : ℕ) (e : Ids P) : Prop := s.map e.pe e.parentId = some i

/-- The owners of an `Arc`: the map, the handles and the `MemRegionDropWaitAm`. -/
def owners (s : State P) (i : ℕ) (e : MemRegionHandleInner P) : ℕ :=
  (if s.map e.pe e.parentId = some i then 1 else 0) + e.handles + e.opened +
    if e.wait.isSome then 1 else 0

/-- The `Arc` that has allocated the region has no owner any more: `Drop for MemoryRegion` has
freed the memory. -/
def Freed (s : State P) (region : ℕ × Fin P) : Prop :=
  ∃ i e, s.entries[i]? = some e ∧ e.myId = region ∧ e.myId = e.parentId ∧ s.owners i e = 0

/-- The sum of `w` over the children of `id`: those that were made from its messages. -/
def overChildren (s : State P) (w : MemRegionHandleInner P → ℕ) (id : ℕ × Fin P) : ℕ :=
  (s.entries.map fun c => if c.parentId = id ∧ c.myId ≠ id then w c else 0).sum

/-- The copies from `id` that no `des` has counted yet. -/
def copiesFrom (s : State P) (id : ℕ × Fin P) : ℕ :=
  s.inFlight.countP (fun m => m.myId = id) + s.overChildren (fun c => c.opened) id

/-- What the children of `id` have received and not returned yet. -/
def unreturned (s : State P) (id : ℕ × Fin P) : ℕ := s.overChildren (fun c => c.remoteRecv) id

end State

/-- The counts of the messages in `finished` that are for `e`. -/
def Ids.finishedTo (e : Ids P) (finished : Multiset (MemRegionFinishedAm P)) : ℕ :=
  (finished.map fun m => if m.dst = e.pe ∧ m.parentId = e.parentId then m.cnt else 0).sum

end Lamellar.OneSided
