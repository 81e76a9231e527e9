import Lamellar.Memregion.Views
import Lamellar.OneSided.Model
import Lamellar.Team.Subteam

/-!
# One-sided memory regions of teams

The handles of `Model`, of the teams in a world of `n` PEs. PEs are named by their numbers in the
world. The ids of a handle carry a number, too: that of the PE in the world where the region is
allocated (`mr.pe`), but that of the PE in the team of the region where a handle is received
(`team.team_pe`).
-/

namespace Lamellar.OneSided.Teams

open Lamellar.Team Lamellar.Memregion Lamellar.Transition

/-- What does not change in a `MemRegionHandleInner` of PE `pe`. `addrPe` is the PE that
`local_addr` was given for the address of `mr`. The source does not have `region` (see `Model`)
and `sender`, the position of the handle whose message this one was made from. -/
structure Ids where
  pe : ℕ
  team : LamellarArchRT
  mrPe : ℕ
  addrPe : Option ℕ
  myId : ℕ × ℕ
  parentId : ℕ × ℕ
  grandParentId : ℕ × ℕ
  region : ℕ × ℕ
  sender : Option ℕ

/-- `remote_sent` wraps around below zero. -/
structure MemRegionHandleInner extends Ids where
  localRef : ℕ
  remoteSent : ℤ
  remoteRecv : ℕ
  localDropped : Bool
  handles : ℕ
  opened : ℕ
  wait : Option WaitPc

/-- The address is the one of `sender`, on its PE. -/
structure NetMemRegionHandle where
  dst : ℕ
  team : LamellarArchRT
  mrPe : ℕ
  myId : ℕ × ℕ
  parentId : ℕ × ℕ
  region : ℕ × ℕ
  sender : ℕ

/-- The handle at `child` returns what it has received. -/
structure MemRegionFinishedAm where
  dst : ℕ
  cnt : ℕ
  parentId : ℕ × ℕ
  child : ℕ

structure State where
  entries : List MemRegionHandleInner
  map : ℕ → ℕ × ℕ → Option ℕ
  idCounter : ℕ → ℕ
  inFlight : List NetMemRegionHandle
  finished : List MemRegionFinishedAm

/-- `receive` and `finish` take the message at position `k`. -/
inductive Action where
  | new (p : ℕ) (team : LamellarArchRT)
  | clone (i : ℕ)
  | ser (i : ℕ) (dsts : List ℕ)
  | receive (k : ℕ)
  | des (i : ℕ)
  | drop (i : ℕ)
  | finish (k : ℕ)
  | waitStep (i : ℕ)

namespace Ids

/-- What `try_new` gives PE `p`. -/
def allocated (p id : ℕ) (team : LamellarArchRT) : Ids where
  pe := p
  team := team
  mrPe := p
  addrPe := none
  myId := (id, p)
  parentId := (id, p)
  grandParentId := (id, p)
  region := (id, p)
  sender := none

/-- `NetMemRegionHandle::from`, for the handle at position `i` -/
def net (e : Ids) (i dst : ℕ) : NetMemRegionHandle :=
  ⟨dst, e.team, e.mrPe, e.myId, e.parentId, e.region, i⟩

/-- Where `exec_am_pe(self.inner.parent_id.1, ..)` of the team sends its message; none where it
panics -/
def finishedPe (e : Ids) : Option ℕ :=
  if e.parentId.2 < e.team.numPes then (e.team.worldPe e.parentId.2).toOption else none

/-- The PE to which a handle returns what it has received -/
def completionPe (e : Ids) : Option ℕ := if e.myId ≠ e.parentId then e.finishedPe else none

/-- A `OneSidedMemoryRegion` whose handle this is -/
def oneSided (e : Ids) (view : View) : OneSidedMemoryRegion := ⟨view, e.mrPe, e.myId.2⟩

end Ids

/-- What `From<NetMemRegionHandle>` makes of a message; `teamPe` is the number of the PE in the
team, and `id` its next id. -/
def NetMemRegionHandle.ids (m : NetMemRegionHandle) (id teamPe : ℕ) : Ids where
  pe := m.dst
  team := m.team
  mrPe := m.mrPe
  addrPe := some m.myId.2
  myId := (id, teamPe)
  parentId := m.myId
  grandParentId := m.parentId
  region := m.region
  sender := some m.sender

namespace State

def empty : State where
  entries := []
  map := fun _ _ => none
  idCounter := fun _ => 0
  inFlight := []
  finished := []

def setEntry (s : State) (i : ℕ) (e : MemRegionHandleInner) : State :=
  { s with entries := s.entries.set i e }

def setMap (s : State) (p : ℕ) (key : ℕ × ℕ) (v : Option ℕ) : State :=
  { s with map := Function.update s.map p (Function.update (s.map p) key v) }

/-- A new `Arc` on PE `p`, under `key` in its map. -/
def insert (s : State) (p : ℕ) (key : ℕ × ℕ) (e : MemRegionHandleInner) : State :=
  { s.setMap p key (some s.entries.length) with
    entries := s.entries ++ [e]
    idCounter := Function.update s.idCounter p (s.idCounter p + 1) }

def new (s : State) (p : ℕ) (team : LamellarArchRT) : State :=
  s.insert p (s.idCounter p, p)
    { Ids.allocated p (s.idCounter p) team with
      localRef := 1, remoteSent := 0, remoteRecv := 0, localDropped := false
      handles := 1, opened := 0, wait := none }

def clone (s : State) (i : ℕ) (e : MemRegionHandleInner) : State :=
  s.setEntry i { e with localRef := e.localRef + 1, handles := e.handles + 1 }

def ser (s : State) (i : ℕ) (e : MemRegionHandleInner) (dsts : List ℕ) : State :=
  { s.setEntry i { e with remoteSent := e.remoteSent + dsts.length } with
    inFlight := s.inFlight ++ dsts.map (e.net i) }

/-- A PE that is not in the team panics. -/
def receive (s : State) (m : NetMemRegionHandle) : Option State :=
  match s.map m.dst m.myId with
  | some i =>
    match s.entries[i]? with
    | some e => some (s.setEntry i { e with localRef := e.localRef + 1, opened := e.opened + 1 })
    | none => none
  | none =>
    match m.team.teamPe m.dst with
    | .ok teamPe =>
      some
        (s.insert m.dst m.myId
          { m.ids (s.idCounter m.dst) teamPe with
            localRef := 1, remoteSent := 0, remoteRecv := 0, localDropped := false
            handles := 0, opened := 1, wait := none })
    | .error _ => none

def des (s : State) (i : ℕ) (e : MemRegionHandleInner) : State :=
  s.setEntry i
    { e with remoteRecv := e.remoteRecv + 1, opened := e.opened - 1, handles := e.handles + 1 }

def release (s : State) (i : ℕ) (e : MemRegionHandleInner) : State :=
  let s' := s.setMap e.pe e.parentId none
  if e.myId ≠ e.parentId then
    { s'.setEntry i { e with remoteRecv := 0 } with
      finished :=
        if e.remoteRecv > 0 then
          match e.finishedPe with
          | some dst => ⟨dst, e.remoteRecv, e.grandParentId, i⟩ :: s.finished
          | none => s.finished
        else s.finished }
  else s'.setEntry i e

def drop (s : State) (i : ℕ) (e : MemRegionHandleInner) : State :=
  let e' := { e with localRef := e.localRef - 1, handles := e.handles - 1 }
  if e.localRef = 1 ∧ e.localDropped = false then
    if e.remoteSent = 0 then s.release i { e' with localDropped := true }
    else s.setEntry i { e' with localDropped := true, wait := some .sent }
  else s.setEntry i e'

/-- The source prints a message if the map has no entry. -/
def finish (s : State) (m : MemRegionFinishedAm) : State :=
  match s.map m.dst m.parentId with
  | some i =>
    { s with entries := s.entries.modify i fun e => { e with remoteSent := e.remoteSent - m.cnt } }
  | none => s

def waitStep (s : State) (i : ℕ) (e : MemRegionHandleInner) : Option State :=
  match e.wait with
  | some .sent =>
    some (s.setEntry i { e with wait := some (if e.remoteSent ≠ 0 then .sent else .ref) })
  | some .ref =>
    some (s.setEntry i { e with wait := some (if e.localRef ≠ 0 then .sent else .lock) })
  | some .lock =>
    if e.remoteSent = 0 ∧ e.localRef = 0 then some (s.release i { e with wait := none })
    else some (s.setEntry i { e with wait := some .sent })
  | none => none

def step (s : State) : Action → Option State
  | .new p team => some (s.new p team)
  | .clone i =>
    match s.entries[i]? with
    | some e => if 0 < e.handles then some (s.clone i e) else none
    | none => none
  | .ser i dsts =>
    match s.entries[i]? with
    | some e => if 0 < e.handles ∧ e.pe ∉ dsts then some (s.ser i e dsts) else none
    | none => none
  | .receive k =>
    match s.inFlight[k]? with
    | some m => { s with inFlight := s.inFlight.eraseIdx k }.receive m
    | none => none
  | .des i =>
    match s.entries[i]? with
    | some e => if 0 < e.opened then some (s.des i e) else none
    | none => none
  | .drop i =>
    match s.entries[i]? with
    | some e => if 0 < e.handles then some (s.drop i e) else none
    | none => none
  | .finish k =>
    match s.finished[k]? with
    | some m => some ({ s with finished := s.finished.eraseIdx k }.finish m)
    | none => none
  | .waitStep i =>
    match s.entries[i]? with
    | some e => s.waitStep i e
    | none => none

end State

/-! ## Runs -/

/-- A member of a team that `LamellarArchRT::new` has built allocates, and handles are sent to
members of their teams. -/
def BetweenMembers (n : ℕ) (s : State) : Action → Prop
  | .new p team => LamellarArchRT.Built (.globalArch n) team ∧ ∃ t, team.teamPe p = .ok t
  | .ser i dsts =>
    ∀ e, s.entries[i]? = some e → ∀ dst ∈ dsts, ∃ t, e.team.teamPe dst = .ok t
  | _ => True

/-- Only handles that satisfy `ok` are sent. -/
def SentBy (ok : Ids → Prop) (s : State) : Action → Prop
  | .ser i dsts => dsts ≠ [] → ∀ e, s.entries[i]? = some e → ok e.toIds
  | _ => True

/-- The states of all runs in a world of `n` PEs that send only handles with `ok` -/
abbrev Reached (n : ℕ) (ok : Ids → Prop) : State → Prop :=
  Reach (· = State.empty) State.step fun s a => BetweenMembers n s a ∧ SentBy ok s a

/-! ## What the ids are for -/

def State.ids (s : State) : List Ids := s.entries.map MemRegionHandleInner.toIds

/-- `e` at position `i` was made from a message of `p`. -/
def State.Received (s : State) (i : ℕ) (e p : Ids) : Prop :=
  s.ids[i]? = some e ∧ ∃ j, e.sender = some j ∧ s.ids[j]? = some p

namespace Ids

/-- The number of the PE in the team is its number in the world. -/
def Numbered (e : Ids) : Prop := e.team.teamPe e.pe = .ok e.pe

/-- Of the members of the team, the PE that has allocated the region is the one whose number in the
team is the number of that PE in the world. -/
def LocalNumbered (e : Ids) : Prop := e.team.teamPe e.pe = .ok e.region.2 ↔ e.pe = e.region.2

/-- The address was translated with the number of PE `p`, and what was received is returned
to `p`. -/
structure FromPe (e : Ids) (p : ℕ) : Prop where
  translated : e.addrPe = some p
  completed : e.completionPe = some p

/-- `data_local`, `addr` and `as_slice` of a handle succeed exactly on the PE that has allocated
the region. -/
def LocalExactly (e : Ids) : Prop :=
  ∀ (build : Build) (size n : ℕ) (view : View), view.mr.Holds size n → view.Inside n →
    ((e.oneSided view).dataLocal = true ↔ e.pe = e.region.2) ∧
      ((∃ addr, (e.oneSided view).addr build size = .ok addr) ↔ e.pe = e.region.2) ∧
      ((∃ slice, (e.oneSided view).asSlice build size = .ok slice) ↔ e.pe = e.region.2)

end Ids

/-- A handle that is found in the map was made from a message of the same sender, so that its
address is translated with that sender, too. -/
structure State.IdsRight (s : State) : Prop where
  received : ∀ i e p, s.Received i e p → e.FromPe p.pe
  found : ∀ m ∈ s.inFlight, ∀ i, s.map m.dst m.myId = some i →
    ∃ e, s.ids[i]? = some e ∧ e.sender = some m.sender
  finished : ∀ m ∈ s.finished, ∃ e p, s.Received m.child e p ∧ m.dst = p.pe
  isLocal : ∀ e ∈ s.ids, e.LocalExactly

end Lamellar.OneSided.Teams
