import Lamellar.Batching.Copies
import Lamellar.Lib.Transition

/-!
# Requests: `src/lamellar_request.rs`, `src/lamellar_task_group.rs`, `src/lamellar_team.rs`

What a PE counts for the active messages that it launches, and where it puts their results. A launch
with the work of `process_msg`, the execution of a message on another PE and the delivery of a
result are one step each. The transport takes a message to each PE that it is sent to once. A
message for the PEs of a team may wait in the batch for broadcasts, which all teams share, and goes
to the PEs of the team of one of the requests in it (`Batching.Broadcast.State.batchStep`): a launch
says which one that will be, and `Unmixed` that it has the right PEs.

The request that results are added to is named by its position in `requests`. The raw pointers to it
that are out are `strong`, together with the `Arc` that a task group has of its own.
-/

namespace Lamellar.Requests

open Team (LamellarArchRT)
open Batching.Broadcast (Config isOk sendToPes)

/-- A PE, and the teams that it has handles of -/
structure Env extends Config where
  teams : ℕ → LamellarArchRT
  wellFormed : ∀ t, (teams t).WellFormed numPes

/-- What a remote result says about Darcs and memory regions is left out. -/
inductive InternalResult (V : Type) where
  | localData (data : V)
  | remoteData (data : V)
  | unit
  deriving DecidableEq

structure ReqId where
  id : ℕ
  subId : ℕ
  deriving DecidableEq

/-- The types with `LamellarRequestAddResult`: `LamellarRequestHandleInner` and so on -/
inductive Handle where
  | lamellarRequest
  | lamellarMultiRequest
  | lamellarLocalRequest
  | taskGroupRequest
  | taskGroupMultiRequest
  | taskGroupLocalRequest
  deriving DecidableEq

/-- What does not change in a request: `team` and `tg` name its counters, `group` its task group -/
structure RequestInfo where
  handle : Handle
  team : ℕ
  tg : Option ℕ
  group : ℕ

/-- A `LamellarRequestResult` with what its handle has. `data` is by sub id and number in the team,
zero where a handle has no such thing; `ready` is the `is_some` of it. -/
structure RequestResult (V : Type) extends RequestInfo where
  userHandle : Bool
  cnt : ℤ
  data : ℕ → ℕ → Option (InternalResult V)
  strong : ℤ

/-- `id`, `multiId` and `localId` are the positions of its requests. -/
structure LamellarTaskGroup where
  team : ℕ
  counters : ℕ
  cnt : ℤ
  subIdCounter : ℕ
  id : ℕ
  multiId : ℕ
  localId : ℕ
  dropped : Bool

/-- An `Am` that is submitted. What is for all of `arch` is sent to the others of `via`. -/
inductive Am where
  | all (arch via : LamellarArchRT)
  | remote (dst : ℕ)
  | localAm

/-- What is on its way to PE `dst` or back from PE `src`, and the calls of `exec_local_am` -/
inductive Item (V : Type) where
  | am (id : ReqId) (dst : ℕ)
  | localAm (id : ReqId)
  | unit (id : ReqId) (src : ℕ)
  | data (id : ReqId) (src : ℕ) (data : V)
  | returnAm (id : ReqId) (src : ℕ)

/-- What an active message returns on another PE -/
inductive LamellarReturn (V : Type) where
  | unit
  | remoteData (data : V)
  | remoteAm

/-- An execution: a request and the PE -/
abbrev Exec := ReqId × ℕ

/-- `launched` and `delivered` are not in the source. -/
structure State (V : Type) where
  world : ℤ
  team : ℕ → ℤ
  /-- `AMCounters` of task groups and of others that are passed to a launch -/
  counters : ℕ → ℤ
  requests : List (RequestResult V)
  groups : List LamellarTaskGroup
  inFlight : List (Item V)
  launched : List Exec
  delivered : List (Exec × InternalResult V)

/-- `via` is the team whose PEs the message is sent to: `t`, or the team that the transfer of the
batch with the message goes to. -/
inductive Action (V : Type) where
  | execAmAllTg (t : ℕ) (tg : Option ℕ) (via : ℕ)
  | amGroupExecAmAllTg (t : ℕ) (tg : Option ℕ) (via : ℕ)
  | execArcAmAll (t : ℕ) (tg : Option ℕ) (via : ℕ)
  | execAmPeTg (t pe : ℕ) (tg : Option ℕ)
  | amGroupExecAmPeTg (t pe : ℕ) (tg : Option ℕ)
  | execArcAmPe (t pe : ℕ) (tg : Option ℕ)
  | execAmLocalTg (t : ℕ) (tg : Option ℕ)
  /-- `LamellarTaskGroup::new` with new `AMCounters` -/
  | newGroup (t counters : ℕ)
  | execAmAllInner (g via : ℕ)
  | execAmPeInner (g pe : ℕ)
  | execAmLocalInner (g : ℕ)
  /-- The execution of the message at position `k` on another PE -/
  | exec (k : ℕ) (ret : LamellarReturn V)
  /-- A result arrives; `ret` is what `exec_local_am` gets in the end, none if nothing. -/
  | deliver (k : ℕ) (ret : Option V)
  | dropHandle (i : ℕ)
  | dropGroupHandle (g : ℕ)
  | dropGroup (g : ℕ)

variable {V : Type} (cfg : Env)

namespace Handle

def isMulti : Handle → Bool
  | lamellarMultiRequest | taskGroupMultiRequest => true
  | _ => false

def isLocal : Handle → Bool
  | lamellarLocalRequest | taskGroupLocalRequest => true
  | _ => false

def isGroup : Handle → Bool
  | taskGroupRequest | taskGroupMultiRequest | taskGroupLocalRequest => true
  | _ => false

end Handle

namespace Item

def exec : Item V → Exec
  | am id dst => (id, dst)
  | localAm id => (id, cfg.me)
  | unit id src | data id src _ | returnAm id src => (id, src)

/-- The result that `send_data_to_user_handle` gets; none for a message that is not executed yet -/
def result (ret : Option V) : Item V → Option (InternalResult V)
  | am _ _ => none
  | unit _ _ => some .unit
  | data _ _ v => some (.remoteData v)
  | localAm _ | returnAm _ _ => some (ret.elim .unit .localData)

end Item

/-- The message that `exec_am` answers with -/
def LamellarReturn.item (id : ReqId) (src : ℕ) : LamellarReturn V → Item V
  | unit => .unit id src
  | remoteData data => .data id src data
  | remoteAm => .returnAm id src

/-- `process_msg` -/
def processMsg (id : ReqId) : Am → List (Item V)
  | .all arch via =>
    (if cfg.localBackend = false ∧ (arch.numPes > 1 ∨ isOk arch cfg.me = false) then
      (sendToPes cfg.toConfig via).map (.am id) else []) ++
    if isOk arch cfg.me then [.localAm id] else []
  | .remote dst => if dst = cfg.me then [.localAm id] else [.am id dst]
  | .localAm => [.localAm id]

/-- The executions that a launch asks for -/
def Am.execs (id : ReqId) : Am → List Exec
  | .all arch _ => arch.teamIter.map fun pe => (id, pe)
  | .remote dst => [(id, dst)]
  | .localAm => [(id, cfg.me)]

namespace RequestResult

/-- A new request with no results -/
def new (handle : Handle) (team : ℕ) (tg : Option ℕ) (group : ℕ) (cnt strong : ℤ) :
    RequestResult V :=
  ⟨⟨handle, team, tg, group⟩, true, cnt, fun _ _ => none, strong⟩

def setData (r : RequestResult V) (subId pe : ℕ) (data : InternalResult V) : RequestResult V :=
  { r with data := Function.update r.data subId (Function.update (r.data subId) pe (some data)) }

/-- `add_result` of the handle; none where it panics -/
def addResult (r : RequestResult V) (pe subId : ℕ) (data : InternalResult V) :
    Option (RequestResult V) :=
  match r.handle with
  | .lamellarRequest => some (r.setData 0 0 data)
  | .lamellarMultiRequest =>
    match (cfg.teams r.team).teamPe pe with
    | .ok pe => some { r.setData 0 pe data with cnt := r.cnt - 1 }
    | .error _ => none
  | .lamellarLocalRequest =>
    match data with
    | .localData _ | .unit => some (r.setData 0 0 data)
    | .remoteData _ => none
  | .taskGroupRequest => some (r.setData subId 0 data)
  | .taskGroupMultiRequest =>
    match (cfg.teams r.team).teamPe pe with
    | .ok pe => some (r.setData subId pe data)
    | .error _ => none
  | .taskGroupLocalRequest =>
    match data with
    | .localData _ | .unit => some (r.setData subId 0 data)
    | .remoteData _ => none

end RequestResult

namespace LamellarTaskGroup

/-- The request for handles of a kind -/
def request (G : LamellarTaskGroup) : Handle → ℕ
  | .taskGroupRequest => G.id
  | .taskGroupMultiRequest => G.multiId
  | _ => G.localId

end LamellarTaskGroup

namespace State

def empty : State V where
  world := 0
  team := fun _ => 0
  counters := fun _ => 0
  requests := []
  groups := []
  inFlight := []
  launched := []
  delivered := []

/-- `add_send_req` of the world, the team and, where there is one, the task group -/
def addSendReq (s : State V) (t : ℕ) (tg : Option ℕ) (num : ℤ) : State V :=
  { s with
    world := s.world + num
    team := Function.update s.team t (s.team t + num)
    counters := tg.elim s.counters fun c => Function.update s.counters c (s.counters c + num) }

/-- `submit_am` -/
def submit (s : State V) (id : ReqId) (am : Am) : State V :=
  { s with
    inFlight := s.inFlight ++ processMsg cfg id am
    launched := s.launched ++ am.execs cfg id }

/-! ## Launches -/

/-- A launch of a team, with `num` results -/
def launch (s : State V) (t : ℕ) (tg : Option ℕ) (handle : Handle) (num : ℕ) (am : Am) :
    State V :=
  submit cfg
    { s.addSendReq t tg num with
      requests := s.requests ++ [.new handle t tg 0 num (1 + (num - 1) : ℕ)] }
    ⟨s.requests.length, 0⟩ am

def execAmAllTg (s : State V) (t : ℕ) (tg : Option ℕ) (via : ℕ) : State V :=
  s.launch cfg t tg .lamellarMultiRequest (cfg.teams t).numPes (.all (cfg.teams t) (cfg.teams via))

def amGroupExecAmAllTg (s : State V) (t : ℕ) (tg : Option ℕ) (via : ℕ) : State V :=
  s.execAmAllTg cfg t tg via

def execArcAmAll (s : State V) (t : ℕ) (tg : Option ℕ) (via : ℕ) : State V :=
  s.execAmAllTg cfg t tg via

def execAmPeTg (s : State V) (t pe : ℕ) (tg : Option ℕ) : Option (State V) :=
  if pe < (cfg.teams t).numPes then
    match (cfg.teams t).worldPe pe with
    | .ok dst => some (s.launch cfg t tg .lamellarRequest 1 (.remote dst))
    | .error _ => none
  else none

def amGroupExecAmPeTg (s : State V) (t pe : ℕ) (tg : Option ℕ) : Option (State V) :=
  s.execAmPeTg cfg t pe tg

def execArcAmPe (s : State V) (t pe : ℕ) (tg : Option ℕ) : Option (State V) :=
  s.execAmPeTg cfg t pe tg

def execAmLocalTg (s : State V) (t : ℕ) (tg : Option ℕ) : State V :=
  s.launch cfg t tg .lamellarLocalRequest 1 .localAm

def modifyRequest (s : State V) (i : ℕ) (f : RequestResult V → RequestResult V) : State V :=
  { s with requests := s.requests.modify i f }

/-- Raw pointers to the request at position `i` -/
def incrementStrongCount (s : State V) (i : ℕ) (num : ℤ) : State V :=
  s.modifyRequest i fun r => { r with strong := r.strong + num }

/-- `LamellarTaskGroup::new` -/
def newGroup (s : State V) (t counters : ℕ) : State V :=
  let request (handle : Handle) := .new handle t (some counters) s.groups.length 0 1
  let i := s.requests.length
  { s with
    requests := s.requests ++ [request .taskGroupRequest, request .taskGroupMultiRequest,
      request .taskGroupLocalRequest]
    groups := s.groups ++ [⟨t, counters, 1, 0, i, i + 1, i + 2, false⟩] }

/-- A launch of a task group -/
def launchGroup (s : State V) (g : ℕ) (G : LamellarTaskGroup) (handle : Handle) (num : ℕ)
    (am : Am) : State V :=
  submit cfg
    { (s.addSendReq G.team (some G.counters) num).incrementStrongCount (G.request handle) num with
      groups := s.groups.set g { G with cnt := G.cnt + 1, subIdCounter := G.subIdCounter + 1 } }
    ⟨G.request handle, G.subIdCounter⟩ am

def execAmAllInner (s : State V) (g : ℕ) (G : LamellarTaskGroup) (via : ℕ) : State V :=
  s.launchGroup cfg g G .taskGroupMultiRequest (cfg.teams G.team).numPes
    (.all (cfg.teams G.team) (cfg.teams via))

def execAmPeInner (s : State V) (g : ℕ) (G : LamellarTaskGroup) (pe : ℕ) : Option (State V) :=
  match (cfg.teams G.team).worldPe pe with
  | .ok dst => some (s.launchGroup cfg g G .taskGroupRequest 1 (.remote dst))
  | .error _ => none

def execAmLocalInner (s : State V) (g : ℕ) (G : LamellarTaskGroup) : State V :=
  s.launchGroup cfg g G .taskGroupLocalRequest 1 .localAm

/-! ## Results -/

def userHeld (s : State V) (r : RequestResult V) : Bool :=
  if r.handle.isGroup then
    match s.groups[r.group]? with
    | some G => 0 < G.cnt
    | none => false
  else r.userHandle

/-- The request after a result, which is thrown away where nobody waits for it -/
def addHeld (s : State V) (r : RequestResult V) (e : Exec) (data : InternalResult V) :
    Option (RequestResult V) :=
  if s.userHeld r then r.addResult cfg e.2 e.1.subId data else some r

/-- `send_data_to_user_handle`, which drops the `Arc` in the end -/
def sendDataToUserHandle (s : State V) (e : Exec) (data : InternalResult V) :
    Option (State V) := do
  let r ← s.requests[e.1.id]?
  let r' ← s.addHeld cfg r e data
  some
    { s.addSendReq r.team r.tg (-1) with
      requests := s.requests.set e.1.id { r' with strong := r'.strong - 1 }
      delivered := s.delivered ++ [(e, data)] }

def step (s : State V) : Action V → Option (State V)
  | .execAmAllTg t tg via => some (s.execAmAllTg cfg t tg via)
  | .amGroupExecAmAllTg t tg via => some (s.amGroupExecAmAllTg cfg t tg via)
  | .execArcAmAll t tg via => some (s.execArcAmAll cfg t tg via)
  | .execAmPeTg t pe tg => s.execAmPeTg cfg t pe tg
  | .amGroupExecAmPeTg t pe tg => s.amGroupExecAmPeTg cfg t pe tg
  | .execArcAmPe t pe tg => s.execArcAmPe cfg t pe tg
  | .execAmLocalTg t tg => some (s.execAmLocalTg cfg t tg)
  | .newGroup t counters => some (s.newGroup t counters)
  | .execAmAllInner g via => do
    let G ← s.groups[g]?
    if G.dropped then none else some (s.execAmAllInner cfg g G via)
  | .execAmPeInner g pe => do
    let G ← s.groups[g]?
    if G.dropped then none else s.execAmPeInner cfg g G pe
  | .execAmLocalInner g => do
    let G ← s.groups[g]?
    if G.dropped then none else some (s.execAmLocalInner cfg g G)
  | .exec k ret =>
    match s.inFlight[k]? with
    | some (.am id dst) => some { s with inFlight := s.inFlight.set k (ret.item id dst) }
    | _ => none
  | .deliver k ret => do
    let item ← s.inFlight[k]?
    let data ← item.result ret
    { s with inFlight := s.inFlight.eraseIdx k }.sendDataToUserHandle cfg (item.exec cfg) data
  | .dropHandle i => do
    let r ← s.requests[i]?
    if r.handle.isGroup = false ∧ r.userHandle then
      some { s with requests := s.requests.set i { r with userHandle := false } }
    else none
  | .dropGroupHandle g => do
    let G ← s.groups[g]?
    if (if G.dropped then 0 else 1) < G.cnt then
      some { s with groups := s.groups.set g { G with cnt := G.cnt - 1 } }
    else none
  | .dropGroup g => do
    let G ← s.groups[g]?
    if G.dropped then none
    else
      some
        { ((s.incrementStrongCount G.id (-1)).incrementStrongCount G.multiId
            (-1)).incrementStrongCount G.localId (-1) with
          groups := s.groups.set g { G with cnt := G.cnt - 1, dropped := true } }

end State

/-- The two teams have the same PEs. -/
def Env.SamePes (via t : ℕ) : Prop :=
  ∀ pe, pe ∈ (cfg.teams via).teamIter ↔ pe ∈ (cfg.teams t).teamIter

/-- What is launched for a team is sent to the PEs of the team. -/
def Unmixed (s : State V) : Action V → Prop
  | .execAmAllTg t _ via | .amGroupExecAmAllTg t _ via | .execArcAmAll t _ via => cfg.SamePes via t
  | .execAmAllInner g via => ∀ G, s.groups[g]? = some G → cfg.SamePes via G.team
  | _ => True

/-- The states of the runs in which no batch of broadcasts mixes teams -/
abbrev Reachable : State V → Prop :=
  Transition.Reach (· = State.empty) (State.step cfg) (Unmixed cfg)

/-! ## What a state says -/

namespace State

/-- The executions whose result has not been delivered -/
def outstanding (s : State V) : List Exec := s.launched.diff (s.delivered.map Prod.fst)

def infos (s : State V) : List RequestInfo := s.requests.map (·.toRequestInfo)

def teamOf (s : State V) (e : Exec) : Option ℕ := s.infos[e.1.id]?.map (·.team)

def tgOf (s : State V) (e : Exec) : Option ℕ := s.infos[e.1.id]?.bind (·.tg)

/-- The `Arc` that a task group has of its request -/
def owners (s : State V) (a : RequestInfo) : ℕ :=
  if a.handle.isGroup then
    match s.groups[a.group]? with
    | some G => if G.dropped then 0 else 1
    | none => 0
  else 0

/-- The results of a request that is held -/
structure Collects (s : State V) (i : ℕ) (r : RequestResult V) : Prop where
  /-- The result of a PE is at its number in the team. -/
  placed : ∀ subId t data, r.data subId t = some data ↔ ∃ pe,
    (if r.handle.isMulti then (cfg.teams r.team).teamPe pe = .ok t else t = 0) ∧
      ((⟨i, subId⟩, pe), data) ∈ s.delivered
  /-- A handle waits for the executions that are outstanding. -/
  cnt_eq : r.handle = .lamellarMultiRequest →
    r.cnt = s.outstanding.countP fun e => e.1.id = i
  /-- When none of a launch is, all of its results are there. -/
  complete : ∀ subId, (∃ pe, (⟨i, subId⟩, pe) ∈ s.launched) →
    (∀ pe, (⟨i, subId⟩, pe) ∉ s.outstanding) → ∀ t, (r.data subId t).isSome ↔
      t < if r.handle.isMulti then (cfg.teams r.team).numPes else 1

end State

end Lamellar.Requests
