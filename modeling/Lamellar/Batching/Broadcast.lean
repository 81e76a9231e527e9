import Lamellar.Batching.Draining

/-!
# Broadcasts: `exec_am_all`, `process_msg` for `Am::All` and `send_to_pes_async`

A PE issues active messages for all PEs of a team. `process_msg` first sees to the other PEs:
a small message goes into the batch for broadcasts, which all teams share, and any other one
is sent at once to the PEs of its team. Then it executes the message itself, if it is in the
team. A transfer of the batch goes to the PEs of one team, that of the request of `route`.

The transport is taken to deliver each buffer once to each PE that it is sent to, so that
sending a buffer to a PE comes to executing its messages there.
-/

namespace Lamellar.Batching.Broadcast

open Team (LamellarArchRT)

/-- A PE and its world -/
structure Config where
  numPes : ℕ
  me : ℕ
  /-- `Backend::Local` -/
  localBackend : Bool
  me_lt : me < numPes
  single : localBackend = true → numPes = 1

def batchAmSize : ℕ := 100000

structure Request (A : Type) where
  arch : LamellarArchRT
  id : ReqId
  teamAddr : UInt64
  am : A
  amId : AmId
  amSize : ℕ
  stallMark : UInt64
  immediate : Bool

inductive Pc where
  | start
  /-- `send_am` -/
  | direct
  /-- In `add_remote_am_to_batch` -/
  | waiting (call : ℕ)
  /-- Before the local execution -/
  | exec
  | done
  deriving DecidableEq

structure State (A D R B : Type) where
  requests : List (Request A × Pc)
  batching : Batching.State (Message A D R) B
  /-- The executions, each with its PE -/
  execs : List (Message A D R × ℕ)
  /-- For each message sent, the argument of `am.ser` and the number of copies -/
  sers : List (Message A D R × ℕ × ℕ)

inductive Action (A : Type) where
  | request (r : Request A)
  | mark
  | reqStep (k : ℕ)
  | callStep (k : ℕ)
  | taskStep (j : ℕ)

variable {A D R B : Type} (cfg : Config) (I : Inner (Message A D R) B)

/-- `req_data` of `exec_am_all_tg` -/
def Request.reqData (r : Request A) : ReqMetaData :=
  ⟨cfg.me, none, r.id, ⟨r.arch, cfg.me⟩, r.teamAddr⟩

def Request.msg (r : Request A) : Message A D R := ⟨r.reqData cfg, .am r.am r.amId⟩

/-- `send_to_pes_async` for no single PE -/
def sendToPes (arch : LamellarArchRT) : List ℕ := arch.teamIter.filter (· ≠ cfg.me)

/-- `darc_ser_cnt` -/
def darcSerCnt (req : ReqMetaData) : ℕ :=
  match req.dst with
  | some _ => 1
  | none =>
    match req.team.arch.teamPe req.team.worldPe with
    | .ok _ => req.team.arch.numPes - 1
    | .error _ => req.team.arch.numPes

def isOk (arch : LamellarArchRT) (pe : ℕ) : Bool :=
  match arch.teamPe pe with
  | .ok _ => true
  | .error _ => false

namespace State

def new : State A D R B := ⟨[], .new I, [], []⟩

/-- Serialize the messages into a buffer and send it to the PEs of a team. -/
def transmit (s : State A D R B) (ms : List (Message A D R)) (arch : LamellarArchRT) :
    State A D R B :=
  let pes := sendToPes cfg arch
  { s with
    execs := s.execs ++ ms.flatMap fun m => pes.map fun pe => (m, pe)
    sers := s.sers ++ ms.map fun m => (m, darcSerCnt m.req, pes.length) }

def setPc (s : State A D R B) (k : ℕ) (r : Request A) (pc : Pc) : State A D R B :=
  { s with requests := s.requests.set k (r, pc) }

/-- `process_msg` of request `k`, which is `r` -/
def reqStep (s : State A D R B) (k : ℕ) (r : Request A) : Pc → Option (State A D R B)
  | .start =>
    if cfg.localBackend = false ∧ (r.arch.numPes > 1 ∨ isOk r.arch cfg.me = false) then
      if r.amSize < batchAmSize ∧ r.immediate = false then
        let call := addRemoteAmToBatch (r.reqData cfg) r.am r.amId r.amSize r.stallMark
        some { s.setPc k r (.waiting s.batching.calls.length) with
          batching := { s.batching with calls := s.batching.calls ++ [⟨call, .start⟩] } }
      else some (s.setPc k r .direct)
    else some (s.setPc k r .exec)
  | .direct => some ((s.transmit cfg [r.msg cfg] r.arch).setPc k r .exec)
  | .waiting i =>
    match s.batching.calls[i]? with
    | some c => if c.pc = .returned then some (s.setPc k r .exec) else none
    | none => none
  | .exec =>
    if isOk r.arch cfg.me then
      some { s.setPc k r .done with execs := s.execs ++ [(r.msg cfg, cfg.me)] }
    else some (s.setPc k r .done)
  | .done => none

/-- A step of the batcher, with the transmission of what it has sent. -/
def batchStep (s : State A D R B) (a : Batching.Action (Message A D R)) :
    Option (State A D R B) :=
  match s.batching.step I a with
  | some b =>
    some ((b.sent.drop s.batching.sent.length).foldl
      (fun s sent => s.transmit cfg (I.messages sent.buf) sent.route.req.team.arch)
      { s with batching := b })
  | none => none

def step (s : State A D R B) : Action A → Option (State A D R B)
  | .request r => some { s with requests := s.requests ++ [(r, .start)] }
  | .mark => s.batchStep cfg I .mark
  | .reqStep k =>
    match s.requests[k]? with
    | some (r, pc) => s.reqStep cfg k r pc
    | none => none
  | .callStep k => s.batchStep cfg I (.callStep k)
  | .taskStep j => s.batchStep cfg I (.taskStep j)

end State

/-! ## Runs in which batches do not mix teams -/

/-- The teams of the two messages have the same PEs. -/
def SamePes (m m' : Message A D R) : Prop :=
  ∀ pe, pe ∈ m.req.team.arch.teamIter ↔ pe ∈ m'.req.team.arch.teamIter

/-- Teams are well-formed, and what a task swaps out is for the PEs that it will be sent to. -/
def Unmixed (s : State A D R B) : Action A → Prop
  | .request r => r.arch.WellFormed cfg.numPes
  | .taskStep j => ∀ t, s.batching.tasks[j]? = some t → t.pc = .swap →
      ∀ route, I.route s.batching.batch t.msg = some route →
        ∀ m ∈ I.messages s.batching.batch, SamePes m route
  | .mark | .reqStep _ | .callStep _ => True

abbrev UnmixedReach : State A D R B → Prop :=
  Transition.Reach (· = State.new I) (State.step cfg I) (Unmixed cfg I)

/-! ## Executions -/

/-- One execution on each PE of the team. -/
def Request.everywhere (r : Request A) : List (Message A D R × ℕ) :=
  r.arch.teamIter.map fun pe => (r.msg cfg, pe)

def State.expected (s : State A D R B) : List (Message A D R × ℕ) :=
  s.requests.flatMap fun r => r.1.everywhere cfg

/-- The executions on the other PEs. -/
def remoteExecs (m : Message A D R) : List (Message A D R × ℕ) :=
  (sendToPes cfg m.req.team.arch).map fun pe => (m, pe)

def Request.localExec (r : Request A) : List (Message A D R × ℕ) :=
  if isOk r.arch cfg.me then [(r.msg cfg, cfg.me)] else []

/-- The executions that `process_msg` still has to see to; those of a message in the batch
are not its own. -/
def due (r : Request A × Pc) : List (Message A D R × ℕ) :=
  match r.2 with
  | .start | .direct => r.1.everywhere cfg
  | .waiting _ | .exec => r.1.localExec cfg
  | .done => []

/-- All is done. -/
def State.Settled (s : State A D R B) : Prop :=
  (∀ r ∈ s.requests, r.2 = .done) ∧ s.batching.Stopped I

/-- Each request is executed at most once on each PE of its team and nowhere else, and once
all is done exactly once on each; the distributed counts of Darcs are raised by the number of
remote copies. -/
structure Exact (s : State A D R B) : Prop where
  within : ∃ rest, (s.execs ++ rest).Perm (s.expected cfg)
  settled : s.Settled I → s.execs.Perm (s.expected cfg)
  sers : ∀ e ∈ s.sers, e.2.1 = e.2.2

end Lamellar.Batching.Broadcast
