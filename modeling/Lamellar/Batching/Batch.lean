import Lamellar.Lib.Entries
import Lamellar.Team.Arch

/-!
# Batches of messages: `SimpleBatcherInner` and `TeamAmBatcherInner`

A batch collects messages that go to the same destination: active messages, returned active
messages, data results and unit results. The simple batcher keeps them in one vector, the
team batcher in maps from teams and message types. Each `add` also returns how much the
`size` of the batch grows: the bytes that the message will take in the transfer.

`Inner` is what the batchers need of a batch. The types of active messages, of results and
of remote pointers are parameters.
-/

namespace Lamellar.Batching

open Team (LamellarArchRT IdError)

abbrev AmId := Int32

structure ReqId where
  id : UInt64
  subId : UInt64
  deriving DecidableEq

structure LamellarTeamRT where
  arch : LamellarArchRT
  worldPe : ℕ

structure ReqMetaData where
  src : ℕ
  /-- `None` stands for all PEs of the team. -/
  dst : Option ℕ
  id : ReqId
  team : LamellarTeamRT
  teamAddr : UInt64

inductive LamellarData (A D R : Type) where
  | am (am : A) (id : AmId)
  | ret (am : A) (id : AmId)
  | data (data : D) (darcs : List R) (darcListSize : ℕ)
  | unit

structure Message (A D R : Type) where
  req : ReqMetaData
  data : LamellarData A D R

/-! ## Lengths of the fixed-width headers -/

def cmdLen : ℕ := 4
/-- `am_id`, `team_addr`, `req_id` -/
def amHeaderLen : ℕ := 28
/-- `size`, `req_id`, `darc_list_size` -/
def dataHeaderLen : ℕ := 32
def unitHeaderLen : ℕ := 16
/-- `cmd`, `cnt` -/
def batchHeaderLen : ℕ := 12
/-- `team_id`, `am_batch_cnts` -/
def teamHeaderLen : ℕ := 16
/-- `am_id`, `am_cnt`, `cmd` -/
def batchedAmHeaderLen : ℕ := 16
def reqIdLen : ℕ := 16

/-! ## What a batcher needs of a batch -/

/-- A batch of messages `M`, and the message whose team a transfer is sent to. -/
structure Inner (M B : Type) where
  empty : B
  /-- The batch with the message of the given size, and the increase of `size`. -/
  add : B → M → ℕ → B × ℕ
  messages : B → List M
  /-- The message that decides on the team, for a transfer that the second one has started. -/
  route : B → M → Option M
  messages_empty : messages empty = []
  messages_add : ∀ b m n, (messages (add b m n).1).Perm (m :: messages b)
  add_pos : ∀ b m n, 0 < (add b m n).2
  route_of_ne_nil : ∀ b m, messages b ≠ [] → (route b m).isSome
  route_mem : ∀ b m r, route b m = some r → r ∈ messages b ∨ r = m

variable {A D R : Type}

/-! ## The simple batcher -/

abbrev SimpleBatch (A D R : Type) := List (ReqMetaData × LamellarData A D R × ℕ)

namespace SimpleBatch

/-- The size that the callers of `add` pass on. -/
def callSize (data : LamellarData A D R) (size : ℕ) : ℕ :=
  match data with
  | .am .. | .ret .. => size + amHeaderLen
  | .data _ _ darcListSize => size + darcListSize + dataHeaderLen
  | .unit => unitHeaderLen

def add (batch : SimpleBatch A D R) (m : Message A D R) (size : ℕ) : SimpleBatch A D R × ℕ :=
  let size := callSize m.data size + cmdLen
  (batch ++ [(m.req, m.data, size)], size)

def messages (batch : SimpleBatch A D R) : List (Message A D R) :=
  batch.map fun e => ⟨e.1, e.2.1⟩

theorem messages_add (batch : SimpleBatch A D R) (m : Message A D R) (size : ℕ) :
    ((batch.add m size).1.messages).Perm (m :: batch.messages) := by
  simp only [messages, add, List.map_append, List.map_cons, List.map_nil]
  exact List.perm_append_comm

theorem messages_ne_nil {batch : SimpleBatch A D R} (h : batch.messages ≠ []) :
    batch.messages.head?.isSome := by
  cases hb : batch.messages with
  | nil => exact absurd hb h
  | cons m ms => rfl

end SimpleBatch

/-- `SimpleBatcherInner`; the transfer takes the team from `buf[0]`. -/
def simpleBatcher : Inner (Message A D R) (SimpleBatch A D R) where
  empty := []
  add := SimpleBatch.add
  messages := SimpleBatch.messages
  route batch _ := batch.messages.head?
  messages_empty := rfl
  messages_add := SimpleBatch.messages_add
  add_pos _ _ _ := Nat.succ_pos _
  route_of_ne_nil _ _ h := SimpleBatch.messages_ne_nil h
  route_mem _ _ _ h := Or.inl (List.mem_of_mem_head? h)

/-! ## The team batcher -/

abbrev AmIdMap (A : Type) := List (AmId × List (ReqMetaData × A × ℕ))

abbrev TeamMap (A : Type) := List (UInt64 × AmIdMap A)

namespace TeamMap

def addAmToBatch (batch : TeamMap A) (req : ReqMetaData) (am : A) (id : AmId) (size : ℕ) :
    TeamMap A × ℕ :=
  let teamBatch := Entries.getD req.teamAddr [] batch
  let amBatch := Entries.getD id [] teamBatch
  let tempSize := if teamBatch.length = 0 then teamHeaderLen else 0
  let tempSize := tempSize + if amBatch.length = 0 then batchedAmHeaderLen else 0
  (Entries.upsert req.teamAddr [] (Entries.upsert id [] (· ++ [(req, am, size)])) batch,
    tempSize + (size + reqIdLen))

/-- The messages of a map, of the kind that the map is for. -/
def messages (kind : A → AmId → LamellarData A D R) (batch : TeamMap A) : List (Message A D R) :=
  batch.flatMap fun team => team.2.flatMap fun ams =>
    ams.2.map fun e => ⟨e.1, kind e.2.1 ams.1⟩

theorem messages_addAmToBatch (kind : A → AmId → LamellarData A D R) (batch : TeamMap A)
    (req : ReqMetaData) (am : A) (id : AmId) (size : ℕ) :
    ((batch.addAmToBatch req am id size).1.messages kind).Perm
      (⟨req, kind am id⟩ :: batch.messages kind) := by
  refine Entries.flatMap_upsert [(⟨req, kind am id⟩ : Message A D R)] rfl ?_
  intro amMap
  refine Entries.flatMap_upsert [(⟨req, kind am id⟩ : Message A D R)] rfl ?_
  intro ams
  simp only [List.map_append, List.map_cons, List.map_nil]
  exact List.perm_append_comm

end TeamMap

structure TeamBatch (A D R : Type) where
  ams : TeamMap A
  returnAms : TeamMap A
  nonAms : List (ReqMetaData × LamellarData A D R × ℕ)

namespace TeamBatch

def addNonAm (batch : TeamBatch A D R) (req : ReqMetaData) (data : LamellarData A D R)
    (size : ℕ) : TeamBatch A D R × ℕ :=
  let size := size + batchHeaderLen
  ({ batch with nonAms := batch.nonAms ++ [(req, data, size)] }, size)

/-- `add_am` for active messages, `add_non_am` with the size that its callers pass on for
results -/
def add (batch : TeamBatch A D R) (m : Message A D R) (size : ℕ) : TeamBatch A D R × ℕ :=
  match m.data with
  | .am am id =>
    let added := batch.ams.addAmToBatch m.req am id size
    ({ batch with ams := added.1 }, added.2)
  | .ret am id =>
    let added := batch.returnAms.addAmToBatch m.req am id size
    ({ batch with returnAms := added.1 }, added.2)
  | .data _ _ darcListSize => batch.addNonAm m.req m.data (size + darcListSize + dataHeaderLen)
  | .unit => batch.addNonAm m.req m.data unitHeaderLen

def messages (batch : TeamBatch A D R) : List (Message A D R) :=
  batch.ams.messages .am ++ batch.returnAms.messages .ret ++
    batch.nonAms.map fun e => ⟨e.1, e.2.1⟩

theorem messages_addNonAm (batch : TeamBatch A D R) (req : ReqMetaData)
    (data : LamellarData A D R) (size : ℕ) :
    ((batch.addNonAm req data size).1.messages).Perm (⟨req, data⟩ :: batch.messages) := by
  simp only [messages, addNonAm, List.map_append, List.map_cons, List.map_nil]
  rw [← List.append_assoc]
  exact List.perm_append_comm

theorem messages_add (batch : TeamBatch A D R) (m : Message A D R) (size : ℕ) :
    ((batch.add m size).1.messages).Perm (m :: batch.messages) := by
  obtain ⟨req, data⟩ := m
  cases data with
  | am am id =>
    have h := TeamMap.messages_addAmToBatch (D := D) (R := R) .am batch.ams req am id size
    simp only [messages, add, List.append_assoc]
    exact h.append_right _
  | ret am id =>
    have h := TeamMap.messages_addAmToBatch (D := D) (R := R) .ret batch.returnAms req am id size
    simp only [messages, add, List.append_assoc]
    exact ((h.append_right _).append_left _).trans List.perm_middle
  | data data darcs darcListSize => exact batch.messages_addNonAm req _ _
  | unit => exact batch.messages_addNonAm req _ _

theorem add_pos (batch : TeamBatch A D R) (m : Message A D R) (size : ℕ) :
    0 < (batch.add m size).2 := by
  obtain ⟨req, data⟩ := m
  cases data with
  | am am id => exact Nat.lt_add_left _ (Nat.lt_add_left _ (by decide))
  | ret am id => exact Nat.lt_add_left _ (Nat.lt_add_left _ (by decide))
  | data data darcs darcListSize => exact Nat.lt_add_left _ (by decide)
  | unit => exact Nat.lt_add_left _ (by decide)

end TeamBatch

/-- `TeamAmBatcherInner`; the transfer takes the team from the request that has started it. -/
def teamAmBatcher : Inner (Message A D R) (TeamBatch A D R) where
  empty := ⟨[], [], []⟩
  add := TeamBatch.add
  messages := TeamBatch.messages
  route _ m := some m
  messages_empty := rfl
  messages_add := TeamBatch.messages_add
  add_pos := TeamBatch.add_pos
  route_of_ne_nil _ _ _ := rfl
  route_mem _ _ _ h := Or.inr (Option.some.inj h).symm

end Lamellar.Batching
