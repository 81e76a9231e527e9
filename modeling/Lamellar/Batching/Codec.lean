import Lamellar.Batching.Transfer
import Lamellar.Lib.Wire

/-!
# The format of a batch: `create_tx_task` and `exec_batched_msg`

A transfer writes the messages of a batch into a buffer of the size that the `add` functions
have added up, and the receiver reads them again. Headers are written by `bincode` with
fixed-width fields. How active messages, results and remote pointers are written is left to
their types, and comes as a `Codec`; `Codec.Lawful` says what the code relies on.

Out of bounds accesses, failed subtractions and the `panic!`s are `none`.
-/

namespace Lamellar.Batching

open Wire

/-! ## Headers -/

inductive Cmd where
  | am
  | returnAm
  | data
  | unit
  | batchedMsg
  deriving DecidableEq

def Cmd.index : Cmd → ℕ
  | .am => 0
  | .returnAm => 1
  | .data => 2
  | .unit => 3
  | .batchedMsg => 4

def Cmd.ofIndex : ℕ → Option Cmd
  | 0 => some .am
  | 1 => some .returnAm
  | 2 => some .data
  | 3 => some .unit
  | 4 => some .batchedMsg
  | _ => none

def Cmd.encode (cmd : Cmd) : List UInt8 := encodeLe 4 cmd.index

def Cmd.decode (bs : List UInt8) : Option Cmd := Cmd.ofIndex (decodeLe bs)

def ReqId.fields (id : ReqId) : List (ℕ × ℕ) := [(8, id.id.toNat), (8, id.subId.toNat)]

def ReqId.ofNats (id subId : ℕ) : ReqId := ⟨UInt64.ofNat id, UInt64.ofNat subId⟩

def ReqId.encode (id : ReqId) : List UInt8 := encodeFields id.fields

def ReqId.decode (bs : List UInt8) : Option ReqId :=
  match decodeFields [8, 8] bs with
  | [id, subId] => some (.ofNats id subId)
  | _ => none

structure AmHeader where
  amId : AmId
  teamAddr : UInt64
  reqId : ReqId

def AmHeader.encode (h : AmHeader) : List UInt8 :=
  encodeFields ([(4, h.amId.toUInt32.toNat), (8, h.teamAddr.toNat)] ++ h.reqId.fields)

def AmHeader.decode (bs : List UInt8) : Option AmHeader :=
  match decodeFields [4, 8, 8, 8] bs with
  | [amId, teamAddr, id, subId] =>
    some ⟨⟨UInt32.ofNat amId⟩, UInt64.ofNat teamAddr, .ofNats id subId⟩
  | _ => none

structure DataHeader where
  size : ℕ
  reqId : ReqId
  darcListSize : ℕ

def DataHeader.encode (h : DataHeader) : List UInt8 :=
  encodeFields ([(8, h.size)] ++ h.reqId.fields ++ [(8, h.darcListSize)])

def DataHeader.decode (bs : List UInt8) : Option DataHeader :=
  match decodeFields [8, 8, 8, 8] bs with
  | [size, id, subId, darcListSize] => some ⟨size, .ofNats id subId, darcListSize⟩
  | _ => none

structure BatchHeader where
  cmd : Cmd
  cnt : ℕ

def BatchHeader.encode (h : BatchHeader) : List UInt8 :=
  encodeFields [(4, h.cmd.index), (8, h.cnt)]

def BatchHeader.decode (bs : List UInt8) : Option BatchHeader :=
  match decodeFields [4, 8] bs with
  | [cmd, cnt] => (Cmd.ofIndex cmd).map fun cmd => ⟨cmd, cnt⟩
  | _ => none

structure TeamHeader where
  teamId : UInt64
  amBatchCnts : ℕ

def TeamHeader.encode (h : TeamHeader) : List UInt8 :=
  encodeFields [(8, h.teamId.toNat), (8, h.amBatchCnts)]

def TeamHeader.decode (bs : List UInt8) : Option TeamHeader :=
  match decodeFields [8, 8] bs with
  | [teamId, amBatchCnts] => some ⟨UInt64.ofNat teamId, amBatchCnts⟩
  | _ => none

structure BatchedAmHeader where
  amId : AmId
  amCnt : ℕ
  cmd : Cmd

def BatchedAmHeader.encode (h : BatchedAmHeader) : List UInt8 :=
  encodeFields [(4, h.amId.toUInt32.toNat), (8, h.amCnt), (4, h.cmd.index)]

def BatchedAmHeader.decode (bs : List UInt8) : Option BatchedAmHeader :=
  match decodeFields [4, 8, 4] bs with
  | [amId, amCnt, cmd] => (Cmd.ofIndex cmd).map fun cmd => ⟨⟨UInt32.ofNat amId⟩, amCnt, cmd⟩
  | _ => none

/-! ## The types of the messages -/

structure Codec (A D R : Type) where
  /-- `AMS_IDS.get(am.get_id())` -/
  amId : A → AmId
  amSize : A → ℕ
  serializeAm : A → List UInt8
  /-- The entry of `AMS_EXECS`, on all the data that are left. -/
  unpack : AmId → List UInt8 → Option A
  dataSize : D → ℕ
  serializeData : D → List UInt8
  ptrsSize : List R → ℕ
  serializePtrs : List R → List UInt8
  deserializePtrs : List UInt8 → Option (List R)

variable {A D R : Type} (C : Codec A D R)

/-- The sizes are those of the bytes written, and each `unpack` reads its own type back from
the front of the data. -/
structure Codec.Lawful : Prop where
  length_serializeAm : ∀ a, (C.serializeAm a).length = C.amSize a
  unpack_serializeAm : ∀ a rest, C.unpack (C.amId a) (C.serializeAm a ++ rest) = some a
  length_serializeData : ∀ d, (C.serializeData d).length = C.dataSize d
  length_serializePtrs : ∀ rs, (C.serializePtrs rs).length = C.ptrsSize rs
  deserializePtrs_serializePtrs : ∀ rs, C.deserializePtrs (C.serializePtrs rs) = some rs

/-- A message for a batch -/
inductive Item (A D R : Type) where
  | am (req : ReqMetaData) (a : A)
  | ret (req : ReqMetaData) (a : A)
  | data (req : ReqMetaData) (d : D) (darcs : List R)
  | unit (req : ReqMetaData)

/-- The call that `process_msg` makes for it. -/
def Item.call (stallMark : UInt64) : Item A D R → NewCall (Message A D R)
  | .am req a => addRemoteAmToBatch req a (C.amId a) (C.amSize a) stallMark
  | .ret req a => addReturnAmToBatch req a (C.amId a) (C.amSize a) stallMark
  | .data req d darcs => addDataAmToBatch req d (C.dataSize d) darcs (C.ptrsSize darcs) stallMark
  | .unit req => addUnitAmToBatch req stallMark

/-- What the receiver gets of a message. -/
inductive Received (A R : Type) where
  | am (teamAddr : UInt64) (amId : AmId) (reqId : ReqId) (am : A)
  | returnAm (teamAddr : UInt64) (amId : AmId) (reqId : ReqId) (am : A)
  | data (reqId : ReqId) (data : List UInt8) (darcs : List R)
  | unit (reqId : ReqId)
  deriving DecidableEq

def Item.received : Item A D R → Received A R
  | .am req a => .am req.teamAddr (C.amId a) req.id a
  | .ret req a => .returnAm req.teamAddr (C.amId a) req.id a
  | .data req d darcs => .data req.id (C.serializeData d) darcs
  | .unit req => .unit req.id

/-! ## Writing -/

/-- A subtraction of `usize`s -/
def checkedSub (a b : ℕ) : Option ℕ := if b ≤ a then some (a - b) else none

namespace SimpleBatcher

def serializeAm (req : ReqMetaData) (am : A) (amId : AmId) (amSize : ℕ) (cmd : Cmd) (c : Cursor) :
    Option Cursor := do
  let c ← c.put cmdLen cmd.encode
  let c ← c.put amHeaderLen (AmHeader.encode ⟨amId, req.teamAddr, req.id⟩)
  let amSize ← checkedSub amSize (cmdLen + amHeaderLen)
  c.put amSize (C.serializeAm am)

def serializeData (req : ReqMetaData) (data : D) (dataSize : ℕ) (darcs : List R)
    (darcListSize : ℕ) (c : Cursor) : Option Cursor := do
  let c ← c.put cmdLen Cmd.data.encode
  let dataSize ← checkedSub dataSize (cmdLen + dataHeaderLen + darcListSize)
  let c ← c.put dataHeaderLen (DataHeader.encode ⟨dataSize, req.id, darcListSize⟩)
  let c ← c.put darcListSize (C.serializePtrs darcs)
  c.put dataSize (C.serializeData data)

def serializeUnit (req : ReqMetaData) (c : Cursor) : Option Cursor := do
  let c ← c.put cmdLen Cmd.unit.encode
  c.put unitHeaderLen req.id.encode

def serializeEntry (c : Cursor) (e : ReqMetaData × LamellarData A D R × ℕ) : Option Cursor :=
  match e.2.1 with
  | .am am id => serializeAm C e.1 am id e.2.2 .am c
  | .ret am id => serializeAm C e.1 am id e.2.2 .returnAm c
  | .data data darcs darcListSize => serializeData C e.1 data e.2.2 darcs darcListSize c
  | .unit => serializeUnit e.1 c

/-- The loop of `create_tx_task`, over a buffer of `size` bytes. -/
def createTxTask (buf : SimpleBatch A D R) (data : List UInt8) : Option Cursor :=
  buf.foldlM (serializeEntry C) ⟨data, 0⟩

end SimpleBatcher

namespace TeamAmBatcher

def serializeAm (c : Cursor) (e : ReqMetaData × A × ℕ) : Option Cursor := do
  let c ← c.put reqIdLen e.1.id.encode
  c.put e.2.2 (C.serializeAm e.2.1)

/-- The messages of a type -/
def serializeAms (cmd : Cmd) (c : Cursor) (e : AmId × List (ReqMetaData × A × ℕ)) :
    Option Cursor := do
  let c ← c.put batchedAmHeaderLen (BatchedAmHeader.encode ⟨e.1, e.2.length, cmd⟩)
  e.2.foldlM (serializeAm C) c

/-- The messages of a team -/
def serializeTeam (cmd : Cmd) (c : Cursor) (e : UInt64 × AmIdMap A) : Option Cursor := do
  let c ← c.put teamHeaderLen (TeamHeader.encode ⟨e.1, e.2.length⟩)
  e.2.foldlM (serializeAms C cmd) c

def serializeAmBatch (amBatch : TeamMap A) (cmd : Cmd) (c : Cursor) : Option Cursor :=
  if amBatch.length > 0 then do
    let c ← c.put batchHeaderLen (BatchHeader.encode ⟨.batchedMsg, amBatch.length⟩)
    amBatch.foldlM (serializeTeam C cmd) c
  else some c

def serializeData (req : ReqMetaData) (data : D) (dataSize : ℕ) (darcs : List R)
    (darcListSize : ℕ) (c : Cursor) : Option Cursor := do
  let c ← c.put batchHeaderLen (BatchHeader.encode ⟨.data, 1⟩)
  let dataSize ← checkedSub dataSize (batchHeaderLen + dataHeaderLen + darcListSize)
  let c ← c.put dataHeaderLen (DataHeader.encode ⟨dataSize, req.id, darcListSize⟩)
  let c ← c.put darcListSize (C.serializePtrs darcs)
  c.put dataSize (C.serializeData data)

def serializeUnit (req : ReqMetaData) (c : Cursor) : Option Cursor := do
  let c ← c.put batchHeaderLen (BatchHeader.encode ⟨.unit, 1⟩)
  c.put unitHeaderLen req.id.encode

def serializeNonAm (c : Cursor) (e : ReqMetaData × LamellarData A D R × ℕ) : Option Cursor :=
  match e.2.1 with
  | .am _ _ | .ret _ _ => none
  | .data data darcs darcListSize => serializeData C e.1 data e.2.2 darcs darcListSize c
  | .unit => serializeUnit e.1 c

def serializeNonAmBatch (nonAms : List (ReqMetaData × LamellarData A D R × ℕ)) (c : Cursor) :
    Option Cursor :=
  nonAms.foldlM (serializeNonAm C) c

/-- The size of the buffer, from the one that the `add` functions have added up. -/
def bufferSize (batch : TeamBatch A D R) (size : ℕ) : ℕ :=
  let size := if batch.ams.length > 0 then size + batchHeaderLen else size
  if batch.returnAms.length > 0 then size + batchHeaderLen else size

def createTxTask (batch : TeamBatch A D R) (data : List UInt8) : Option Cursor := do
  let c ← serializeAmBatch C batch.ams .am ⟨data, 0⟩
  let c ← serializeAmBatch C batch.returnAms .returnAm c
  serializeNonAmBatch C batch.nonAms c

end TeamAmBatcher

/-! ## Reading -/

/-- `exec_data_am` -/
def execDataAm (data : List UInt8) (i : ℕ) : Option (Received A R × ℕ) := do
  let h ← DataHeader.decode (← slice data i dataHeaderLen)
  let i := i + dataHeaderLen
  let darcs ← C.deserializePtrs (← slice data i h.darcListSize)
  let i := i + h.darcListSize
  let sub ← slice data i h.size
  return (.data h.reqId sub darcs, i + h.size)

/-- `exec_unit_am` -/
def execUnitAm (data : List UInt8) (i : ℕ) : Option (Received A R × ℕ) := do
  let id ← ReqId.decode (← slice data i unitHeaderLen)
  return (.unit id, i + unitHeaderLen)

/-- A message of the given kind -/
def Received.ofAm (cmd : Cmd) (teamAddr : UInt64) (amId : AmId) (reqId : ReqId) (am : A) :
    Option (Received A R) :=
  match cmd with
  | .am => some (.am teamAddr amId reqId am)
  | .returnAm => some (.returnAm teamAddr amId reqId am)
  | .data | .unit | .batchedMsg => none

/-- A counted loop; its rounds yield what they have read, and where to go on. -/
def repeatExec (body : ℕ → Option (List (Received A R) × ℕ)) :
    ℕ → ℕ → Option (List (Received A R) × ℕ)
  | 0, i => some ([], i)
  | n + 1, i => do
    let (rs, i) ← body i
    let (rs', i) ← repeatExec body n i
    return (rs ++ rs', i)

/-- The loop of `exec_batched_msg` over a buffer of the given length; each round reads a
command at least. -/
def whileExec (body : ℕ → Option (List (Received A R) × ℕ)) (len : ℕ) :
    ℕ → ℕ → Option (List (Received A R) × ℕ)
  | 0, _ => none
  | fuel + 1, i =>
    if i < len then do
      let (rs, i) ← body i
      let (rs', i) ← whileExec body len fuel i
      return (rs ++ rs', i)
    else some ([], i)

/-- A round that yields one message. -/
def one (r : Option (Received A R × ℕ)) : Option (List (Received A R) × ℕ) :=
  r.map fun r => ([r.1], r.2)

namespace SimpleBatcher

/-- `exec_am` and `exec_return_am` -/
def execAm (cmd : Cmd) (data : List UInt8) (i : ℕ) : Option (Received A R × ℕ) := do
  let h ← AmHeader.decode (← slice data i amHeaderLen)
  let i := i + amHeaderLen
  let am ← C.unpack h.amId (data.drop i)
  let r ← Received.ofAm cmd h.teamAddr h.amId h.reqId am
  return (r, i + C.amSize am)

/-- One round of the loop of `exec_batched_msg` -/
def execMsg (data : List UInt8) (i : ℕ) : Option (Received A R × ℕ) := do
  let cmd ← Cmd.decode (← slice data i cmdLen)
  let i := i + cmdLen
  match cmd with
  | .am | .returnAm => execAm C cmd data i
  | .data => execDataAm C data i
  | .unit => execUnitAm data i
  | .batchedMsg => none

def execBatchedMsg (data : List UInt8) : Option (List (Received A R) × ℕ) :=
  whileExec (fun i => one (execMsg C data i)) data.length (data.length + 1) 0

end SimpleBatcher

namespace TeamAmBatcher

/-- `exec_am` and `exec_return_am` -/
def execAm (cmd : Cmd) (teamAddr : UInt64) (amId : AmId) (data : List UInt8) (i : ℕ) :
    Option (Received A R × ℕ) := do
  let reqId ← ReqId.decode (← slice data i reqIdLen)
  let i := i + reqIdLen
  let am ← C.unpack amId (data.drop i)
  let r ← Received.ofAm cmd teamAddr amId reqId am
  return (r, i + C.amSize am)

/-- The messages of a type -/
def execAms (teamAddr : UInt64) (data : List UInt8) (i : ℕ) :
    Option (List (Received A R) × ℕ) := do
  let h ← BatchedAmHeader.decode (← slice data i batchedAmHeaderLen)
  repeatExec (fun i => one (execAm C h.cmd teamAddr h.amId data i)) h.amCnt
    (i + batchedAmHeaderLen)

/-- The messages of a team -/
def execTeam (data : List UInt8) (i : ℕ) : Option (List (Received A R) × ℕ) := do
  let h ← TeamHeader.decode (← slice data i teamHeaderLen)
  repeatExec (execAms C h.teamId data) h.amBatchCnts (i + teamHeaderLen)

def execBatchedAm (batchCnt : ℕ) (data : List UInt8) (i : ℕ) :
    Option (List (Received A R) × ℕ) :=
  repeatExec (execTeam C data) batchCnt i

/-- One round of the loop of `exec_batched_msg` -/
def execMsg (data : List UInt8) (i : ℕ) : Option (List (Received A R) × ℕ) := do
  let h ← BatchHeader.decode (← slice data i batchHeaderLen)
  let i := i + batchHeaderLen
  match h.cmd with
  | .am | .returnAm => none
  | .data => one (execDataAm C data i)
  | .unit => one (execUnitAm data i)
  | .batchedMsg => execBatchedAm C h.cnt data i

def execBatchedMsg (data : List UInt8) : Option (List (Received A R) × ℕ) :=
  whileExec (execMsg C data) data.length (data.length + 1) 0

end TeamAmBatcher

end Lamellar.Batching
