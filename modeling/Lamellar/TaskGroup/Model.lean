import Lamellar.Batching.Codec
import Lamellar.Lib.SortedMap
import Lamellar.Lib.While

/-!
# Groups of active messages: `AmGroup` in `src/lamellar_task_group.rs`

An `AmGroup` queues active messages by the PE they are for; the queue of all PEs has the number
of PEs of the team as its key. `exec` takes the messages of every queue and launches them in
`AmGroupAm`s, each for a range of the messages. A queue whose messages take more than a megabyte
is split, by a loop that closes a range behind a message when it has grown past `req_size`, and
before a message that would reach the hard limit.

Panics are `none`, and so is a loop that does not end within its fuel. The messages are of one
type, a sum of those of the program; how they are written is an `AmCodec`.
-/

namespace Lamellar.TaskGroup

open Batching (AmId checkedSub)
open Wire

structure AmCodec (A : Type) where
  /-- `AMS_IDS.get(am.get_id())` -/
  amId : A → AmId
  serializedSize : A → ℕ
  /-- What `serialize_into` writes. -/
  serialize : A → List UInt8
  /-- The entry of `AMS_EXECS`, on all the data that are left. -/
  unpack : AmId → List UInt8 → Option A

variable {A : Type} (C : AmCodec A)

/-- The codec of each message type round-trips. -/
structure AmCodec.Lawful : Prop where
  length_serialize : ∀ a, (C.serialize a).length = C.serializedSize a
  unpack_serialize : ∀ a rest, C.unpack (C.amId a) (C.serialize a ++ rest) = some a

/-! ## The message of a range -/

structure AmGroupAm (A : Type) where
  ams : List A
  si : ℕ
  ei : ℕ
  deriving DecidableEq

namespace AmGroupAm

/-- `self.ams[self.si..self.ei]` -/
def messages (m : AmGroupAm A) : Option (List A) :=
  if m.si ≤ m.ei ∧ m.ei ≤ m.ams.length then some ((m.ams.drop m.si).take (m.ei - m.si)) else none

/-- The width of a `usize` and of an `AmId` -/
def numLen : ℕ := 8
def idLen : ℕ := 4

def serializedSize (m : AmGroupAm A) : Option ℕ :=
  m.messages.map fun ams =>
    ams.foldl (fun size am => size + idLen + C.serializedSize am) numLen

def serializeAm (c : Cursor) (am : A) : Option Cursor := do
  let c ← c.put idLen (encodeLe idLen (C.amId am).toUInt32.toNat)
  c.put (C.serializedSize am) (C.serialize am)

def serializeInto (m : AmGroupAm A) (buf : List UInt8) : Option Cursor := do
  let num ← checkedSub m.ei m.si
  let c ← Cursor.put ⟨buf, 0⟩ numLen (encodeLe numLen num)
  let ams ← m.messages
  ams.foldlM (serializeAm C) c

def serialize (m : AmGroupAm A) : Option (List UInt8) := do
  let serSize ← m.serializedSize C
  let c ← m.serializeInto C (List.replicate serSize 0)
  some c.buf

/-- The loop of `am_group_am_unpack` -/
def unpackAms (bytes : List UInt8) : ℕ → ℕ → Option (List A)
  | 0, _ => some []
  | num + 1, i => do
    let id : AmId := ⟨UInt32.ofNat (decodeLe (← slice bytes i idLen))⟩
    let i := i + idLen
    let am ← C.unpack id (bytes.drop i)
    let ams ← unpackAms bytes num (i + C.serializedSize am)
    some (am :: ams)

end AmGroupAm

def amGroupAmUnpack (bytes : List UInt8) : Option (AmGroupAm A) := do
  let num := decodeLe (← slice bytes 0 AmGroupAm.numLen)
  let ams ← AmGroupAm.unpackAms C bytes num AmGroupAm.numLen
  some ⟨ams, 0, ams.length⟩

/-! ## The group -/

/-- The messages for a PE: which of the group's they are, the messages, and what they take. -/
structure Queue (A : Type) where
  ids : List ℕ
  ams : List A
  size : ℕ
  deriving DecidableEq

structure AmGroup (A : Type) where
  /-- `team.num_pes` -/
  numPes : ℕ
  cnt : ℕ
  reqs : SortedMap (Queue A)

/-- `Vec::push`, of an element of `width` bytes; a vector takes `isize::MAX` bytes at most. -/
def push {α : Type} (width : ℕ) (xs : List α) (x : α) : Option (List α) :=
  if (xs.length + 1) * width < 2 ^ 63 then some (xs ++ [x]) else none

def Queue.empty : Queue A := ⟨[], [], 0⟩

def Queue.add (q : Queue A) (cnt : ℕ) (am : A) : Option (Queue A) := do
  let size := q.size + C.serializedSize am
  let ids ← push 8 q.ids cnt
  let ams ← push 16 q.ams am
  some ⟨ids, ams, size⟩

namespace AmGroup

def new (numPes : ℕ) : AmGroup A := ⟨numPes, 0, .empty⟩

def addAm (g : AmGroup A) (key : ℕ) (am : A) : Option (AmGroup A) := do
  let reqQueue ← ((g.reqs.get? key).getD .empty).add C g.cnt am
  some { g with reqs := g.reqs.insert key reqQueue, cnt := g.cnt + 1 }

def addAmAll (g : AmGroup A) (am : A) : Option (AmGroup A) := g.addAm C g.numPes am

def addAmPe (g : AmGroup A) (pe : ℕ) (am : A) : Option (AmGroup A) := g.addAm C pe am

end AmGroup

/-! ## Splitting a queue -/

def splitSize : ℕ := 1000000

def hardLimit : ℕ := 100000000

/-- The variables of the loop of `exec`, and the ranges that it has launched. -/
structure Splitting where
  i : ℕ
  startI : ℕ
  tempSize : ℕ
  launched : List (ℕ × ℕ)

def Splitting.start : Splitting := ⟨0, 0, 0, []⟩

/-- `if send { .. }` -/
def Splitting.launchIf (s : Splitting) (send : Bool) : Splitting :=
  if send then ⟨s.i, s.i, 0, s.launched ++ [(s.startI, s.i)]⟩ else s

/-- One turn of the loop, at a message of `amSize` bytes -/
def Splitting.turn (reqSize amSize : ℕ) (s : Splitting) : Splitting :=
  if s.tempSize + amSize < hardLimit then
    let s := { s with tempSize := s.tempSize + amSize, i := s.i + 1 }
    s.launchIf (s.tempSize > reqSize)
  else s.launchIf true

/-- The ranges when the loop has ended: the last one is launched if it takes any bytes. -/
def Splitting.finish (s : Splitting) : List (ℕ × ℕ) :=
  if s.tempSize > 0 then s.launched ++ [(s.startI, s.i)] else s.launched

def splitLoop (sizes : List ℕ) (reqSize : ℕ) : ℕ → Splitting → Option Splitting :=
  While.loop (fun s => s.i < sizes.length) fun s => s.turn reqSize (sizes.getD s.i 0)

/-- `req_size`, for `num_reqs` requests -/
def reqSize (size : ℕ) : ℕ := size / (size / splitSize + 1)

namespace Queue

def sizes (q : Queue A) : List ℕ := q.ams.map C.serializedSize

/-- The ranges that `exec` launches for a queue. -/
def ranges (q : Queue A) (fuel : ℕ) : Option (List (ℕ × ℕ)) :=
  if q.size > splitSize then
    (splitLoop (q.sizes C) (reqSize q.size) fuel .start).map Splitting.finish
  else some [(0, q.ams.length)]

end Queue

/-- Where an `AmGroupAm` goes. -/
inductive Dest where
  | all
  | pe (pe : ℕ)
  deriving DecidableEq

/-- The destination of the queue with key `key` -/
def Dest.ofKey (numPes key : ℕ) : Dest := if key = numPes then .all else .pe key

/-- `exec_arc_am_all` for the queue of all PEs; `exec_arc_am_pe` asserts that the PE is of the
team. -/
def launch (numPes key : ℕ) (am : AmGroupAm A) : Option (Dest × AmGroupAm A) :=
  if key ≤ numPes then some (.ofKey numPes key, am) else none

namespace AmGroup

/-- The launches for a queue -/
def execQueue (numPes fuel key : ℕ) (q : Queue A) : Option (List (Dest × AmGroupAm A)) := do
  let ranges ← q.ranges C fuel
  ranges.mapM fun r => launch numPes key ⟨q.ams, r.1, r.2⟩

/-- What `exec` launches, and the group it leaves: only the messages are taken out of the
queues. -/
def exec (g : AmGroup A) (fuel : ℕ) : Option (List (Dest × AmGroupAm A) × AmGroup A) := do
  let launched ← g.reqs.entries.mapM fun e => execQueue C g.numPes fuel e.1 e.2
  some (launched.flatten, { g with reqs := g.reqs.map fun q => { q with ams := [] } })

end AmGroup

/-! ## The life of a group -/

inductive Op (A : Type) where
  | addAmAll (am : A)
  | addAmPe (pe : ℕ) (am : A)
  | exec

/-- The group after the given calls -/
inductive Runs (numPes : ℕ) : List (Op A) → AmGroup A → Prop where
  | new : Runs numPes [] (.new numPes)
  | addAmAll {ops : List (Op A)} {g g' : AmGroup A} {am : A} (prior : Runs numPes ops g)
      (h : g.addAmAll C am = some g') : Runs numPes (ops ++ [.addAmAll am]) g'
  | addAmPe {ops : List (Op A)} {g g' : AmGroup A} {pe : ℕ} {am : A} (prior : Runs numPes ops g)
      (h : g.addAmPe C pe am = some g') : Runs numPes (ops ++ [.addAmPe pe am]) g'
  | exec {ops : List (Op A)} {g g' : AmGroup A} {fuel : ℕ} {launched : List (Dest × AmGroupAm A)}
      (prior : Runs numPes ops g) (h : g.exec C fuel = some (launched, g')) :
      Runs numPes (ops ++ [.exec]) g'

/-- The messages that a call adds to those that wait in the queue with key `key`. -/
def Op.pending (numPes key : ℕ) (waiting : List A) : Op A → List A
  | .addAmAll am => if numPes = key then waiting ++ [am] else waiting
  | .addAmPe pe am => if pe = key then waiting ++ [am] else waiting
  | .exec => []

/-- The messages that have been added for the queue with key `key` and not been executed. -/
def pending (numPes key : ℕ) (ops : List (Op A)) : List A := ops.foldl (Op.pending numPes key) []

end Lamellar.TaskGroup
