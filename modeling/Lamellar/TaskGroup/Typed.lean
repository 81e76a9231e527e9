import Lamellar.Lib.BinarySearch
import Lamellar.Lib.Draining
import Lamellar.TaskGroup.Model

/-!
# Typed groups: `impl/src/gen_am_group.rs` and `TypedAmGroupResult`

For a struct of active messages, the macros generate a `GroupAm` with a vector for every field
and one value for every static field, and a user struct that adds messages to the `GroupAm` of
their PE. When `num_per_batch` messages have been added to the group, the `GroupAm` of the last
one is sent; `exec` sends the others. A `GroupAm` runs the messages that it reads from its vectors
and returns a vector of what they return, and the results find a message by its number in the
batches.

The messages of a batch are numbered by `ids`, and the numbers are given to the runs here: what a
message does depends on the state of its PE, so that a run yields some value for its number, its
PE and the message that is run. Panics are `none`.
-/

namespace Lamellar.TaskGroup

open BinarySearch Draining

/-! ## The generated structs -/

/-- The fields of a struct of active messages, and those marked `#[AmGroup(static)]` -/
structure Shape where
  numFields : ℕ
  numStatics : ℕ
  deriving DecidableEq

/-- The values of the fields are of one type, a sum of the types of the fields. -/
@[ext]
structure Am (V : Type) (s : Shape) where
  fields : Fin s.numFields → V
  statics : Fin s.numStatics → V

structure GroupAm (V : Type) (s : Shape) where
  fields : Fin s.numFields → List V
  statics : Fin s.numStatics → V

namespace GroupAm

variable {V : Type} {s : Shape}

def new (am : Am V s) : GroupAm V s := ⟨fun _ => [], am.statics⟩

def addAm (g : GroupAm V s) (am : Am V s) : GroupAm V s :=
  { g with fields := fun n => g.fields n ++ [am.fields n] }

/-- The length of the first field's vector, or 1 -/
def len (g : GroupAm V s) : ℕ := if h : 0 < s.numFields then (g.fields ⟨0, h⟩).length else 1

/-- The getters of the fields, with `[i]`, and of the static fields -/
def read (g : GroupAm V s) (i : ℕ) : Option (Am V s) :=
  if h : ∀ n, i < (g.fields n).length then
    some ⟨fun n => (g.fields n).get ⟨i, h n⟩, g.statics⟩
  else none

/-- The messages that the loop of `exec` runs -/
def ams (g : GroupAm V s) : Option (List (Am V s)) := (List.range g.len).mapM g.read

/-- `__am_group`, when a run has returned a message. -/
def addReturned (amGroup : Option (GroupAm V s)) (am : Am V s) : Option (GroupAm V s) :=
  match amGroup with
  | some g => some (g.addAm am)
  | none => some ((new am).addAm am)

end GroupAm

/-- What a struct's `exec` returns: nothing, data, or an active message, that is run where the
message came from. The arguments are the number of the message, the PE that runs it, and the
message. -/
inductive AmType (V : Type) : Shape → Type → Type 1 where
  | noReturn {s : Shape} : AmType V s Unit
  | returnData {s : Shape} {T : Type} (output : ℕ → ℕ → Am V s → T) : AmType V s T
  | returnAm {s s' : Shape} {T : Type} (am : ℕ → ℕ → Am V s → Am V s') (ret : AmType V s' T) :
      AmType V s T

/-- A message that has been run, for the message with number `k` on PE `pe`. -/
structure Executed (V : Type) where
  pe : ℕ
  k : ℕ
  shape : Shape
  am : Am V shape

/-- What a `GroupAm` returns. -/
inductive Output (T : Type) where
  | unit (t : T)
  | val (ts : List T)

def Output.unit? {T : Type} : Output T → Option T
  | .unit t => some t
  | .val _ => none

def Output.val? {T : Type} : Output T → Option (List T)
  | .unit _ => none
  | .val ts => some ts

namespace AmType

/-- The result is a unit result, and not a value result. -/
def isUnit {V T : Type} {s : Shape} : AmType V s T → Bool
  | .noReturn => true
  | .returnData _ => false
  | .returnAm _ ret => ret.isUnit

def executed {V : Type} {s : Shape} (ids : List ℕ) (pe : ℕ) (ams : List (Am V s)) :
    List (Executed V) :=
  List.zipWith (fun k am => ⟨pe, k, s, am⟩) ids ams

/-- `exec` of a `GroupAm`, with the messages of the given numbers, on PE `pe` -/
def exec {V T : Type} {s : Shape} (t : AmType V s T) (ids : List ℕ) (pe : ℕ) (g : GroupAm V s) :
    Option (Output T × List (Executed V)) :=
  match t with
  | .noReturn => do
    let ams ← g.ams
    some (.unit (), executed ids pe ams)
  | .returnData output => do
    let ams ← g.ams
    let resVec := List.zipWith (fun k am => output k pe am) ids ams
    some (.val resVec, executed ids pe ams)
  | .returnAm am ret => do
    let ams ← g.ams
    let amGroup ← (List.zipWith (fun k a => am k pe a) ids ams).foldl GroupAm.addReturned none
    let (output, log) ← ret.exec ids pe amGroup
    some (output, executed ids pe ams ++ log)

end AmType

/-! ## Results -/

inductive BaseAmGroupResult (T : Type) where
  | singlePeUnit (t : T)
  | singlePeVal (ts : List T)
  | allPeUnit (ts : List T)
  | allPeVal (tss : List (List T))

/-- `into_result`, of the variants for all PEs and for one -/
def BaseAmGroupResult.ofAll {T : Type} (isUnit : Bool) (outs : List (Output T)) :
    Option (BaseAmGroupResult T) :=
  if isUnit then (outs.mapM Output.unit?).map .allPeUnit
  else (outs.mapM Output.val?).map .allPeVal

def BaseAmGroupResult.ofSingle {T : Type} (isUnit : Bool) (out : Output T) :
    Option (BaseAmGroupResult T) :=
  if isUnit then out.unit?.map .singlePeUnit else out.val?.map .singlePeVal

structure TypedAmGroupBatchResult (T : Type) where
  pe : ℕ
  ids : List ℕ
  reqs : BaseAmGroupResult T

inductive TypedAmAllIter (T : Type) where
  | unit (all : List T) (curPe numPes : ℕ)
  | val (all : List (List T)) (req curPe numPes : ℕ)

def TypedAmAllIter.next {T : Type} : TypedAmAllIter T → Option (Option T × TypedAmAllIter T)
  | .unit all curPe numPes =>
    if curPe < numPes then do
      let t ← all[curPe]?
      some (some t, .unit all (curPe + 1) numPes)
    else some (none, .unit all curPe numPes)
  | .val all req curPe numPes =>
    if curPe < numPes then do
      let ts ← all[curPe]?
      let t ← ts[req]?
      some (some t, .val all req (curPe + 1) numPes)
    else some (none, .val all req curPe numPes)

inductive AmGroupResult (T : Type) where
  | pe (pe : ℕ) (t : T)
  | all (iter : TypedAmAllIter T)

/-- The PEs that a result is from, and the values, in the order of the PEs. -/
def AmGroupResult.view {T : Type} (numPes : ℕ) : AmGroupResult T → Option (Dest × List T)
  | .pe p t => some (.pe p, [t])
  | .all iter => (collect TypedAmAllIter.next (numPes + 1) iter).map fun ts => (.all, ts)

/-- The fields of `TypedAmGroupUnitResult` and of `TypedAmGroupValResult` -/
structure TypedAmGroupResults (T : Type) where
  reqs : List (TypedAmGroupBatchResult T)
  cnt : ℕ
  numPes : ℕ

inductive TypedAmGroupResult (T : Type) where
  | unit (res : TypedAmGroupResults T)
  | val (res : TypedAmGroupResults T)

/-- The loop of `at` over the batches: the first one that has the index gives the result. -/
def atLoop {T : Type} (index : ℕ)
    (result : TypedAmGroupBatchResult T → ℕ → Option (AmGroupResult T)) :
    List (TypedAmGroupBatchResult T) → Option (AmGroupResult T)
  | [] => none
  | req :: reqs =>
    match binarySearch req.ids index with
    | some idx => result req idx
    | none => atLoop index result reqs

namespace TypedAmGroupResults

variable {T : Type}

/-- `TypedAmGroupValResult::at` -/
def atVal (r : TypedAmGroupResults T) (index : ℕ) : Option (AmGroupResult T) :=
  if index < r.cnt then
    atLoop index (fun req idx =>
      match req.reqs with
      | .singlePeVal res => res[idx]?.map fun t => .pe req.pe t
      | .allPeVal res => some (.all (.val res idx 0 r.numPes))
      | .singlePeUnit _ | .allPeUnit _ => none) r.reqs
  else none

/-- `TypedAmGroupUnitResult::at` -/
def atUnit (r : TypedAmGroupResults T) (index : ℕ) : Option (AmGroupResult T) :=
  if index < r.cnt then
    atLoop index (fun req _idx =>
      match req.reqs with
      | .singlePeUnit res => some (.pe req.pe res)
      | .allPeUnit res => some (.all (.unit res 0 r.numPes))
      | .singlePeVal _ | .allPeVal _ => none) r.reqs
  else none

end TypedAmGroupResults

namespace TypedAmGroupResult

variable {T : Type}

def «at» (r : TypedAmGroupResult T) (i : ℕ) : Option (AmGroupResult T) :=
  match r with
  | .unit res => res.atUnit i
  | .val res => res.atVal i

def len : TypedAmGroupResult T → ℕ
  | .unit res => res.cnt
  | .val res => res.cnt

/-- `next` of the iterator, whose state is the index -/
def iterNext (r : TypedAmGroupResult T) (index : ℕ) : Option (Option (AmGroupResult T) × ℕ) :=
  if index < r.len then do
    let res ← r.at index
    some (some res, index + 1)
  else some (none, index)

/-- What `iter` yields -/
def iter (r : TypedAmGroupResult T) : Option (List (AmGroupResult T)) :=
  collect r.iterNext (r.len + 1) 0

end TypedAmGroupResult

/-! ## The group -/

structure TypedAmGroupBatchReq (V : Type) (s : Shape) where
  pe : ℕ
  ids : List ℕ
  am : GroupAm V s

structure TypedAmGroup (V : Type) (s : Shape) where
  /-- `team.num_pes()` -/
  numPes : ℕ
  batchCnt : ℕ
  cnt : ℕ
  reqs : SortedMap (List ℕ × GroupAm V s)
  numPerBatch : ℕ
  pendingReqs : List (TypedAmGroupBatchReq V s)

namespace TypedAmGroup

variable {V T : Type} {s : Shape}

def new (numPes numPerBatch : ℕ) : TypedAmGroup V s := ⟨numPes, 0, 0, .empty, numPerBatch, []⟩

/-- `exec_am_group_pe` asserts that the PE is of the team. -/
def sendPeBuffer (g : TypedAmGroup V s) (pe : ℕ) : Option (TypedAmGroup V s) :=
  match g.reqs.get? pe with
  | some (reqs, theAm) =>
    if pe ≤ g.numPes then
      some { g with reqs := g.reqs.erase pe, pendingReqs := g.pendingReqs ++ [⟨pe, reqs, theAm⟩] }
    else none
  | none => some g

/-- `Vec::with_capacity` for numbers of 8 bytes panics above `isize::MAX` bytes. -/
def withCapacity (n : ℕ) : Option (List ℕ) := if 8 * n < 2 ^ 63 then some [] else none

/-- The buffer for the PE; a new one has capacity for a full batch. -/
def reqQueue (g : TypedAmGroup V s) (pe : ℕ) (am : Am V s) : Option (List ℕ × GroupAm V s) :=
  match g.reqs.get? pe with
  | some reqQueue => some reqQueue
  | none => (withCapacity g.numPerBatch).map fun ids => (ids, .new am)

def addAmPe (g : TypedAmGroup V s) (pe : ℕ) (am : Am V s) : Option (TypedAmGroup V s) := do
  let reqQueue ← g.reqQueue pe am
  let reqQueue := (reqQueue.1 ++ [g.cnt], reqQueue.2.addAm am)
  let g := { g with
    reqs := g.reqs.insert pe reqQueue, cnt := g.cnt + 1, batchCnt := g.batchCnt + 1 }
  if g.batchCnt ≥ g.numPerBatch then
    let g ← g.sendPeBuffer pe
    some { g with batchCnt := 0 }
  else some g

def addAmAll (g : TypedAmGroup V s) (am : Am V s) : Option (TypedAmGroup V s) :=
  g.addAmPe g.numPes am

/-- One call -/
def addAm (g : TypedAmGroup V s) (op : Dest × Am V s) : Option (TypedAmGroup V s) :=
  match op.1 with
  | .all => g.addAmAll op.2
  | .pe pe => g.addAmPe pe op.2

/-- A new group, and the given calls -/
def ofOps (numPes numPerBatch : ℕ) (ops : List (Dest × Am V s)) : Option (TypedAmGroup V s) :=
  ops.foldlM addAm (new numPes numPerBatch)

end TypedAmGroup

namespace TypedAmGroupBatchReq

variable {V T : Type} {s : Shape}

/-- The request's result, as the variant that `send_pe_buffer` has given to it: all the PEs of
the team return one, in their order. Also the messages that have been run. -/
def intoResult (req : TypedAmGroupBatchReq V s) (t : AmType V s T) (numPes : ℕ) :
    Option (TypedAmGroupBatchResult T × List (Executed V)) :=
  if req.pe = numPes then do
    let outs ← (List.range numPes).mapM fun pe => t.exec req.ids pe req.am
    let reqs ← BaseAmGroupResult.ofAll t.isUnit (outs.map Prod.fst)
    some (⟨req.pe, req.ids, reqs⟩, outs.flatMap Prod.snd)
  else do
    let out ← t.exec req.ids req.pe req.am
    let reqs ← BaseAmGroupResult.ofSingle t.isUnit out.1
    some (⟨req.pe, req.ids, reqs⟩, out.2)

end TypedAmGroupBatchReq

namespace TypedAmGroup

variable {V T : Type} {s : Shape}

/-- The loop of `exec` that sends the buffers -/
def sendAll (g : TypedAmGroup V s) : Option (TypedAmGroup V s) :=
  (List.range (g.numPes + 1)).foldlM sendPeBuffer g

/-- What `exec` returns, and the messages that have been run. -/
def exec (g : TypedAmGroup V s) (t : AmType V s T) :
    Option (TypedAmGroupResult T × List (Executed V)) := do
  let g ← g.sendAll
  let results ← g.pendingReqs.mapM fun req => req.intoResult t g.numPes
  let res := ⟨results.map Prod.fst, g.cnt, g.numPes⟩
  some (if t.isUnit then .unit res else .val res, results.flatMap Prod.snd)

end TypedAmGroup

end Lamellar.TaskGroup
