import Lamellar.Array.Layout

/-!
# The transfer paths of `src/array/unsafe/rdma.rs`

A put or get of a range of a view is carried out by one of several strategies: `block_op`
and `cyclic_op` talk to the memory regions of the PEs directly, or launch active messages
that do, and the receiver of a message finds its own part of the range with
`local_elements_for_range`.

The memory of the array is a `MemoryRegion`: `perPe` elements on each PE. Its transfers copy
the range they name, and panic when the range does not fit; a buffer is the list of its
elements. `none` stands for a panic (or, for `copy_nonoverlapping`, a read past the end of
the source). Active messages of one call run concurrently: a `Schedule` puts the requests of
a call in any order.
-/

namespace Lamellar.Array

variable {T : Type}

/-! ## Memory regions and buffers -/

structure MemoryRegion (T : Type) where
  perPe : ℕ
  cell : ℕ → ℕ → T

namespace MemoryRegion

/-- `blocking_get` and `get_unchecked`: read `n` elements from `index` on, on PE `pe`. -/
def blockingGet (r : MemoryRegion T) (pe index n : ℕ) : Option (List T) :=
  if index + n ≤ r.perPe then some ((List.range n).map fun k => r.cell pe (index + k))
  else none

/-- Overwrite the elements from `index` on, on PE `pe`. -/
def write (r : MemoryRegion T) (pe index : ℕ) (data : List T) : MemoryRegion T :=
  { r with cell := fun p s =>
      if p = pe ∧ index ≤ s then (data[s - index]?).getD (r.cell p s) else r.cell p s }

/-- `blocking_put`. -/
def blockingPut (r : MemoryRegion T) (pe index : ℕ) (data : List T) :
    Option (MemoryRegion T) :=
  if index + data.length ≤ r.perPe then some (r.write pe index data) else none

end MemoryRegion

/-- `buf.sub_region(start..start + n)`. -/
def subRegion (buf : List T) (start n : ℕ) : Option (List T) :=
  if start + n ≤ buf.length then some ((buf.drop start).take n) else none

/-- `buf` with `data` in place of its elements from `start` on. -/
def splice (buf : List T) (start : ℕ) (data : List T) : List T :=
  buf.take start ++ data ++ buf.drop (start + data.length)

/-- A put of `data` into the local buffer `buf` at `start`. -/
def bufPut (buf : List T) (start : ℕ) (data : List T) : Option (List T) :=
  if start + data.length ≤ buf.length then some (splice buf start data) else none

/-- `alloc_one_sided_mem_region`: its content is whatever the memory held before. -/
def allocOneSidedMemRegion (junk : ℕ → T) (n : ℕ) : List T := (List.range n).map junk

/-- `(start..stop).step_by(step)`. -/
def stepBy (start stop step : ℕ) : List ℕ :=
  (List.range ((stop - start + step - 1) / step)).map fun k => start + k * step

/-- An order in which the requests of one call are executed. -/
structure Schedule where
  run : {α : Type} → List α → List α
  perm : ∀ {α : Type} (l : List α), (run l).Perm l

/-- The requests one after the other, as they were made. -/
def Schedule.inOrder : Schedule := ⟨fun l => l, fun l => List.Perm.refl l⟩

/-- `BATCH_AM_SIZE`. -/
def batchAmSize : ℕ := 100000

namespace UnsafeArrayInner

/-! ## The receiver's part of a range -/

/-- `&mut slice[start..stop]` of a range of the memory region. -/
def subSlice (slice : ℕ × ℕ) (start stop : ℕ) : Option (ℕ × ℕ) :=
  if start ≤ stop ∧ slice.1 + stop ≤ slice.2 then some (slice.1 + start, slice.1 + stop)
  else none

/-- `local_elements_for_range`: the range of the memory region of the calling PE that holds
its elements of `[index, index + len)`, with their local indices. -/
def localElementsForRange (a : UnsafeArrayInner) (index len : ℕ) :
    Option (Option ((ℕ × ℕ) × (ℕ × ℕ))) := do
  let startPe ← a.peForDistIndex index
  let endPe ← a.peForDistIndex (index + len - 1)
  match a.distribution with
  | .block =>
    if endPe < a.myPe ∨ a.myPe < startPe then some none
    else
      let subarrayStartIndex ← a.startIndexForPe a.myPe
      let (startIndex, remElem) :=
        if a.myPe = startPe then (index - subarrayStartIndex, len)
        else (0, len - (subarrayStartIndex - index))
      let endIndex := if a.myPe = endPe then startIndex + remElem else a.numElemsLocal
      let elems ← subSlice (← a.localAsMutSlice) startIndex endIndex
      some (some (elems, (startIndex, endIndex)))
  | .cyclic =>
    let localIndex :=
      if startPe ≤ a.myPe then index + (a.myPe - startPe)
      else index + (a.numPes - startPe + a.myPe)
    let startIndex := localIndex / a.numPes
    let numElems := len / a.numPes +
      if len % a.numPes ≠ 0 ∧ (if startPe ≤ endPe then startPe ≤ a.myPe ∧ a.myPe ≤ endPe
        else startPe ≤ a.myPe ∨ a.myPe ≤ endPe) then 1 else 0
    if 0 < numElems then
      let endIndex := startIndex + numElems
      let elems ← subSlice (← a.localAsMutSlice) startIndex endIndex
      some (some (elems, (startIndex, endIndex)))
    else some none

/-- `pes_for_range`. -/
def pesForRange (a : UnsafeArrayInner) (index len : ℕ) : List ℕ :=
  match a.distribution with
  | .block =>
    match a.peForDistIndex index, a.peForDistIndex (index + len - 1) with
    | some startPe, some endPe => List.range' startPe (endPe + 1 - startPe)
    | _, _ => []
  | .cyclic =>
    -- the loop stops as soon as `num_pes` PEs are listed
    ((List.range' (a.offset + index) len).map (· % a.numPes)).take a.numPes

/-! ## `block_op` -/

/-- One turn of the loop of `block_op`: `len` elements from `bufIndex` on of the buffer
belong to the elements from `offset` on of the memory region of `pe`. -/
structure BlockPiece where
  pe : ℕ
  offset : ℕ
  bufIndex : ℕ
  len : ℕ

/-- The loop of `block_op` over `start_pe..=end_pe`. -/
def blockLoop (a : UnsafeArrayInner) (bufLen : ℕ) : List ℕ → ℕ → ℕ → List BlockPiece
  | [], _, _ => []
  | pe :: pes, distIndex, bufIndex =>
    let numElemsOnPe := a.boundary (pe + 1) - a.boundary pe
    let offset := distIndex - a.boundary pe
    let len := min (numElemsOnPe - offset) (bufLen - bufIndex)
    if 0 < len then
      ⟨pe, offset, bufIndex, len⟩ :: blockLoop a bufLen pes (distIndex + len) (bufIndex + len)
    else blockLoop a bufLen pes distIndex bufIndex

def blockPieces (a : UnsafeArrayInner) (index bufLen : ℕ) : Option (List BlockPiece) := do
  let startPe ← a.peForDistIndex index
  let endPe ← a.peForDistIndex (index + bufLen - 1)
  some (a.blockLoop bufLen (List.range' startPe (endPe + 1 - startPe)) (index + a.offset) 0)

/-- `UnsafePutAm` carries its data in a memory region, `UnsafeSmallPutAm` in a vector. -/
inductive PutAmKind where
  | unsafePutAm
  | unsafeSmallPutAm
  deriving DecidableEq, Repr

structure PutAm (T : Type) where
  kind : PutAmKind
  startIndex : ℕ
  len : ℕ
  data : List T

/-- The kind of message `block_op` and `cyclic_op` choose. -/
def putAmKind (bufLen sizeOf : ℕ) : PutAmKind :=
  if batchAmSize < bufLen * sizeOf then .unsafePutAm else .unsafeSmallPutAm

/-- The first `n` elements of the data of a put message: `blocking_get_slice(pe, 0, elems)`
panics, and `copy_nonoverlapping` reads past the end, when there are fewer. -/
def PutAm.front (am : PutAm T) (n : ℕ) : Option (List T) :=
  match am.kind with
  | .unsafePutAm => subRegion am.data 0 n
  | .unsafeSmallPutAm => subRegion am.data 0 n

/-- `exec` of both put messages, on the PE of the handle `a`: fill the local elements of
the range with the front of the data. -/
def PutAm.exec (am : PutAm T) (a : UnsafeArrayInner) (r : MemoryRegion T) :
    Option (MemoryRegion T) := do
  match ← a.localElementsForRange am.startIndex am.len with
  | some ((start, stop), _) => r.blockingPut a.myPe start (← am.front (stop - start))
  | none => some r

/-- `block_op` with `ArrayRdmaCmd::Put`. -/
def blockPut (a : UnsafeArrayInner) (r : MemoryRegion T) (index : ℕ) (buf : List T) :
    Option (MemoryRegion T) := do
  let pieces ← a.blockPieces index buf.length
  pieces.foldlM (fun r p => do
    r.blockingPut p.pe p.offset (← subRegion buf p.bufIndex p.len)) r

/-- The messages `block_op` launches with `ArrayRdmaCmd::PutAm`, with their PEs. -/
def blockPutAms (a : UnsafeArrayInner) (sizeOf index : ℕ) (buf : List T) :
    Option (List (ℕ × PutAm T)) := do
  let pieces ← a.blockPieces index buf.length
  pieces.mapM fun p => do
    let data ← subRegion buf p.bufIndex p.len
    some (p.pe, ⟨putAmKind buf.length sizeOf, index, buf.length, data⟩)

/-- What one piece of a block get does to the buffer: `blocking_get` or `get_unchecked`
into the sub-region of the piece. It is also `exec` of `UnsafeBlockGetAm`. -/
def blockGetPiece (r : MemoryRegion T) (buf : List T) (p : BlockPiece) : Option (List T) := do
  bufPut buf p.bufIndex (← r.blockingGet p.pe p.offset p.len)

/-- `block_op` with `ArrayRdmaCmd::Get`. -/
def blockGet (a : UnsafeArrayInner) (r : MemoryRegion T) (index : ℕ) (buf : List T) :
    Option (List T) := do
  let pieces ← a.blockPieces index buf.length
  pieces.foldlM (blockGetPiece r) buf

/-- `block_op` with `ArrayRdmaCmd::GetAm`: the pieces run as `UnsafeBlockGetAm`s. -/
def blockGetAm (a : UnsafeArrayInner) (sched : Schedule) (r : MemoryRegion T) (index : ℕ)
    (buf : List T) : Option (List T) := do
  let pieces ← a.blockPieces index buf.length
  (sched.run pieces).foldlM (blockGetPiece r) buf

/-! ## `cyclic_op` -/

/-- One turn of the loops of `cyclic_op`: every `num_pes`-th element of the buffer from `i`
on belongs to `pe`, from `offset` on. -/
structure CyclicTurn where
  i : ℕ
  pe : ℕ
  offset : ℕ

/-- The loop of `cyclic_op` over `0..min(buf.len(), num_pes)`, with its `overflow`. -/
def cyclicLoop (numPes globalIndex : ℕ) : List ℕ → ℕ → List CyclicTurn
  | [], _ => []
  | i :: is, overflow =>
    let pe := (globalIndex % numPes + i) % numPes
    let offset := globalIndex / numPes + overflow
    ⟨i, pe, offset⟩ ::
      cyclicLoop numPes globalIndex is (if pe + 1 = numPes then overflow + 1 else overflow)

def cyclicTurns (a : UnsafeArrayInner) (index bufLen : ℕ) : List CyclicTurn :=
  cyclicLoop a.numPes (index + a.offset) (List.range (min bufLen a.numPes)) 0

/-- `num_elems_pe` of `cyclic_op`: the size of its temporary regions. -/
def cyclicNumElemsPe (a : UnsafeArrayInner) (bufLen : ℕ) : ℕ := bufLen / a.numPes + 1

/-- The inner loop of a cyclic put: copy the listed elements of the buffer to the front of
the temporary region. Returns the region and the final `k`. -/
def gatherLoop (buf : List T) : List ℕ → ℕ → List T → Option (List T × ℕ)
  | [], k, temp => some (temp, k)
  | j :: js, k, temp => do
    let temp ← bufPut temp k (← subRegion buf j 1)
    gatherLoop buf js (k + 1) temp

/-- One turn of a cyclic put: gather its elements at the front of the temporary region, and
put these. Returns the region and the memory. -/
def cyclicPutTurn (a : UnsafeArrayInner) (buf temp : List T) (r : MemoryRegion T)
    (t : CyclicTurn) : Option (List T × MemoryRegion T) := do
  let (temp, k) ← gatherLoop buf (stepBy t.i buf.length a.numPes) 0 temp
  let r ← r.blockingPut t.pe t.offset (← subRegion temp 0 k)
  some (temp, r)

/-- `cyclic_op` with `ArrayRdmaCmd::Put`: the turns share one temporary region. -/
def cyclicPut (a : UnsafeArrayInner) (junk : ℕ → T) (r : MemoryRegion T) (index : ℕ)
    (buf : List T) : Option (MemoryRegion T) := do
  let temp := allocOneSidedMemRegion junk (a.cyclicNumElemsPe buf.length)
  let (_, r) ← (a.cyclicTurns index buf.length).foldlM
    (fun s t => a.cyclicPutTurn buf s.1 s.2 t) (temp, r)
  some r

/-- The messages `cyclic_op` launches with `ArrayRdmaCmd::PutAm`: each carries the whole of
its own temporary region, filled at the front. -/
def cyclicPutAms (a : UnsafeArrayInner) (junk : ℕ → ℕ → T) (sizeOf index : ℕ)
    (buf : List T) : Option (List (ℕ × PutAm T)) :=
  (a.cyclicTurns index buf.length).mapM fun t => do
    let temp := allocOneSidedMemRegion (junk t.i) (a.cyclicNumElemsPe buf.length)
    let (temp, _) ← gatherLoop buf (stepBy t.i buf.length a.numPes) 0 temp
    some (t.pe, ⟨putAmKind buf.length sizeOf, index, buf.length, temp⟩)

/-- The inner loop of a cyclic get: spread the front of the temporary region over the
listed elements of the buffer. -/
def scatterLoop (temp : List T) : List ℕ → ℕ → List T → Option (List T)
  | [], _, buf => some buf
  | j :: js, k, buf => do
    let buf ← bufPut buf j (← subRegion temp k 1)
    scatterLoop temp js (k + 1) buf

/-- `num_elems` of a turn of a cyclic get. -/
def cyclicNumElems (a : UnsafeArrayInner) (bufLen i : ℕ) : ℕ :=
  (a.cyclicNumElemsPe bufLen - 1) + if i < bufLen % a.numPes then 1 else 0

/-- One turn of a cyclic get: `blocking_get` into the front of a temporary region, then
spread it. It is also `exec` of `UnsafeCyclicGetAm`. Returns the region and the buffer. -/
def cyclicGetTurn (a : UnsafeArrayInner) (r : MemoryRegion T) (temp buf : List T)
    (t : CyclicTurn) : Option (List T × List T) := do
  let data ← r.blockingGet t.pe t.offset (a.cyclicNumElems buf.length t.i)
  let temp ← bufPut temp 0 data
  let buf ← scatterLoop temp (stepBy t.i buf.length a.numPes) 0 buf
  some (temp, buf)

/-- `cyclic_op` with `ArrayRdmaCmd::Get(true)`: the turns share one temporary region. -/
def cyclicBlockingGet (a : UnsafeArrayInner) (junk : ℕ → T) (r : MemoryRegion T) (index : ℕ)
    (buf : List T) : Option (List T) := do
  let temp := allocOneSidedMemRegion junk (a.cyclicNumElemsPe buf.length)
  let (_, buf) ← (a.cyclicTurns index buf.length).foldlM
    (fun s t => a.cyclicGetTurn r s.1 s.2 t) (temp, buf)
  some buf

/-- `cyclic_op` with `ArrayRdmaCmd::Get(false)`: one `get_unchecked` for each element. The
source takes `index`, not `global_index`, here. -/
def cyclicGetUnchecked (a : UnsafeArrayInner) (r : MemoryRegion T) (index : ℕ)
    (buf : List T) : Option (List T) :=
  (List.range buf.length).foldlM (fun buf i => do
    bufPut buf i (← r.blockingGet ((index + i) % a.numPes) ((index + i) / a.numPes) 1)) buf

/-- `cyclic_op` with `ArrayRdmaCmd::GetAm`: the turns run as `UnsafeCyclicGetAm`s, each with
its own temporary region of exactly `num_elems` elements. -/
def cyclicGetAm (a : UnsafeArrayInner) (sched : Schedule) (junk : ℕ → ℕ → T)
    (r : MemoryRegion T) (index : ℕ) (buf : List T) : Option (List T) :=
  (sched.run (a.cyclicTurns index buf.length)).foldlM (fun buf t => do
    let temp := allocOneSidedMemRegion (junk t.i) (a.cyclicNumElemsPe buf.length)
    let temp ← subRegion temp 0 (a.cyclicNumElems buf.length t.i)
    let (_, buf) ← a.cyclicGetTurn r temp buf t
    some buf) buf

/-! ## The small get -/

/-- `exec` of `UnsafeRemoteSmallGetAm`, on the PE of the handle `a`. -/
def remoteSmallGet (a : UnsafeArrayInner) (r : MemoryRegion T) (index len : ℕ) :
    Option (List T) := do
  match ← a.localElementsForRange index len with
  | some ((start, stop), _) => r.blockingGet a.myPe start (stop - start)
  | none => some []

/-- The cyclic result loop of `InitSmallGetAm`: element `i` of the answer to request
`startIndex` goes to `buf[startIndex + i * num_pes]`. -/
def interleaveLoop (numPes startIndex : ℕ) : List T → ℕ → List T → Option (List T)
  | [], _, buf => some buf
  | val :: vals, i, buf => do
    let buf ← bufPut buf (startIndex + i * numPes) [val]
    interleaveLoop numPes startIndex vals (i + 1) buf

/-- The block result loop of `InitSmallGetAm`: the answers fill the buffer one after the
other, from `curIndex` on. -/
def concatLoop : List (List T) → ℕ → List T → Option (List T)
  | [], _, buf => some buf
  | data :: rest, curIndex, buf => do
    let buf ← bufPut buf curIndex data
    concatLoop rest (curIndex + data.length) buf

/-- `exec` of `InitSmallGetAm`: ask every PE of the range, and place the answers in the
order of the requests. -/
def initSmallGet (a : UnsafeArrayInner) (r : MemoryRegion T) (index : ℕ) (buf : List T) :
    Option (List T) := do
  let pes := a.pesForRange index buf.length
  let answers ← pes.mapM fun pe => (a.onPe pe).remoteSmallGet r index buf.length
  match a.distribution with
  | .block => concatLoop answers 0 buf
  | .cyclic =>
    answers.zipIdx.foldlM (fun buf x => interleaveLoop answers.length x.2 x.1 0 buf) buf

/-! ## The entry points -/

/-- The three ways to read a range of a view. -/
inductive ReadPath where
  | getUnchecked
  | blockingGet
  | get
  deriving DecidableEq, Repr

/-- The two ways to write a range of a view. -/
inductive WritePath where
  | putUnchecked
  | put
  deriving DecidableEq, Repr

/-- What a call depends on besides its arguments: `size_of::<T>()`, the former content of
the temporary regions, and the order in which its messages run. -/
structure Env (T : Type) where
  sizeOf : ℕ
  junk : ℕ → ℕ → T
  sched : Schedule

/-- `get_unchecked`, `blocking_get` and `get` (`internal_get`). -/
def read (a : UnsafeArrayInner) (env : Env T) (path : ReadPath) (r : MemoryRegion T)
    (index : ℕ) (buf : List T) : Option (List T) :=
  match path, a.distribution with
  | .getUnchecked, .block => a.blockGet r index buf
  | .getUnchecked, .cyclic => a.cyclicGetUnchecked r index buf
  | .blockingGet, .block => a.blockGet r index buf
  | .blockingGet, .cyclic => a.cyclicBlockingGet (env.junk 0) r index buf
  | .get, d =>
    if batchAmSize < buf.length * env.sizeOf then
      match d with
      | .block => a.blockGetAm env.sched r index buf
      | .cyclic => a.cyclicGetAm env.sched env.junk r index buf
    else a.initSmallGet r index buf

/-- Run the messages of a put, each on its PE. -/
def runPutAms (a : UnsafeArrayInner) (sched : Schedule) (ams : List (ℕ × PutAm T))
    (r : MemoryRegion T) : Option (MemoryRegion T) :=
  (sched.run ams).foldlM (fun r x => x.2.exec (a.onPe x.1) r) r

/-- `put_unchecked` and `put` (`internal_put`), until all their messages have run. -/
def write (a : UnsafeArrayInner) (env : Env T) (path : WritePath) (r : MemoryRegion T)
    (index : ℕ) (buf : List T) : Option (MemoryRegion T) :=
  match path, a.distribution with
  | .putUnchecked, .block => a.blockPut r index buf
  | .putUnchecked, .cyclic => a.cyclicPut (env.junk 0) r index buf
  | .put, .block => do a.runPutAms env.sched (← a.blockPutAms env.sizeOf index buf) r
  | .put, .cyclic => do
    a.runPutAms env.sched (← a.cyclicPutAms env.junk env.sizeOf index buf) r

/-- The element at index `i` of the view. -/
def element (a : UnsafeArrayInner) (r : MemoryRegion T) (i : ℕ) : Option T := do
  let (pe, slot) ← a.physicalSlot i
  some (r.cell pe slot)

end UnsafeArrayInner

end Lamellar.Array
