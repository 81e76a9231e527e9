import Lamellar.Lib.Word

/-!
# Memory regions: `src/memregion.rs`, `src/memregion/shared.rs`, `src/memregion/one_sided.rs`

A region is a `MemoryRegion<u8>`, and a handle of elements of `size` bytes is a view of it, with
an offset and a length in elements. What an access gives is the address of an element, what a
transfer does is told by the addresses that it hands to the network (`Transfer`).

Sums and products are those of the build: they panic or wrap around.
-/

namespace Lamellar.Memregion

inductive Failure where
  | panicked
  /-- `MemNotLocalError` -/
  | notLocal
deriving DecidableEq

variable {α : Type}

def orPanic : Option α → Except Failure α
  | some a => .ok a
  | none => .error .panicked

/-- A slice of elements at an address. -/
structure Slice where
  addr : ℕ
  len : ℕ
deriving DecidableEq

namespace Slice

/-- The address of `slice[index]` -/
def get (size : ℕ) (slice : Slice) (index : ℕ) : Except Failure ℕ :=
  if index < slice.len then .ok (slice.addr + index * size) else .error .panicked

/-- `slice[start..stop]` -/
def range (size : ℕ) (slice : Slice) (start stop : ℕ) : Except Failure Slice :=
  if start ≤ stop ∧ stop ≤ slice.len then .ok ⟨slice.addr + start * size, stop - start⟩
  else .error .panicked

end Slice

/-- What is put or got: the result of `as_ptr` or `as_mut_ptr` of a region, or the address of a
slice, and the number of elements. -/
structure Data where
  ptr : Except Failure ℕ
  len : ℕ

/-- The bytes from `addr` on, of PE `pe` or of all PEs, are copied to or from `ptr`. -/
structure Transfer where
  pe : Option ℕ
  ptr : ℕ
  addr : ℕ
  numBytes : ℕ
deriving DecidableEq

/-! ## `MemoryRegion<u8>` -/

structure MemoryRegion where
  addr : ℕ
  numBytes : ℕ
deriving DecidableEq

namespace MemoryRegion

variable (build : Build) (size : ℕ)

def castedAt (mr : MemoryRegion) (index : ℕ) : Except Failure ℕ :=
  if mr.addr ≠ 0 then
    if mr.numBytes % size = 0 then Slice.get size ⟨mr.addr, mr.numBytes / size⟩ index
    else .error .panicked
  else .error .notLocal

def asCastedSlice (mr : MemoryRegion) : Except Failure Slice :=
  if mr.addr ≠ 0 then
    if mr.numBytes % size = 0 then .ok ⟨mr.addr, mr.numBytes / size⟩ else .error .panicked
  else .ok ⟨0, 0⟩

/-- The check that the transfers share. -/
def transfer (mr : MemoryRegion) (pe : Option ℕ) (index : ℕ) (data : Data) :
    Except Failure Transfer := do
  let len ← orPanic (build.result (index + data.len))
  let stop ← orPanic (build.result (len * size))
  if stop ≤ mr.numBytes then
    let numBytes ← orPanic (build.result (data.len * size))
    match data.ptr with
    | .ok ptr =>
      let start ← orPanic (build.result (index * size))
      let addr ← orPanic (build.result (mr.addr + start))
      .ok ⟨pe, ptr, addr, numBytes⟩
    | .error _ => .error .panicked
  else .error .panicked

def put (mr : MemoryRegion) (pe index : ℕ) (data : Data) : Except Failure Transfer :=
  mr.transfer build size (some pe) index data

def blockingPut (mr : MemoryRegion) (pe index : ℕ) (data : Data) : Except Failure Transfer :=
  mr.transfer build size (some pe) index data

def putAll (mr : MemoryRegion) (index : ℕ) (data : Data) : Except Failure Transfer :=
  mr.transfer build size none index data

def getUnchecked (mr : MemoryRegion) (pe index : ℕ) (data : Data) : Except Failure Transfer :=
  mr.transfer build size (some pe) index data

def blockingGet (mr : MemoryRegion) (pe index : ℕ) (data : Data) : Except Failure Transfer :=
  mr.transfer build size (some pe) index data

/-- A slice is on the calling PE. -/
def putSlice (mr : MemoryRegion) (pe index : ℕ) (data : Slice) : Except Failure Transfer :=
  mr.transfer build size (some pe) index ⟨.ok data.addr, data.len⟩

def blockingGetSlice (mr : MemoryRegion) (pe index : ℕ) (data : Slice) :
    Except Failure Transfer :=
  mr.transfer build size (some pe) index ⟨.ok data.addr, data.len⟩

end MemoryRegion

/-! ## Views -/

/-- `std::ops::Bound<usize>` -/
inductive Bound where
  | included (idx : ℕ)
  | excluded (idx : ℕ)
  | unbounded
deriving DecidableEq

/-- What the handles of both kinds have. -/
structure View where
  mr : MemoryRegion
  subRegionOffset : ℕ
  subRegionSize : ℕ
deriving DecidableEq

namespace View

variable (build : Build) (size : ℕ)

/-- The handle that allocates `len` elements, where the memory is at `addr`. -/
def tryNew (addr len : ℕ) : Option View :=
  if 0 < len * size then some ⟨⟨addr, len * size⟩, 0, len⟩ else none

def start : Bound → Option ℕ
  | .included idx => some idx
  | .excluded idx => build.result (idx + 1)
  | .unbounded => some 0

def stop (v : View) : Bound → Option ℕ
  | .included idx => build.result (idx + 1)
  | .excluded idx => some idx
  | .unbounded => some v.subRegionSize

/-- `sub_region` of both kinds of handles -/
def subRegion (v : View) (range : Bound × Bound) : Option View := do
  let start ← start build range.1
  let stop ← v.stop build range.2
  if stop ≤ v.subRegionSize then
    let offset ← build.result (v.subRegionOffset + start)
    let len ← build.sub stop start
    some ⟨v.mr, offset, len⟩
  else none

/-- The address of the first element -/
def addr (v : View) : Except Failure ℕ := do
  let start ← orPanic (build.result (v.subRegionOffset * size))
  orPanic (build.result (v.mr.addr + start))

def asSlice (v : View) : Except Failure Slice := do
  let slice ← v.mr.asCastedSlice size
  let stop ← orPanic (build.result (v.subRegionOffset + v.subRegionSize))
  slice.range size v.subRegionOffset stop

/-- The index of a transfer in the region -/
def index (v : View) (index : ℕ) : Except Failure ℕ :=
  orPanic (build.result (v.subRegionOffset + index))

end View

/-! ## `SharedMemoryRegion` -/

abbrev SharedMemoryRegion := View

namespace SharedMemoryRegion

variable (build : Build) (size : ℕ)

def tryNew (addr len : ℕ) : Option SharedMemoryRegion := View.tryNew size addr len

def len (v : SharedMemoryRegion) : ℕ := v.subRegionSize

def at' (v : SharedMemoryRegion) (index : ℕ) : Except Failure ℕ := v.mr.castedAt size index

def asSlice (v : SharedMemoryRegion) : Except Failure Slice := View.asSlice build size v

def asPtr (v : SharedMemoryRegion) : Except Failure ℕ := v.addr build size

def subRegion (v : SharedMemoryRegion) (range : Bound × Bound) : Option SharedMemoryRegion :=
  View.subRegion build v range

def put (v : SharedMemoryRegion) (pe index : ℕ) (data : Data) : Except Failure Transfer := do
  v.mr.put build size pe (← v.index build index) data

def blockingPut (v : SharedMemoryRegion) (pe index : ℕ) (data : Data) :
    Except Failure Transfer := do
  v.mr.blockingPut build size pe (← v.index build index) data

def putAll (v : SharedMemoryRegion) (index : ℕ) (data : Data) : Except Failure Transfer := do
  v.mr.putAll build size (← v.index build index) data

def getUnchecked (v : SharedMemoryRegion) (pe index : ℕ) (data : Data) :
    Except Failure Transfer := do
  v.mr.getUnchecked build size pe (← v.index build index) data

def blockingGet (v : SharedMemoryRegion) (pe index : ℕ) (data : Data) :
    Except Failure Transfer := do
  v.mr.blockingGet build size pe (← v.index build index) data

def putSlice (v : SharedMemoryRegion) (pe index : ℕ) (data : Slice) :
    Except Failure Transfer := do
  v.mr.putSlice build size pe (← v.index build index) data

def blockingGetSlice (v : SharedMemoryRegion) (pe index : ℕ) (data : Slice) :
    Except Failure Transfer := do
  v.mr.blockingGetSlice build size pe (← v.index build index) data

end SharedMemoryRegion

/-! ## `OneSidedMemoryRegion` -/

/-- `pe` is the PE that has the data, `myPe` the one of the handle (`mr.inner.my_id.1`). -/
structure OneSidedMemoryRegion where
  view : View
  pe : ℕ
  myPe : ℕ
deriving DecidableEq

namespace OneSidedMemoryRegion

variable (build : Build) (size : ℕ)

def tryNew (addr len pe : ℕ) : Option OneSidedMemoryRegion :=
  (View.tryNew size addr len).map fun v => ⟨v, pe, pe⟩

def len (v : OneSidedMemoryRegion) : ℕ := v.view.subRegionSize

/-- Does not look whether the data is on this PE. -/
def at' (v : OneSidedMemoryRegion) (index : ℕ) : Except Failure ℕ := v.view.mr.castedAt size index

def asSlice (v : OneSidedMemoryRegion) : Except Failure Slice :=
  if v.pe = v.myPe then v.view.asSlice build size else .error .notLocal

def asPtr (v : OneSidedMemoryRegion) : Except Failure ℕ :=
  if v.pe = v.myPe then v.view.addr build size else .error .notLocal

def addr (v : OneSidedMemoryRegion) : Except Failure ℕ :=
  if v.pe = v.myPe then v.view.addr build size else .error .notLocal

/-- `mr.addr()` is never an error. -/
def dataLocal (v : OneSidedMemoryRegion) : Bool := v.pe = v.myPe

def subRegion (v : OneSidedMemoryRegion) (range : Bound × Bound) : Option OneSidedMemoryRegion :=
  (v.view.subRegion build range).map fun u => { v with view := u }

/-- A transfer with another PE than the one that has the data panics. -/
def onPe (v : OneSidedMemoryRegion) (pe : ℕ) (transfer : Except Failure Transfer) :
    Except Failure Transfer :=
  if v.pe = pe then transfer else .error .panicked

def put (v : OneSidedMemoryRegion) (pe index : ℕ) (data : Data) : Except Failure Transfer :=
  v.onPe pe (SharedMemoryRegion.put build size v.view pe index data)

def blockingPut (v : OneSidedMemoryRegion) (pe index : ℕ) (data : Data) :
    Except Failure Transfer :=
  v.onPe pe (SharedMemoryRegion.blockingPut build size v.view pe index data)

def putAll (v : OneSidedMemoryRegion) (index : ℕ) (data : Data) : Except Failure Transfer :=
  SharedMemoryRegion.putAll build size v.view index data

def getUnchecked (v : OneSidedMemoryRegion) (pe index : ℕ) (data : Data) :
    Except Failure Transfer :=
  v.onPe pe (SharedMemoryRegion.getUnchecked build size v.view pe index data)

def blockingGet (v : OneSidedMemoryRegion) (pe index : ℕ) (data : Data) :
    Except Failure Transfer :=
  v.onPe pe (SharedMemoryRegion.blockingGet build size v.view pe index data)

def putSlice (v : OneSidedMemoryRegion) (pe index : ℕ) (data : Slice) : Except Failure Transfer :=
  v.onPe pe (SharedMemoryRegion.putSlice build size v.view pe index data)

def blockingGetSlice (v : OneSidedMemoryRegion) (pe index : ℕ) (data : Slice) :
    Except Failure Transfer :=
  v.onPe pe (SharedMemoryRegion.blockingGetSlice build size v.view pe index data)

end OneSidedMemoryRegion

/-! ## `LamellarMemoryRegion` -/

/-- The transfers of `MemoryRegionRDMA` and `RTMemoryRegionRDMA` -/
inductive Rdma where
  | put
  | blockingPut
  | putAll
  | getUnchecked
  | blockingGet
  | putSlice
  | blockingGetSlice
deriving DecidableEq

inductive LamellarMemoryRegion where
  | shared (region : SharedMemoryRegion)
  | oneSided (region : OneSidedMemoryRegion)
deriving DecidableEq

namespace LamellarMemoryRegion

variable (build : Build) (size : ℕ)

def view : LamellarMemoryRegion → View
  | .shared v => v
  | .oneSided v => v.view

def len (r : LamellarMemoryRegion) : ℕ := r.view.subRegionSize

def at' : LamellarMemoryRegion → ℕ → Except Failure ℕ
  | .shared v => v.at' size
  | .oneSided v => v.at' size

def asSlice : LamellarMemoryRegion → Except Failure Slice
  | .shared v => SharedMemoryRegion.asSlice build size v
  | .oneSided v => v.asSlice build size

def asPtr : LamellarMemoryRegion → Except Failure ℕ
  | .shared v => v.asPtr build size
  | .oneSided v => v.asPtr build size

def subRegion (range : Bound × Bound) : LamellarMemoryRegion → Option LamellarMemoryRegion
  | .shared v => (SharedMemoryRegion.subRegion build v range).map .shared
  | .oneSided v => (v.subRegion build range).map .oneSided

/-- A transfer of data that is on the calling PE. -/
def rdma (op : Rdma) (pe index : ℕ) (data : Slice) :
    LamellarMemoryRegion → Except Failure Transfer
  | .shared v =>
    match op with
    | .put => v.put build size pe index ⟨.ok data.addr, data.len⟩
    | .blockingPut => v.blockingPut build size pe index ⟨.ok data.addr, data.len⟩
    | .putAll => v.putAll build size index ⟨.ok data.addr, data.len⟩
    | .getUnchecked => v.getUnchecked build size pe index ⟨.ok data.addr, data.len⟩
    | .blockingGet => v.blockingGet build size pe index ⟨.ok data.addr, data.len⟩
    | .putSlice => v.putSlice build size pe index data
    | .blockingGetSlice => v.blockingGetSlice build size pe index data
  | .oneSided v =>
    match op with
    | .put => v.put build size pe index ⟨.ok data.addr, data.len⟩
    | .blockingPut => v.blockingPut build size pe index ⟨.ok data.addr, data.len⟩
    | .putAll => v.putAll build size index ⟨.ok data.addr, data.len⟩
    | .getUnchecked => v.getUnchecked build size pe index ⟨.ok data.addr, data.len⟩
    | .blockingGet => v.blockingGet build size pe index ⟨.ok data.addr, data.len⟩
    | .putSlice => v.putSlice build size pe index data
    | .blockingGetSlice => v.blockingGetSlice build size pe index data

end LamellarMemoryRegion

end Lamellar.Memregion
