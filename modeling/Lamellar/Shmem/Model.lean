import Lamellar.Lib.Memory
import Lamellar.Lib.Word

/-!
# Shared memory segments: `src/lamellae/shmem/shmem_comm.rs`

A segment has a part of `size` bytes for each of its PEs, one behind the other, and every PE maps
all of it at an address of its own. In `alloc_lock` a PE has, under the address of its own part,
the mapping, the size of a part, and for each PE the address of the mapping there and the position
of its part.

An address is a natural number below `word`. Where a subtraction wraps around, the sum with the
difference wraps back.
-/

namespace Lamellar.Shmem

/-- `std::mem::size_of::<usize>()` -/
def usizeBytes : ℕ := 8

/-- A `MyShmem`; the word in front of `data` tells the PEs that attach to it that it is ready. -/
structure MyShmem where
  data : ℕ
  len : ℕ
deriving DecidableEq

namespace MyShmem

def baseAddr (m : MyShmem) : ℕ := m.data

def contains (m : MyShmem) (addr : ℕ) : Bool := m.baseAddr ≤ addr ∧ addr < m.baseAddr + m.len

end MyShmem

/-- `attach_to_shmem` where the system has put the mapping at `ptr`. -/
def attachToShmem (ptr size : ℕ) : MyShmem :=
  let size := size + usizeBytes
  ⟨ptr + usizeBytes, size⟩

/-- A segment with a part of `size` bytes for each PE of `pes`, mapped by PE `pe` at `ptr pe`.
`outside me pe` is what PE `me` finds in `barrier2` for a PE that is not one of them. -/
structure Segment (numPes : ℕ) where
  pes : List ℕ
  size : ℕ
  ptr : ℕ → ℕ
  outside : ℕ → ℕ → ℕ
  nodup : pes.Nodup
  lt : ∀ pe ∈ pes, pe < numPes
  /-- Nothing is allocated for zero bytes. -/
  pos : 0 < size
  fits : ∀ pe ∈ pes, ptr pe + usizeBytes + size * pes.length < word

variable {numPes : ℕ}

namespace Segment

/-- The mapping of PE `pe` -/
def shmem (s : Segment numPes) (pe : ℕ) : MyShmem :=
  attachToShmem (s.ptr pe) (s.size * s.pes.length)

/-- What `ShmemAlloc::alloc` gives PE `me`: its mapping, the position of its part, and its copy of
`barrier2`, where every PE of the segment has left the address of its mapping. -/
def alloc (s : Segment numPes) (me : ℕ) : MyShmem × ℕ × List ℕ :=
  (s.shmem me, s.pes.countP (· < me),
    (List.range numPes).map fun pe => if pe ∈ s.pes then (s.shmem pe).data else s.outside me pe)

end Segment

/-- An entry of `alloc_lock`: under `addr`, the mapping, the size of a part, and for a PE the
address of its mapping and the position of its part. -/
structure Allocation where
  addr : ℕ
  shmem : MyShmem
  size : ℕ
  addrs : List (ℕ × ℕ × ℕ)

/-- The loop of `ShmemComm::alloc` over the PEs from `pe` on. -/
def addrMap (pe relativeIndex : ℕ) : List ℕ → List (ℕ × ℕ × ℕ)
  | [] => []
  | remoteAddr :: remoteAddrs =>
    if 0 < remoteAddr then
      (pe, remoteAddr, relativeIndex) :: addrMap (pe + 1) (relativeIndex + 1) remoteAddrs
    else addrMap (pe + 1) relativeIndex remoteAddrs

/-- What `ShmemComm::alloc` inserts. -/
def Segment.allocation (s : Segment numPes) (me : ℕ) : Allocation :=
  let (ret, index, remoteAddrs) := s.alloc me
  ⟨ret.data + s.size * index, ret, s.size, addrMap 0 0 remoteAddrs⟩

/-- What `ShmemComm::new` inserts for the segment of all PEs. -/
def Segment.first (s : Segment numPes) (me : ℕ) : Allocation :=
  let (shmem, _, addrs) := s.alloc me
  ⟨shmem.data + s.size * me, shmem, s.size,
    (addrs.zipIdx.filter fun (addr, _) => 0 < addr).map fun (addr, pe) => (pe, addr, pe)⟩

/-- The entries of `alloc_lock` in the order of an iteration over them. -/
abbrev Allocs := List Allocation

namespace Allocs

def insert (allocs : Allocs) (a : Allocation) : Allocs :=
  a :: allocs.filter fun b => b.addr ≠ a.addr

/-- `ShmemComm::alloc` on PE `me`; the error is that it is not one of the PEs. -/
def alloc (allocs : Allocs) (s : Segment numPes) (me : ℕ) : Option (ℕ × Allocs) :=
  if me ∈ s.pes then some ((s.allocation me).addr, allocs.insert (s.allocation me)) else none

def free (allocs : Allocs) (addr : ℕ) : Allocs := allocs.filter fun b => b.addr ≠ addr

/-- The first entry with an address of the other PE's mapping that is in the range. -/
def localAddr (build : Build) (allocs : Allocs) (remotePe remoteAddr : ℕ) : Option ℕ :=
  match allocs with
  | [] => none
  | a :: allocs =>
    match a.addrs.lookup remotePe with
    | some (base, index) =>
      if base ≤ remoteAddr ∧ remoteAddr < base + a.shmem.len then
        (build.sub remoteAddr (base + a.size * index)).map (wrappingAdd a.addr)
      else localAddr build allocs remotePe remoteAddr
    | none => localAddr build allocs remotePe remoteAddr

def remoteAddr (build : Build) (allocs : Allocs) (pe addr : ℕ) : Option ℕ := do
  let a ← allocs.find? (·.shmem.contains addr)
  let offset ← build.sub addr a.addr
  let (base, index) ← a.addrs.lookup pe
  some (wrappingAdd (base + a.size * index) offset)

/-- The address of the caller's mapping that `put` and `get` copy to and from. -/
def realAddr (build : Build) (a : Allocation) (pe addr : ℕ) : Option ℕ := do
  let (_, index) ← a.addrs.lookup pe
  let offset ← build.sub addr a.addr
  some (wrappingAdd (a.shmem.baseAddr + a.size * index) offset)

variable {β : Type}

/-- The memory of the caller after a `put`, none where it panics. -/
def put (build : Build) (allocs : Allocs) (mem : ℕ → β) (pe : ℕ) (src : List β) (dstAddr : ℕ) :
    Option (ℕ → β) :=
  match allocs.find? (·.shmem.contains dstAddr) with
  | some a => (realAddr build a pe dstAddr).map fun realDst => Memory.write mem realDst src
  | none => some mem

def putAll (build : Build) (allocs : Allocs) (numPes : ℕ) (mem : ℕ → β) (src : List β)
    (dstAddr : ℕ) : Option (ℕ → β) :=
  (List.range numPes).foldlM (fun mem pe => put build allocs mem pe src dstAddr) mem

/-- The bytes that a `get` leaves in `dst`. -/
def get (build : Build) (allocs : Allocs) (mem : ℕ → β) (pe srcAddr : ℕ) (dst : List β) :
    Option (List β) :=
  match allocs.find? (·.shmem.contains srcAddr) with
  | some a => (realAddr build a pe srcAddr).map fun realSrc => Memory.read mem realSrc dst.length
  | none => some dst

end Allocs

end Lamellar.Shmem
