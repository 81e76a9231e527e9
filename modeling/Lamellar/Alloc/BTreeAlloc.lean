import Lamellar.Alloc.Unbounded
import Lamellar.Lib.Roster
import Lamellar.Lib.Transition

/-!
# The heap: `BTreeAlloc` of `src/lamellar_alloc.rs`

Any number of calls of `try_malloc`, `fake_malloc` and `free` run side by side. The free entries
and the allocated addresses have a lock each: a call takes one step for every time that it holds
a lock, and `free_space` is changed under the lock of the allocated addresses.

A call that has returned stays in the state with its result, and so does one that has panicked.
-/

namespace Lamellar.Alloc

inductive MallocPc where
  | start
  /-- In `wait_for` -/
  | waiting (upperSize : ℕ)
  /-- The block at `addr` is no longer free and not yet recorded. -/
  | taken (addr : ℕ)
  | returned (addr : Option ℕ)
  | panicked

inductive FakeMallocPc where
  | start
  | returned (found : Bool)
  | panicked

inductive FreePc where
  | start
  /-- The block is no longer allocated and not yet free. -/
  | removed (size padding : ℕ)
  /-- `Ok` or `Err` -/
  | returned (ok : Bool)
  | panicked

inductive Call where
  | tryMalloc (size align : ℕ) (pc : MallocPc)
  | fakeMalloc (size align : ℕ) (pc : FakeMallocPc)
  | free (addr : ℕ) (pc : FreePc)

structure BTreeAlloc (S : Type) where
  freeEntries : FreeEntries S
  /-- Size and padding of each allocated address -/
  allocatedAddrs : SortedMap (ℕ × ℕ)
  startAddr : ℕ
  maxSize : ℕ
  freeSpace : ℕ
  calls : List Call

inductive Action where
  | init (startAddr size : ℕ)
  | tryMalloc (size align : ℕ)
  | fakeMalloc (size align : ℕ)
  | free (addr : ℕ)
  /-- The next step of a call -/
  | run (k : ℕ)

namespace BTreeAlloc

variable {S : Type} [IndexSet S] (build : Build)

def new : BTreeAlloc S := ⟨.new, .empty, 0, 0, 0, []⟩

def init (s : BTreeAlloc S) (startAddr size : ℕ) : BTreeAlloc S :=
  { s with
    freeEntries :=
      { sizes := s.freeEntries.sizes.insert size (IndexSet.insert IndexSet.new startAddr)
        addrs := s.freeEntries.addrs.insert startAddr (size, 0) }
    startAddr := startAddr
    maxSize := size
    freeSpace := size }

def setCall (s : BTreeAlloc S) (k : ℕ) (c : Call) : BTreeAlloc S :=
  { s with calls := s.calls.set k c }

/-- What `try_malloc` does under the lock of the free entries, `fe`: it goes on at `notFound` if
no block is large enough. -/
def takeFrom (s : BTreeAlloc S) (k upperSize size align : ℕ) (fe : FreeEntries S)
    (notFound : MallocPc) : BTreeAlloc S :=
  match fe.search build upperSize size align with
  | .notFound => { s.setCall k (.tryMalloc size align notFound) with freeEntries := fe }
  | .found (some addr) fe' =>
    { s.setCall k (.tryMalloc size align (.taken addr)) with freeEntries := fe' }
  | .found none fe' =>
    { s.setCall k (.tryMalloc size align (.returned none)) with freeEntries := fe' }
  | .panicked fe' => { s.setCall k (.tryMalloc size align .panicked) with freeEntries := fe' }

def runTryMalloc (s : BTreeAlloc S) (k size align : ℕ) : MallocPc → Option (BTreeAlloc S)
  | .start =>
    match upperSize build size align with
    | some upper => some (s.takeFrom build k upper size align s.freeEntries (.waiting upper))
    | none => some (s.setCall k (.tryMalloc size align .panicked))
  | .waiting upper =>
    match s.freeEntries.merge build with
    | .ok fe => some (s.takeFrom build k upper size align fe (.returned none))
    | .error fe => some { s.setCall k (.tryMalloc size align .panicked) with freeEntries := fe }
  | .taken addr =>
    let padding := calcPadding addr align
    match build.result (size + padding), build.result (addr + padding) with
    | some fullSize, some paddedAddr =>
      some
        { s.setCall k (.tryMalloc size align (.returned (some paddedAddr))) with
          allocatedAddrs := s.allocatedAddrs.insert paddedAddr (size, padding)
          freeSpace := wrappingSub s.freeSpace fullSize }
    | _, _ => some (s.setCall k (.tryMalloc size align .panicked))
  | .returned _ | .panicked => none

def runFakeMalloc (s : BTreeAlloc S) (k size align : ℕ) : FakeMallocPc → Option (BTreeAlloc S)
  | .start =>
    match upperSize build size align with
    | some upper =>
      if (s.freeEntries.sizes.firstFrom upper).isSome then
        some (s.setCall k (.fakeMalloc size align (.returned true)))
      else
        match s.freeEntries.merge build with
        | .ok fe =>
          let found := (fe.sizes.firstFrom upper).isSome
          some { s.setCall k (.fakeMalloc size align (.returned found)) with freeEntries := fe }
        | .error fe =>
          some { s.setCall k (.fakeMalloc size align .panicked) with freeEntries := fe }
    | none => some (s.setCall k (.fakeMalloc size align .panicked))
  | .returned _ | .panicked => none

def runFree (s : BTreeAlloc S) (k addr : ℕ) : FreePc → Option (BTreeAlloc S)
  | .start =>
    match s.allocatedAddrs.get? addr with
    | some (size, padding) =>
      let s := { s with allocatedAddrs := s.allocatedAddrs.erase addr }
      match build.result (size + padding) with
      | some fullSize =>
        some
          { s.setCall k (.free addr (.removed size padding)) with
            freeSpace := wrappingAdd s.freeSpace fullSize }
      | none => some (s.setCall k (.free addr .panicked))
    | none => some (s.setCall k (.free addr (.returned false)))
  | .removed size padding =>
    match s.freeEntries.giveBack build addr size padding with
    | some fe => some { s.setCall k (.free addr (.returned true)) with freeEntries := fe }
    | none => some (s.setCall k (.free addr .panicked))
  | .returned _ | .panicked => none

def step (s : BTreeAlloc S) : Action → Option (BTreeAlloc S)
  | .init startAddr size => some (s.init startAddr size)
  | .tryMalloc size align =>
    if 0 < size ∧ 0 < align then
      some { s with calls := s.calls ++ [.tryMalloc size align .start] }
    else none
  | .fakeMalloc size align =>
    if 0 < size ∧ 0 < align then
      some { s with calls := s.calls ++ [.fakeMalloc size align .start] }
    else none
  | .free addr => some { s with calls := s.calls ++ [.free addr .start] }
  | .run k =>
    match s.calls[k]? with
    | some (.tryMalloc size align pc) => s.runTryMalloc build k size align pc
    | some (.fakeMalloc size align pc) => s.runFakeMalloc build k size align pc
    | some (.free addr pc) => s.runFree build k addr pc
    | none => none

end BTreeAlloc

/-! ## Runs -/

section

variable {S : Type} [IndexSet S]

/-- A block of `n` bytes is free, or is after a merge. -/
def FreeEntries.available (build : Build) (fe : FreeEntries S) (n : ℕ) : Bool :=
  (fe.sizes.firstFrom n).isSome ||
    match fe.merge build with
    | .ok fe' => (fe'.sizes.firstFrom n).isSome
    | .error _ => false

/-- Where `size + align` has wrapped around, `upper_size` is too small: then no free block is as
large as that. -/
def Call.Fits (build : Build) (fe : FreeEntries S) : Call → Prop
  | .tryMalloc size align .start => ∀ upper ∈ upperSize build size align,
    upper = size + align - 1 ∨ fe.available build upper = false
  | .tryMalloc size align (.waiting upper) =>
    upper = size + align - 1 ∨ fe.available build upper = false
  | .tryMalloc _ _ _ | .fakeMalloc _ _ _ | .free _ _ => True

instance (build : Build) (fe : FreeEntries S) : ∀ c : Call, Decidable (c.Fits build fe)
  | .tryMalloc size align .start =>
    inferInstanceAs (Decidable (∀ upper ∈ upperSize build size align,
      upper = size + align - 1 ∨ fe.available build upper = false))
  | .tryMalloc size align (.waiting upper) =>
    inferInstanceAs (Decidable (upper = size + align - 1 ∨ fe.available build upper = false))
  | .tryMalloc _ _ (.taken _) | .tryMalloc _ _ (.returned _) | .tryMalloc _ _ .panicked
  | .fakeMalloc _ _ _ | .free _ _ => .isTrue trivial

namespace BTreeAlloc

/-- `init` has not been called. -/
def Fresh (s : BTreeAlloc S) : Prop := s.maxSize = 0 ∧ s.freeEntries.addrs.entries = []

instance (s : BTreeAlloc S) : Decidable s.Fresh :=
  inferInstanceAs (Decidable (s.maxSize = 0 ∧ s.freeEntries.addrs.entries = []))

/-- `init` is called once, with a region that ends below `word`, and no `try_malloc` takes a block
with a wrapped `upper_size`. -/
def Fits (build : Build) (s : BTreeAlloc S) : Action → Prop
  | .init startAddr size => s.Fresh ∧ startAddr + size < word
  | .run k => ∀ c ∈ s.calls[k]?, c.Fits build s.freeEntries
  | .tryMalloc _ _ | .fakeMalloc _ _ | .free _ => True

instance (build : Build) (s : BTreeAlloc S) : ∀ a, Decidable (s.Fits build a)
  | .init startAddr size => inferInstanceAs (Decidable (s.Fresh ∧ startAddr + size < word))
  | .run k => inferInstanceAs (Decidable (∀ c ∈ s.calls[k]?, c.Fits build s.freeEntries))
  | .tryMalloc _ _ | .fakeMalloc _ _ | .free _ => .isTrue trivial

end BTreeAlloc

abbrev Reachable (build : Build) : BTreeAlloc S → Prop :=
  Transition.Reach (· = BTreeAlloc.new) (BTreeAlloc.step build) (BTreeAlloc.Fits build)

end

/-! ## The blocks of a state -/

/-- The block of an allocated address, with the padding in front of it. -/
def allocatedBlock : ℕ × ℕ × ℕ → ℕ × ℕ
  | (addr, size, padding) => (addr - padding, size + padding)

/-- The block that a call has taken from one map and not put into the other. -/
def Call.held : Call → List (ℕ × ℕ)
  | .tryMalloc size align (.taken addr) => [(addr, size + calcPadding addr align)]
  | .free addr (.removed size padding) => [(addr - padding, size + padding)]
  | .tryMalloc _ _ _ | .fakeMalloc _ _ _ | .free _ _ => []

namespace BTreeAlloc

variable {S : Type}

def blocks (s : BTreeAlloc S) : List (ℕ × ℕ) :=
  s.freeEntries.blocks ++ (s.allocatedAddrs.entries.map allocatedBlock ++
    s.calls.flatMap Call.held)

/-- The bytes of the allocated blocks. -/
def allocated (s : BTreeAlloc S) : ℕ :=
  (s.allocatedAddrs.entries.map fun e => (allocatedBlock e).2).sum

end BTreeAlloc

/-- The arguments and the result of a call. -/
def Call.Ok (build : Build) (startAddr maxSize : ℕ) : Call → Prop
  | .tryMalloc size align pc => (0 < size ∧ 0 < align) ∧
      (∀ upper, pc = .waiting upper → upperSize build size align = some upper) ∧
      ∀ addr, pc = .returned (some addr) →
        align ∣ addr ∧ startAddr ≤ addr ∧ addr + size ≤ startAddr + maxSize
  | .fakeMalloc _ _ _ => True
  | .free addr pc => ∀ size padding, pc = .removed size padding → 0 < size ∧ padding ≤ addr

/-- What holds between the steps. -/
structure Inv {S : Type} [IndexSet S] (build : Build) (startAddr maxSize : ℕ) (s : BTreeAlloc S) :
    Prop where
  region : s.startAddr = startAddr ∧ s.maxSize = maxSize
  bound : startAddr + maxSize < word
  mirror : s.freeEntries.Mirror
  partition : Blocks.Partition s.blocks startAddr maxSize
  allocated : ∀ {addr size padding}, s.allocatedAddrs.get? addr = some (size, padding) →
    0 < size ∧ padding ≤ addr
  calls : ∀ c ∈ s.calls, c.Ok build startAddr maxSize
  freeSpace : s.freeSpace + s.allocated = maxSize

end Lamellar.Alloc
