import Lamellar.Lib.Transition
import Lamellar.Shmem.Model
import Mathlib.Data.List.GetD

/-!
# The allocation of a segment: `ShmemAlloc::alloc` of `src/lamellae/shmem/shmem_comm.rs`

The PEs share a mutex, an id and two arrays of words, and find the segment by the id. Each access to
what they share is a step of its own; the id is read together with the word that it is for, as
nobody reads it when it changes. A loop that waits does not go on before it reads what it waits for.

The files are those of the crate `shared_memory`, which is a parameter with what its documentation
says (`SharedMemory.Lawful`). A PE whose `create` and `open` fail for good, or too often, panics.

The members of a group call `alloc` after a barrier of the group: none of them is in another call
then. Groups that have no PE in common, and PEs that are late to leave an earlier call, go on at the
same time.
-/

namespace Lamellar.Shmem

/-- A call for a segment with a part of `size` bytes for each PE of `pes` -/
structure AllocGroup (numPes : ℕ) where
  pes : List ℕ
  size : ℕ
  nodup : pes.Nodup
  lt : ∀ pe ∈ pes, pe < numPes
  nonempty : pes ≠ []
  /-- Nothing is allocated for zero bytes. -/
  pos : 0 < size
  fits : usizeBytes + size * pes.length < word
deriving DecidableEq

/-- What the system has under the name made of `size` and `id`: a file of `size` bytes, with its
first two words and where each PE has mapped it. `round` is the call that it was made for. -/
structure ShmemFile where
  size : ℕ
  id : ℕ
  header : ℕ
  cnt : ℤ
  mapped : List (ℕ × ℕ)
  round : ℕ

def ShmemFile.named (f : ShmemFile) (size id : ℕ) : Bool := f.size = size ∧ f.id = id

/-- The errors that `attach_to_shmem` tells apart -/
inductive ShmemError where
  | linkExists
  | mappingIdExists
  | mapOpenFailed
  | other
deriving DecidableEq

/-- What `create` and `open` come to -/
inductive ShmemReply where
  /-- There is a new file. -/
  | made
  | mapped (ptr : ℕ)
  | failed (e : ShmemError)
deriving DecidableEq

/-- The crate `shared_memory`: whether there may be a reply, for a name made of a size and an id,
when these files have been made. `create` makes a file and then maps it. -/
structure SharedMemory where
  create : List ShmemFile → ℕ → ℕ → ShmemReply → Bool
  map : List ShmemFile → ℕ → ℕ → ShmemReply → Bool
  openFile : List ShmemFile → ℕ → ℕ → ShmemReply → Bool
  /-- The first two words of a new file -/
  words : ℕ × ℤ

/-- What the documentation of the crate says: `create` makes no file if there is one of the name,
`open` maps none if there is none, a new file is zeroed, and every call is answered. That a name is
free again when its creator could not map the file is left out: this PE panics. -/
structure SharedMemory.Lawful (sys : SharedMemory) : Prop where
  create_new : ∀ files size id, sys.create files size id .made →
    ∀ f ∈ files, ¬ f.named size id
  open_named : ∀ files size id ptr, sys.openFile files size id (.mapped ptr) →
    ∃ f ∈ files, f.named size id
  map_fits : ∀ files size id ptr, sys.map files size id (.mapped ptr) → ptr + size < word
  open_fits : ∀ files size id ptr, sys.openFile files size id (.mapped ptr) → ptr + size < word
  words_eq : sys.words = (0, 0)
  create_answers : ∀ files size id, sys.create files size id .made ∨
    ∃ e, sys.create files size id (.failed e)
  map_answers : ∀ files size id, (∃ ptr, sys.map files size id (.mapped ptr)) ∨
    ∃ e, sys.map files size id (.failed e)
  open_answers : ∀ files size id, (∃ ptr, sys.openFile files size id (.mapped ptr)) ∨
    ∃ e, sys.openFile files size id (.failed e)

/-- The next access of a PE in `alloc` -/
inductive AllocPc where
  /-- `while barrier2[pe] != 0` -/
  | clear
  /-- `mutex.compare_exchange(0, 1)` -/
  | lock
  /-- `id += 1` -/
  | bump
  /-- `while barrier1[first_pe] == 0` -/
  | await
  /-- `barrier1[my_pe] = id` -/
  | mark
  /-- `while barrier1[pe] != id` -/
  | gather
  /-- `create` in `attach_to_shmem` -/
  | create
  /-- The rest of `create` -/
  | mapFile
  /-- `open`, where `create` has failed -/
  | openFile
  /-- `panic!("unable to create shared memory")` -/
  | panicked
  /-- The first word is set to the id. -/
  | head
  /-- The wait for the first word -/
  | ready
  /-- `barrier2[my_pe] = shmem.as_ptr()` -/
  | publish
  /-- `cnt.fetch_add(pes_len)` -/
  | add
  /-- `cnt.fetch_sub(1)` -/
  | sub
  /-- `while cnt.load() != 0` -/
  | spin
  /-- `barrier2.to_vec()` -/
  | copy
  /-- `barrier1[my_pe] = 0` -/
  | unmark
  /-- `while barrier1[pe] != 0` -/
  | drain
  /-- `barrier2[my_pe] = 0` -/
  | unpublish
  /-- `mutex.store(0)` -/
  | unlock
deriving DecidableEq

/-- What `attach_to_shmem` does when `create` has failed -/
def ShmemError.afterCreate : ShmemError → AllocPc
  | .linkExists | .mappingIdExists | .mapOpenFailed => .openFile
  | .other => .panicked

theorem ShmemError.afterCreate_eq (e : ShmemError) :
    e.afterCreate = .openFile ∨ e.afterCreate = .panicked := by
  cases e with
  | other => exact .inr rfl
  | _ => exact .inl rfl

/-- A PE in `alloc`: its next access, the counter of the loop that it is in, and its variables -/
structure AllocCall where
  round : ℕ
  pc : AllocPc
  k : ℕ
  retry : ℕ
  file : ℕ
  header : ℕ
  addr : ℕ
  addrs : List ℕ
  relativePe : ℕ

/-- What a PE got: its mapping of the file is at `addr`. -/
structure AllocRet where
  round : ℕ
  pe : ℕ
  file : ℕ
  addr : ℕ
  addrs : List ℕ
  relativePe : ℕ

/-- `rounds` and `returned` are the calls that have been made and their results. -/
structure AllocState (numPes : ℕ) where
  mutex : ℕ
  id : ℕ
  barrier1 : ℕ → ℕ
  barrier2 : ℕ → ℕ
  files : List ShmemFile
  calls : ℕ → Option AllocCall
  rounds : List (AllocGroup numPes)
  returned : List AllocRet

inductive AllocAction (numPes : ℕ) where
  /-- The members have come to the barrier, and call `alloc`. -/
  | enter (g : AllocGroup numPes)
  /-- The next access of a PE, with the reply if it is one to the system -/
  | access (pe : ℕ) (reply : ShmemReply)
  /-- The word that was the counter is used by those who have the segment. -/
  | write (file : ℕ) (cnt : ℤ)

variable {numPes : ℕ}

namespace AllocGroup

variable (g : AllocGroup numPes)

def firstPe : ℕ := g.pes.head g.nonempty

def totalSize : ℕ := g.size * g.pes.length

/-- What `attach_to_shmem` asks for, with the word in front -/
def fileSize : ℕ := g.totalSize + usizeBytes

end AllocGroup

def AllocCall.start (round : ℕ) : AllocCall := ⟨round, .clear, 0, 0, 0, 0, 0, [], 0⟩

def AllocCall.ret (c : AllocCall) (pe : ℕ) : AllocRet :=
  ⟨c.round, pe, c.file, c.addr, c.addrs, c.relativePe⟩

namespace ShmemFile

def map (pe addr : ℕ) (f : ShmemFile) : ShmemFile := { f with mapped := f.mapped ++ [(pe, addr)] }

def setHeader (header : ℕ) (f : ShmemFile) : ShmemFile := { f with header := header }

def addCnt (n : ℤ) (f : ShmemFile) : ShmemFile := { f with cnt := f.cnt + n }

end ShmemFile

namespace AllocState

/-- No call has been made. -/
def init : AllocState numPes := ⟨0, 0, fun _ => 0, fun _ => 0, [], fun _ => none, [], []⟩

def setCall (s : AllocState numPes) (pe : ℕ) (c : AllocCall) : AllocState numPes :=
  { s with calls := Function.update s.calls pe (some c) }

/-- `alloc` returns. -/
def leave (s : AllocState numPes) (pe : ℕ) (c : AllocCall) : AllocState numPes :=
  { s with calls := Function.update s.calls pe none, returned := s.returned ++ [c.ret pe] }

def modifyFile (s : AllocState numPes) (i : ℕ) (f : ShmemFile → ShmemFile) : AllocState numPes :=
  { s with files := s.files.modify i f }

/-- PE `pe` has mapped its file at `ptr`. -/
def attach (s : AllocState numPes) (pe : ℕ) (g : AllocGroup numPes) (c : AllocCall) (ptr : ℕ) :
    AllocState numPes :=
  let addr := (attachToShmem ptr g.totalSize).data
  (s.modifyFile c.file (.map pe addr)).setCall pe
    { c with pc := if pe = g.firstPe then .head else .ready, addr := addr }

/-- The next access of PE `pe` in a call for `g` -/
def access (sys : SharedMemory) (s : AllocState numPes) (pe : ℕ) (g : AllocGroup numPes)
    (c : AllocCall) (reply : ShmemReply) : Option (AllocState numPes) :=
  match c.pc with
  | .clear =>
    match g.pes[c.k]? with
    | some q => if s.barrier2 q = 0 then some (s.setCall pe { c with k := c.k + 1 }) else none
    | none => some (s.setCall pe { c with pc := if pe = g.firstPe then .lock else .await })
  | .lock =>
    if s.mutex = 0 then some ({ s with mutex := 1 }.setCall pe { c with pc := .bump }) else none
  | .bump => some ({ s with id := s.id + 1 }.setCall pe { c with pc := .mark })
  | .await =>
    if s.barrier1 g.firstPe = 0 then none else some (s.setCall pe { c with pc := .mark })
  | .mark =>
    some ({ s with barrier1 := Function.update s.barrier1 pe s.id }.setCall pe
      { c with pc := .gather, k := 1 })
  | .gather =>
    match g.pes[c.k]? with
    | some q => if s.barrier1 q = s.id then some (s.setCall pe { c with k := c.k + 1 }) else none
    | none => some (s.setCall pe { c with pc := .create, retry := 0 })
  | .create =>
    if sys.create s.files g.fileSize s.id reply then
      match reply with
      | .made =>
        let f : ShmemFile := ⟨g.fileSize, s.id, sys.words.1, sys.words.2, [], c.round⟩
        some ({ s with files := s.files ++ [f] }.setCall pe
          { c with pc := .mapFile, file := s.files.length, header := s.id })
      | .mapped _ => none
      | .failed e => some (s.setCall pe { c with pc := e.afterCreate })
    else none
  | .mapFile =>
    if sys.map s.files g.fileSize s.id reply then
      match reply with
      | .made => none
      | .mapped ptr => some (s.attach pe g c ptr)
      | .failed e => some (s.setCall pe { c with pc := e.afterCreate })
    else none
  | .openFile =>
    if sys.openFile s.files g.fileSize s.id reply then
      match reply with
      | .made => none
      | .mapped ptr => do
        let i ← s.files.findIdx? (·.named g.fileSize s.id)
        some (s.attach pe g { c with file := i, header := s.id } ptr)
      | .failed e =>
        if e = .mapOpenFailed ∧ c.retry < 5 then
          some (s.setCall pe { c with pc := .create, retry := c.retry + 1 })
        else some (s.setCall pe { c with pc := .panicked })
    else none
  | .panicked => none
  | .head =>
    some ((s.modifyFile c.file (.setHeader c.header)).setCall pe { c with pc := .ready })
  | .ready => do
    let f ← s.files[c.file]?
    if f.header = c.header then some (s.setCall pe { c with pc := .publish }) else none
  | .publish =>
    some ({ s with barrier2 := Function.update s.barrier2 pe c.addr }.setCall pe
      { c with pc := if pe = g.firstPe then .add else .sub })
  | .add =>
    some ((s.modifyFile c.file (.addCnt g.pes.length)).setCall pe { c with pc := .sub })
  | .sub => some ((s.modifyFile c.file (.addCnt (-1))).setCall pe { c with pc := .spin })
  | .spin => do
    let f ← s.files[c.file]?
    if f.cnt = 0 then some (s.setCall pe { c with pc := .copy, addrs := [] }) else none
  | .copy =>
    if c.addrs.length < numPes then
      some (s.setCall pe { c with addrs := c.addrs ++ [s.barrier2 c.addrs.length] })
    else some (s.setCall pe { c with pc := .unmark })
  | .unmark =>
    some ({ s with barrier1 := Function.update s.barrier1 pe 0 }.setCall pe
      { c with pc := .drain, k := 0, relativePe := 0 })
  | .drain =>
    match g.pes[c.k]? with
    | some q =>
      if s.barrier1 q = 0 then
        some (s.setCall pe
          { c with k := c.k + 1, relativePe := c.relativePe + if q < pe then 1 else 0 })
      else none
    | none => some (s.setCall pe { c with pc := .unpublish })
  | .unpublish =>
    let s := { s with barrier2 := Function.update s.barrier2 pe 0 }
    if pe = g.firstPe then some (s.setCall pe { c with pc := .unlock }) else some (s.leave pe c)
  | .unlock => some ({ s with mutex := 0 }.leave pe c)

def step (sys : SharedMemory) (s : AllocState numPes) :
    AllocAction numPes → Option (AllocState numPes)
  | .enter g =>
    if ∀ pe ∈ g.pes, (s.calls pe).isNone then
      some
        { s with
          rounds := s.rounds ++ [g]
          calls := fun pe => if pe ∈ g.pes then some (.start s.rounds.length) else s.calls pe }
    else none
  | .access pe reply => do
    let c ← s.calls pe
    let g ← s.rounds[c.round]?
    s.access sys pe g c reply
  | .write i cnt =>
    if ∃ ret ∈ s.returned, ret.file = i then
      some (s.modifyFile i fun f => { f with cnt := cnt })
    else none

end AllocState

/-- The states of all runs -/
abbrev AllocReachable (sys : SharedMemory) : AllocState numPes → Prop :=
  Transition.Reach (· = .init) (AllocState.step sys) fun _ _ => True

end Lamellar.Shmem
