import Lamellar.CommandQueue.Buffers
import Lamellar.Lib.Transition

/-!
# Pool allocation: `send_alloc` and `check_alloc` of `src/lamellae/command_queues.rs`

Each PE has a slot for every PE in its `alloc_buffer`. A PE that needs a new pool writes
`Alloc` into its own slot and puts it to the others; they join in when they poll. Once a PE
sees `Alloc` in all slots it calls `comm.alloc_pool`, then it clears its slot in the same way
and waits until it sees the others cleared, or in their next round.

A test of a slot reads it once, and a put replaces a slot at once. The puts from a PE to
another one arrive in their order. `alloc_pool` is a collective call: it returns once all PEs
have made it. Whether the heap has room (`rt_check_alloc`) depends on the other tasks, and
comes with the action.
-/

namespace Lamellar.PoolAlloc

open CommandQueue (CmdMsg Cmd)

inductive RequestPc where
  /-- Before `num_pool_allocs` -/
  | start
  /-- At the lock of `alloc_buffer` -/
  | counted (prevCnt : ℕ)
  | inside (prevCnt : ℕ)
  | returned
  deriving DecidableEq

/-- A call of `send_alloc`. -/
structure Request (P : ℕ) where
  pe : Fin P
  minSize : UInt64
  pc : RequestPc
  deriving DecidableEq

/-- Where the holder of the lock of `alloc_buffer` stands. -/
inductive Pc where
  | free
  /-- `send_alloc` at `rt_check_alloc` -/
  | checking (k : ℕ)
  /-- The loop of `check_alloc` -/
  | scan (pe : ℕ)
  -- `send_alloc_inner`, at `fetch_add`
  | start
  | putAlloc (pe : ℕ)
  | waitAlloc (pe : ℕ)
  | alloc
  | allocating
  | clear
  | putClear (pe : ℕ)
  | waitClear (pe : ℕ) (newAlloc : Bool)
  deriving DecidableEq

structure Pe where
  pc : Pc
  /-- The request that `send_alloc_inner` runs for; none if `check_alloc` has called it. -/
  caller : Option ℕ
  minSize : UInt64
  /-- The `alloc_id` of the iteration, and the counter that it comes from. -/
  id : UInt64
  allocId : UInt64
  numPoolAllocs : ℕ
  /-- The arguments of `alloc_pool` so far. -/
  calls : List UInt64
  deriving DecidableEq

structure State (P : ℕ) where
  pes : Fin P → Pe
  /-- `slots p q` is the slot for `q` in the `alloc_buffer` of `p`. -/
  slots : Fin P → Fin P → CmdMsg
  /-- `puts q p` are the puts of `q` on their way to `p`. -/
  puts : Fin P → Fin P → List CmdMsg
  requests : List (Request P)

variable {P : ℕ}

namespace State

def new : State P where
  pes := fun _ => ⟨.free, none, 0, 0, 0, 1, []⟩
  slots := fun _ _ => .clearCmd
  puts := fun _ _ => []
  requests := []

def setPe (s : State P) (p : Fin P) (pe : Pe) : State P :=
  { s with pes := Function.update s.pes p pe }

def goto (s : State P) (p : Fin P) (pc : Pc) : State P := s.setPe p { s.pes p with pc }

def setSlot (s : State P) (p q : Fin P) (c : CmdMsg) : State P :=
  { s with slots := Function.update s.slots p (Function.update (s.slots p) q c) }

def put (s : State P) (q p : Fin P) (c : CmdMsg) : State P :=
  { s with puts := Function.update s.puts q (Function.update (s.puts q) p (s.puts q p ++ [c])) }

def setRequest (s : State P) (k : ℕ) (pc : RequestPc) : State P :=
  { s with requests := s.requests.modify k fun r => { r with pc } }

/-- `send_alloc_inner` returns to its caller. -/
def leave (s : State P) (p : Fin P) : State P :=
  match (s.pes p).caller with
  | some k => (s.goto p .free).setRequest k .returned
  | none => s.goto p .free

/-! ## `send_alloc` and `check_alloc` -/

/-- `num_pool_allocs` waits while `alloc_pool` holds the pools. -/
def count (s : State P) (k : ℕ) : Option (State P) :=
  match s.requests[k]? with
  | some ⟨p, _, .start⟩ =>
    if (s.pes p).pc = .allocating then none
    else some (s.setRequest k (.counted (s.pes p).numPoolAllocs))
  | _ => none

def lock (s : State P) (k : ℕ) : Option (State P) :=
  match s.requests[k]? with
  | some ⟨p, _, .counted prevCnt⟩ =>
    if (s.pes p).pc = .free then some ((s.goto p (.checking k)).setRequest k (.inside prevCnt))
    else none
  | _ => none

/-- `rt_check_alloc` finds room or not. -/
def room (s : State P) (k : ℕ) (found : Bool) : Option (State P) :=
  match s.requests[k]? with
  | some ⟨p, minSize, .inside prevCnt⟩ =>
    if (s.pes p).pc = .checking k then
      if found = false ∧ prevCnt = (s.pes p).numPoolAllocs then
        some (s.setPe p { s.pes p with pc := .start, caller := some k, minSize })
      else some ((s.goto p .free).setRequest k .returned)
    else none
  | _ => none

def isAlloc (c : CmdMsg) : Bool := c.checkHash ∧ c.cmd = .alloc

/-- `check_alloc` at slot `i` -/
def scan (s : State P) (p : Fin P) (i : ℕ) : State P :=
  if h : i < P then
    let c := s.slots p ⟨i, h⟩
    if isAlloc c then
      s.setPe p { s.pes p with pc := .start, caller := none, minSize := c.dsize }
    else s.goto p (.scan (i + 1))
  else s.goto p .free

/-! ## `send_alloc_inner` -/

def startRound (s : State P) (p : Fin P) : State P :=
  let pe := s.pes p
  let c := s.slots p p
  let pe := { pe with id := pe.allocId, allocId := pe.allocId + 1 }
  if c.hash = CmdMsg.clearCmd.hash then
    (s.setSlot p p { c with
        daddr := pe.id, dsize := pe.minSize, cmd := .alloc, msgHash := 0 }.calcHash).setPe p
      { pe with pc := .putAlloc 0 }
  else s.setPe p { pe with pc := .waitAlloc 0 }

/-- The loops that put the slot of `p` to the other PEs, at PE `i` -/
def putSlot (s : State P) (p : Fin P) (i : ℕ) (next : ℕ → Pc) (done : Pc) : State P :=
  if h : i < P then
    (if ⟨i, h⟩ ≠ p then s.put p ⟨i, h⟩ (s.slots p p) else s).goto p (next (i + 1))
  else s.goto p done

def waitAlloc (s : State P) (p : Fin P) (i : ℕ) : Option (State P) :=
  if h : i < P then
    if isAlloc (s.slots p ⟨i, h⟩) then some (s.goto p (.waitAlloc (i + 1))) else none
  else some (s.goto p .alloc)

/-- `alloc_pool` returns. -/
def allocated (s : State P) (p : Fin P) : Option (State P) :=
  let pe := s.pes p
  if ∀ q, pe.calls.length ≤ (s.pes q).calls.length then
    some (s.setPe p { pe with pc := .clear, numPoolAllocs := pe.numPoolAllocs + 1 })
  else none

def waitClear (s : State P) (p : Fin P) (i : ℕ) (newAlloc : Bool) : Option (State P) :=
  if h : i < P then
    let c := s.slots p ⟨i, h⟩
    if c.checkHash ∧ c.cmd = .clear then some (s.goto p (.waitClear (i + 1) newAlloc))
    else if c.cmd = .alloc ∧ (s.pes p).id < c.daddr then
      some (s.goto p (.waitClear (i + 1) true))
    else none
  else if newAlloc then some (s.goto p .start)
  else some (s.leave p)

/-- The holder of the lock on PE `p`. -/
def run (s : State P) (p : Fin P) : Option (State P) :=
  match (s.pes p).pc with
  | .free | .checking _ => none
  | .scan i => some (s.scan p i)
  | .start => some (s.startRound p)
  | .putAlloc i => some (s.putSlot p i .putAlloc (.waitAlloc 0))
  | .waitAlloc i => s.waitAlloc p i
  | .alloc =>
    some (s.setPe p { s.pes p with
      pc := .allocating, calls := (s.pes p).calls ++ [(s.pes p).minSize] })
  | .allocating => s.allocated p
  | .clear => some ((s.setSlot p p (s.slots p p).clear).goto p (.putClear 0))
  | .putClear i => some (s.putSlot p i .putClear (.waitClear 0 false))
  | .waitClear i newAlloc => s.waitClear p i newAlloc

end State

/-! ## Steps -/

inductive Action (P : ℕ) where
  | sendAlloc (p : Fin P) (minSize : UInt64)
  | count (k : ℕ)
  | lock (k : ℕ)
  | room (k : ℕ) (found : Bool)
  /-- `check_alloc` takes the lock. -/
  | checkAlloc (p : Fin P)
  | run (p : Fin P)
  | deliver (q p : Fin P)

def State.step (s : State P) : Action P → Option (State P)
  | .sendAlloc p minSize => some { s with requests := s.requests ++ [⟨p, minSize, .start⟩] }
  | .count k => s.count k
  | .lock k => s.lock k
  | .room k found => s.room k found
  | .checkAlloc p => if (s.pes p).pc = .free then some (s.goto p (.scan 0)) else none
  | .run p => s.run p
  | .deliver q p =>
    match s.puts q p with
    | c :: rest =>
      some { s.setSlot p q c with
        puts := Function.update s.puts q (Function.update (s.puts q) p rest) }
    | [] => none

def Initial (s : State P) : Prop := s = .new

/-- `send_alloc_inner` runs. -/
def Pc.running : Pc → Bool
  | .free | .checking _ | .scan _ => false
  | .start | .putAlloc _ | .waitAlloc _ | .alloc | .allocating | .clear | .putClear _
  | .waitClear _ _ => true

end Lamellar.PoolAlloc
