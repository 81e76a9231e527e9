import Lamellar.Lib.Transition
import Mathlib.Algebra.Ring.Int.Defs
import Mathlib.Data.Fintype.Basic
import Mathlib.Data.Multiset.AddSub

/-!
# The dissemination barrier: `src/barrier.rs`

A `Barrier` of `P` PEs, with `n` the dissemination factor and `R` the number of rounds. The
PEs are numbered by their index in the team. `barrier_internal` and `async_barrier` are the
same program up to what they do while they spin. A call takes the next id of its PE from
`barrier_cnt`; calls of one PE may overlap. Every put is on its way until it is delivered, in
any order.

A call that finds the `panic` flag of its PE set does nothing; it takes no id either.
-/

namespace Lamellar.Barrier

/-- A put of a barrier id into the slot for `round` of `barrier_buf[i - 1]` on PE `dst`. -/
structure Put (P : ℕ) where
  dst : Fin P
  i : ℕ
  round : ℕ
  id : ℕ
  deriving DecidableEq

/-- Where a call stands: at the head of the loop over rounds, in the loop of puts, or in the
loop of waits of a round. -/
inductive Pc where
  | head (round : ℕ)
  | send (round i : ℕ)
  | wait (round i : ℕ)
  | returned
  deriving DecidableEq, Repr

structure State (P : ℕ) where
  barrierCnt : Fin P → ℕ
  /-- `barrierBuf p i round`: the word for `round` in `barrier_buf[i - 1]` of PE `p`. -/
  barrierBuf : Fin P → ℕ → ℕ → ℕ
  panic : Fin P → Bool
  /-- Calls that have read `panic` as zero and have not taken their id yet. -/
  ready : Fin P → ℕ
  /-- The call of a PE with an id. -/
  calls : Fin P → ℕ → Option Pc
  puts : Multiset (Put P)

variable {P : ℕ}

/-- `Barrier::new` on all PEs. -/
def State.new : State P where
  barrierCnt := fun _ => 1
  barrierBuf := fun _ _ _ => 0
  panic := fun _ => false
  ready := fun _ => 0
  calls := fun _ _ => none
  puts := 0

/-- `team_send_pe` -/
def sendPe (n : ℕ) (p : Fin P) (round i : ℕ) : Fin P :=
  ⟨(p.val + i * (n + 1) ^ round) % P, Nat.mod_lt _ p.pos⟩

/-- `team_recv_pe`, by `rem_euclid` -/
def recvPe (n : ℕ) (p : Fin P) (round i : ℕ) : ℤ :=
  ((p.val : ℤ) - i * ((n : ℤ) + 1) ^ round) % P

namespace State

/-- The call `id` of PE `p` goes on at `pc`. -/
def setCall (s : State P) (p : Fin P) (id : ℕ) (pc : Pc) : State P :=
  { s with calls := Function.update s.calls p (Function.update (s.calls p) id (some pc)) }

/-- The call of a barrier: with `panic` set it returns at once. -/
def enter (s : State P) (p : Fin P) : State P :=
  if s.panic p then s
  else { s with ready := Function.update s.ready p (s.ready p + 1) }

/-- `barrier_cnt.fetch_add(1)` -/
def fetchAdd (s : State P) (p : Fin P) : State P :=
  { s.setCall p (s.barrierCnt p) (.head 0) with
    barrierCnt := Function.update s.barrierCnt p (s.barrierCnt p + 1)
    ready := Function.update s.ready p (s.ready p - 1) }

def put (s : State P) (m : Put P) : State P := { s with puts := m ::ₘ s.puts }

/-- The next step of the call `id` of PE `p`, which stands at `pc`. -/
def runCall (n R : ℕ) (s : State P) (p : Fin P) (id : ℕ) : Pc → Option (State P)
  | .head round =>
    if round < R then some (s.setCall p id (.send round 1)) else some (s.setCall p id .returned)
  | .send round i =>
    if i ≤ n then
      let s := if sendPe n p round i ≠ p then s.put ⟨sendPe n p round i, i, round, id⟩ else s
      some (s.setCall p id (.send round (i + 1)))
    else some (s.setCall p id (.wait round 1))
  | .wait round i =>
    if i ≤ n then
      if recvPe n p round i ≠ p.val ∧ s.barrierBuf p i round < id then none
      else some (s.setCall p id (.wait round (i + 1)))
    else some (s.setCall p id (.head (round + 1)))
  | .returned => none

/-- A put takes effect. -/
def delivered (s : State P) (m : Put P) : State P :=
  { s with
    barrierBuf := Function.update s.barrierBuf m.dst
      (Function.update (s.barrierBuf m.dst) m.i
        (Function.update (s.barrierBuf m.dst m.i) m.round m.id))
    puts := s.puts.erase m }

end State

inductive Action (P : ℕ) where
  | enter (p : Fin P)
  | fetchAdd (p : Fin P)
  | run (p : Fin P) (id : ℕ)
  | deliver (m : Put P)
  | panic (p : Fin P)

def State.step (n R : ℕ) (s : State P) : Action P → Option (State P)
  | .enter p => some (s.enter p)
  | .fetchAdd p => if 0 < s.ready p then some (s.fetchAdd p) else none
  | .run p id =>
    match s.calls p id with
    | some pc => s.runCall n R p id pc
    | none => none
  | .deliver m => if m ∈ s.puts then some (s.delivered m) else none
  | .panic p => some { s with panic := Function.update s.panic p true }

/-- The states of all runs. -/
def Reachable (n R : ℕ) (s : State P) : Prop :=
  Transition.Reach (· = State.new) (State.step n R) (fun _ _ => True) s

end Lamellar.Barrier
