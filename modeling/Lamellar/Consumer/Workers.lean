import Lamellar.Consumer.Schedules
import Lamellar.Consumer.Stealing
import Lamellar.DistributedIterator.Adaptors
import Lamellar.LocalIterator.Adaptors

/-!
# The workers of a schedule

A consumer launches one task for each worker, and every task runs
`while let Some(elem) = iter.next()` on an `IterScheduleIter`. A step is one access to what
the workers share (`fetch_add` on an index, or a range under its lock) together with the
worker's own computations up to the next one; the action names the worker and, where it tries
to steal, the sibling that the shuffle left at the end.
-/

namespace Lamellar.Consumer

open Lamellar.Draining Lamellar.Transition

/-- The trait `IterConsumer`. `ForEach` and `Count` pass everything on to their iterator, so
that an iterator is its own consumer here; `size` bounds the items still to come. -/
class IterConsumer (C : Type) (Item : outParam Type) where
  init : C → ℕ → ℕ → C
  next : C → Option Item × C
  maxElems : C → ℕ → Option ℕ
  size : C → ℕ
  initFits : C → ℕ → ℕ → Bool
  nextFits : C → Bool

export IterConsumer (init next maxElems size initFits nextFits)

instance {I α : Type} [LocalIterator I α] : IterConsumer I α where
  init := LocalIterator.init
  next := LocalIterator.next
  maxElems := LocalIterator.elems
  size := LocalIterator.size
  initFits := LocalIterator.initFits
  nextFits := LocalIterator.nextFits

instance {I α : Type} [DistributedIterator I α] : IterConsumer I α where
  init := DistributedIterator.init
  next := DistributedIterator.next
  maxElems it inElems := some (DistributedIterator.elems it inElems)
  size := DistributedIterator.size
  initFits := DistributedIterator.initFits
  nextFits := DistributedIterator.nextFits

/-- `IterSchedule`, of one task. The indices and ranges behind an `Arc` are in the state. -/
inductive IterSchedule where
  | static (startI endI : ℕ)
  | dynamic (maxI : ℕ)
  | chunk (ranges : List (ℕ × ℕ))
  | workStealing

/-- The tasks that `sched_static`, ..., `sched_chunk` launch, for the ranges that they have created
(`Schedule.ranges`). -/
def Schedule.launch (numWorkers numElemsLocal : ℕ) (ranges : List (ℕ × ℕ)) :
    Schedule → List IterSchedule
  | .static => ranges.map fun rng => .static rng.1 rng.2
  | .dynamic => List.replicate (min numWorkers numElemsLocal) (.dynamic numElemsLocal)
  | .chunk _ => List.replicate (min numWorkers ranges.length) (.chunk ranges)
  | .guided => List.replicate (min numWorkers numElemsLocal) (.chunk ranges)
  | .workStealing => List.replicate ranges.length .workStealing

/-- Where a task is: before `init_iter`, in `next` (under work stealing, with its first range),
about to steal, with a stolen range that it has not made its own yet, with that range, or at
its end. -/
inductive Worker (C : Type) where
  | waiting
  | iterating (iter : C)
  | stealing (iter : C)
  | holding (iter : C) (startI endI : ℕ)
  | resuming (iter : C)
  | done

/-- `cur` is `cur_i` or `range_i`, `range` the ranges of the work stealers; `applied` lists
the items that each worker has taken. -/
structure State (C α : Type) where
  cur : ℕ
  range : ℕ → IterWorkStealer
  worker : ℕ → Worker C
  applied : ℕ → List α

namespace State

variable {C α : Type}

def setWorker (s : State C α) (w : ℕ) (worker : Worker C) : State C α :=
  { s with worker := Function.update s.worker w worker }

def setRange (s : State C α) (w : ℕ) (range : IterWorkStealer) : State C α :=
  { s with range := Function.update s.range w range }

/-- The outcome of `iter.next()`: an item is taken and the loop of the task goes on, or the
worker is where `otherwise` leads. -/
def take (s : State C α) (w : ℕ) (item : Option α × C) (otherwise : C → Worker C) : State C α :=
  match item with
  | (some x, iter) =>
    { s.setWorker w (.iterating iter) with
      applied := Function.update s.applied w (s.applied w ++ [x]) }
  | (none, iter) => s.setWorker w (otherwise iter)

end State

variable {C α : Type} [IterConsumer C α]

/-- `IterSchedule::init_iter` of worker `w`. -/
def initIter (it : C) (sched : IterSchedule) (s : State C α) (w : ℕ) : C :=
  match sched with
  | .static startI endI => init it startI (endI - startI)
  | .dynamic _ => it
  | .chunk _ => init it 0 0
  | .workStealing => init it (s.range w).startI ((s.range w).endI - (s.range w).startI)

/-- One turn of `inner_next` of worker `w`: an index of its range, and the item there. -/
def innerNext (s : State C α) (w : ℕ) (iter : C) (again : C → Worker C) (exhausted : Worker C) :
    State C α :=
  match (s.range w).next with
  | (some ri, range) => (s.setRange w range).take w (next (init iter ri 1)) again
  | (none, range) => (s.setRange w range).setWorker w exhausted

/-- One step of worker `w`; a thief tries the sibling `v`. -/
def step (it : C) (tasks : List IterSchedule) (s : State C α) : ℕ × ℕ → Option (State C α)
  | (w, v) => do
    let sched ← tasks[w]?
    match s.worker w, sched with
    | .waiting, sched => some (s.setWorker w (.iterating (initIter it sched s w)))
    | .iterating iter, .static _ _ => some (s.take w (next iter) fun _ => .done)
    | .iterating iter, .dynamic maxI =>
      let ci := s.cur
      let s := { s with cur := ci + 1 }
      if ci < maxI then some (s.take w (next (init iter ci 1)) .iterating)
      else some (s.setWorker w .done)
    | .iterating iter, .chunk ranges =>
      match next iter with
      | (some x, iter) => some (s.take w (some x, iter) fun _ => .done)
      | (none, iter) =>
        let ri := s.cur
        let s := { s with cur := ri + 1 }
        match ranges[ri]? with
        | some rng => some (s.take w (next (init iter rng.1 (rng.2 - rng.1))) fun _ => .done)
        | none => some (s.setWorker w .done)
    | .iterating iter, .workStealing =>
      some (innerNext s w iter .iterating (.stealing iter))
    | .stealing iter, _ =>
      if v < tasks.length then
        match (s.range v).steal with
        | (some (startI, endI), range) =>
          some ((s.setRange v range).setWorker w
            (.holding (init iter startI (endI - startI)) startI endI))
        | (none, _) => some (s.setWorker w .done)
      else none
    | .holding iter startI endI, _ =>
      some ((s.setRange w ⟨startI, endI⟩).setWorker w (.resuming iter))
    | .resuming iter, _ => some (innerNext s w iter .resuming .done)
    | .done, _ => none

/-- `init` and the first `next` compute with numbers in the range of their type. -/
def firstFits (iter : C) (startI cnt : ℕ) : Bool :=
  initFits iter startI cnt && nextFits (init iter startI cnt)

/-- The test that a step of worker `w`, which tries the sibling `v`, computes with numbers in the
range of their type: if not, a build with overflow checks panics there. -/
def stepFits (it : C) (tasks : List IterSchedule) (s : State C α) : ℕ × ℕ → Bool
  | (w, v) =>
    match s.worker w, tasks[w]? with
    | .waiting, some (.static startI endI) => initFits it startI (endI - startI)
    | .waiting, some (.chunk _) => initFits it 0 0
    | .waiting, some .workStealing =>
      initFits it (s.range w).startI ((s.range w).endI - (s.range w).startI)
    | .iterating iter, some (.static _ _) => nextFits iter
    | .iterating iter, some (.dynamic maxI) => decide (maxI ≤ s.cur) || firstFits iter s.cur 1
    | .iterating iter, some (.chunk ranges) =>
      nextFits iter && match next iter, ranges[s.cur]? with
        | (none, iter), some rng => firstFits iter rng.1 (rng.2 - rng.1)
        | _, _ => true
    | .iterating iter, some .workStealing | .resuming iter, some _ =>
      match (s.range w).next with
      | (some ri, _) => firstFits iter ri 1
      | (none, _) => true
    | .stealing iter, some _ =>
      match (s.range v).steal with
      | (some (startI, endI), _) => initFits iter startI (endI - startI)
      | (none, _) => true
    | _, _ => true

/-- Before any task runs -/
def start (C α : Type) (ranges : List (ℕ × ℕ)) : State C α where
  cur := 0
  range w := ((ranges[w]?).map fun rng => ⟨rng.1, rng.2⟩).getD ⟨0, 0⟩
  worker _ := .waiting
  applied _ := []

/-- The states that the tasks come by, whatever the order of their steps -/
def Reached (it : C) (tasks : List IterSchedule) (ranges : List (ℕ × ℕ)) : State C α → Prop :=
  Reach (· = start C α ranges) (step it tasks) fun _ _ => True

/-- Every task has ended. -/
def Final (tasks : List IterSchedule) (s : State C α) : Prop :=
  ∀ w < tasks.length, s.worker w = .done

end Lamellar.Consumer
