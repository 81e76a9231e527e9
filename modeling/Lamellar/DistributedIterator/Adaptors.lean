import Lamellar.Array.LocalIndex
import Lamellar.Lib.Draining
import Lamellar.Lib.Word

/-!
# The distributed iterators of `src/array/iterator/distributed_iterator`

Every PE holds its own copy of a distributed iterator. A worker takes a copy for a range of
its PE's positions with `init` and calls `next` until it ends; `advance_index` passes over
positions, and `iterator_index` says which place in the whole iteration a position has. The
traits are classes, each adaptor is a structure with the fields of the source, and the
adaptors are the instances.

`usize` is read as `ℕ`, and `isize` as `ℤ`. Beside each method stands the test that its sums,
products and differences are in the range of their type (`initFits` and so on, with those that the
iterator below makes): if not, a build with overflow checks panics, and one without them goes on
with another number. The `f32` element count of `step_by` is read as an exact rational, and the
conversions to `isize`, which `skip` compares with, are those of a 64-bit target.
-/

namespace Lamellar

/-- The trait `DistributedIterator`. The source has no `size`: it is the number of elements
of the array below, and bounds the turns of the loops over an iterator. -/
class DistributedIterator (I : Type) (Item : outParam Type) where
  init : I → ℕ → ℕ → I
  next : I → Option Item × I
  elems : I → ℕ → ℕ
  advanceIndex : I → ℕ → I
  size : I → ℕ
  initFits : I → ℕ → ℕ → Bool
  nextFits : I → Bool
  advanceFits : I → ℕ → Bool

end Lamellar

namespace Lamellar.DistributedIterator

open Lamellar.Array Lamellar.Draining

variable {T : Type}

/-- The trait `IndexedDistributedIterator`. -/
class IndexedDistributedIterator (I : Type) (Item : outParam Type) extends
    DistributedIterator I Item where
  iteratorIndex : I → ℕ → Option ℕ
  indexFits : I → ℕ → Bool

export IndexedDistributedIterator (iteratorIndex indexFits)

/-- The range `init(start, cnt)`, run to its end, computes with numbers in the range of their
type. -/
def rangeFits {I Item : Type} [DistributedIterator I Item] (it : I) (start cnt : ℕ) : Bool :=
  initFits it start cnt &&
    along next Option.isNone nextFits (size (init it start cnt)) (init it start cnt)

/-! ## The array -/

/-- `DistIter`: the positions `[cur_i, end_i)` of the elements on the calling PE. -/
structure DistIter (T : Type) where
  data : UnsafeArrayInner
  mem : MemoryRegion T
  curI : ℕ
  endI : ℕ

def DistIter.new (data : UnsafeArrayInner) (mem : MemoryRegion T) (curI cnt : ℕ) : DistIter T :=
  { data, mem, curI, endI := curI + cnt }

instance : IndexedDistributedIterator (DistIter T) T where
  init it startI cnt :=
    let maxI := it.data.numElemsLocal
    { it with curI := min startI maxI, endI := min (startI + cnt) maxI }
  next it :=
    if it.curI < it.endI then
      (some (it.mem.cell it.data.myPe (it.data.localAsMutPtr + it.curI)),
        { it with curI := it.curI + 1 })
    else (none, it)
  elems _ inElems := inElems
  advanceIndex it count := { it with curI := min (it.curI + count) it.endI }
  size it := it.data.size
  iteratorIndex it index := it.data.subarrayIndexFromLocal index
  initFits _ startI cnt := decide (startI + cnt < word)
  nextFits _ := true
  advanceFits it count := decide (it.curI + count < word)
  -- under `Cyclic` the sum is below the size of the view
  indexFits it index :=
    match it.data.distribution, it.data.startIndexForPe it.data.myPe with
    | .block, some myStartIndex => decide (myStartIndex + index < word)
    | _, _ => true

section Adaptors

variable {I α β : Type}

/-! ## Adaptors that keep the index -/

structure Enumerate (I : Type) where
  iter : I
  curIndex : ℕ

def Enumerate.new (iter : I) (curIndex : ℕ) : Enumerate I := { iter, curIndex }

instance [IndexedDistributedIterator I α] : IndexedDistributedIterator (Enumerate I) (ℕ × α) where
  init it startI cnt := .new (init it.iter startI cnt) startI
  next it :=
    match next it.iter with
    | (some a, iter) =>
      match iteratorIndex iter it.curIndex with
      | some i => (some (i, a), { iter, curIndex := it.curIndex + 1 })
      | none => (none, { it with iter })
    | (none, iter) => (none, { it with iter })
  elems it inElems := elems it.iter inElems
  advanceIndex it count := { iter := advanceIndex it.iter count, curIndex := it.curIndex + count }
  size it := size it.iter
  iteratorIndex it index := iteratorIndex it.iter index
  initFits it startI cnt := initFits it.iter startI cnt
  nextFits it :=
    nextFits it.iter &&
      match next it.iter with
      | (some _, iter) => indexFits iter it.curIndex &&
        ((iteratorIndex iter it.curIndex).isNone || decide (it.curIndex + 1 < word))
      | (none, _) => true
  advanceFits it count := advanceFits it.iter count && decide (it.curIndex + count < word)
  indexFits it index := indexFits it.iter index

structure Skip (I : Type) where
  iter : I
  count : ℕ
  skipIndex : ℕ

def Skip.new (iter : I) (count startI : ℕ) : Skip I := { iter, count, skipIndex := startI }

/-- A loop that asks for the `iterator_index` of `start`, ..., `stop` computes in range if each call
does. -/
def searchFits (fits : ℕ → Bool) (start stop : ℕ) : Bool :=
  decide (stop < word) && (List.range' start (stop + 1 - start)).all fits

/-- `iterator_index` of `index`, less `count` as an `isize`, computes in range. -/
def differenceFits [IndexedDistributedIterator I α] (iter : I) (count index : ℕ) : Bool :=
  indexFits iter index &&
    (iteratorIndex iter index).all fun i => fitsIsize (asIsize i - asIsize count)

instance [IndexedDistributedIterator I α] : IndexedDistributedIterator (Skip I) α where
  init it inStartI len :=
    let iter := init it.iter inStartI len
    match scan (iteratorIndex iter) (fun i => 0 ≤ isizeSub i it.count) (size iter) inStartI with
    | (skipIndex, true) =>
      .new (advanceIndex iter (skipIndex - inStartI)) it.count (skipIndex - inStartI)
    | (skipIndex, false) => .new (advanceIndex iter len) it.count skipIndex
  next it :=
    let (val, iter) := next it.iter
    (val, { it with iter })
  elems it inElems := max 0 (elems it.iter inElems)
  advanceIndex it count := { it with iter := advanceIndex it.iter count }
  size it := size it.iter
  iteratorIndex it index :=
    match iteratorIndex it.iter (index + it.skipIndex) with
    | some i =>
      let iIndex := isizeSub i it.count
      if 0 ≤ iIndex then some iIndex.toNat else none
    | none => none
  initFits it inStartI len :=
    let iter := init it.iter inStartI len
    initFits it.iter inStartI len &&
      match scan (iteratorIndex iter) (fun i => 0 ≤ isizeSub i it.count) (size iter) inStartI with
      | (skipIndex, found) => searchFits (differenceFits iter it.count) inStartI skipIndex &&
        advanceFits iter (if found then skipIndex - inStartI else len)
  nextFits it := nextFits it.iter
  advanceFits it count := advanceFits it.iter count
  indexFits it index :=
    decide (index + it.skipIndex < word) && differenceFits it.iter it.count (index + it.skipIndex)

structure Take (I : Type) where
  iter : I
  count : ℕ
  curIndex : ℕ

def Take.new (iter : I) (count startI : ℕ) : Take I := { iter, count, curIndex := startI }

/-- `iterator_index` of `Take`. -/
def Take.index [IndexedDistributedIterator I α] (it : Take I) (index : ℕ) : Option ℕ :=
  match iteratorIndex it.iter index with
  | some gIndex => if gIndex < it.count then some gIndex else none
  | none => none

instance [IndexedDistributedIterator I α] : IndexedDistributedIterator (Take I) α where
  init it startI len := .new (init it.iter startI len) it.count startI
  next it :=
    match it.index it.curIndex with
    | some i =>
      if i < it.count then
        let (val, iter) := next it.iter
        (val, { it with iter, curIndex := it.curIndex + 1 })
      else (none, it)
    | none => (none, it)
  elems it inElems := max 0 (elems it.iter inElems)
  advanceIndex it count :=
    { it with iter := advanceIndex it.iter count, curIndex := it.curIndex + count }
  size it := size it.iter
  iteratorIndex it index := it.index index
  initFits it startI len := initFits it.iter startI len
  nextFits it :=
    indexFits it.iter it.curIndex &&
      match it.index it.curIndex with
      | some i => decide (it.count ≤ i) || decide (it.curIndex + 1 < word) && nextFits it.iter
      | none => true
  advanceFits it count := advanceFits it.iter count && decide (it.curIndex + count < word)
  indexFits it index := indexFits it.iter index

structure StepBy (I : Type) where
  iter : I
  stepSize : ℕ
  addOne : ℕ

def StepBy.new (iter : I) (stepSize addOne : ℕ) : StepBy I := { iter, stepSize, addOne }

instance [IndexedDistributedIterator I α] : IndexedDistributedIterator (StepBy I) α where
  init it inStartI cnt :=
    let iter := init it.iter (inStartI * it.stepSize) (cnt * it.stepSize)
    match scan (iteratorIndex iter) (fun i => i % it.stepSize = 0) (size iter)
        (inStartI * it.stepSize) with
    | (index, true) =>
      let offsetIndex := index - inStartI * it.stepSize
      .new (advanceIndex iter offsetIndex) it.stepSize (if 0 < offsetIndex then 1 else 0)
    -- without an index at the very start `add_one` is 0, without one further on it is 1
    | (index, false) =>
      .new (advanceIndex iter cnt) it.stepSize (if inStartI * it.stepSize < index then 1 else 0)
  next it :=
    match next it.iter with
    | (some res, iter) => (some res, { it with iter := advanceIndex iter (it.stepSize - 1) })
    | (none, iter) => (none, { it with iter })
  elems it inElems := ⌈(elems it.iter inElems : ℚ) / it.stepSize⌉₊
  advanceIndex it count := { it with iter := advanceIndex it.iter (count * it.stepSize) }
  size it := size it.iter
  iteratorIndex it index :=
    match iteratorIndex it.iter (index * it.stepSize) with
    | some gIndex => some (gIndex / it.stepSize + it.addOne)
    | none => none
  initFits it inStartI cnt :=
    let start := inStartI * it.stepSize
    let iter := init it.iter start (cnt * it.stepSize)
    decide (start < word) && decide (cnt * it.stepSize < word) &&
      initFits it.iter start (cnt * it.stepSize) &&
      match scan (iteratorIndex iter) (fun i => i % it.stepSize = 0) (size iter) start with
      | (index, found) => searchFits (indexFits iter) start index &&
        advanceFits iter (if found then index - start else cnt)
  nextFits it :=
    nextFits it.iter &&
      match next it.iter with
      | (some _, iter) => advanceFits iter (it.stepSize - 1)
      | (none, _) => true
  advanceFits it count :=
    decide (count * it.stepSize < word) && advanceFits it.iter (count * it.stepSize)
  indexFits it index :=
    decide (index * it.stepSize < word) && indexFits it.iter (index * it.stepSize) &&
      (iteratorIndex it.iter (index * it.stepSize)).all fun gIndex =>
        decide (gIndex / it.stepSize + it.addOne < word)

/-! ## Adaptors that lose the index -/

structure Map (I α β : Type) where
  iter : I
  f : α → β

instance [DistributedIterator I α] : DistributedIterator (Map I α β) β where
  init it startI cnt := { it with iter := init it.iter startI cnt }
  next it :=
    let (val, iter) := next it.iter
    (val.map it.f, { it with iter })
  elems it inElems := elems it.iter inElems
  advanceIndex it count := { it with iter := advanceIndex it.iter count }
  size it := size it.iter
  initFits it startI cnt := initFits it.iter startI cnt
  nextFits it := nextFits it.iter
  advanceFits it count := advanceFits it.iter count

structure Filter (I α : Type) where
  iter : I
  f : α → Bool

instance [DistributedIterator I α] : DistributedIterator (Filter I α) α where
  init it startI cnt := { it with iter := init it.iter startI cnt }
  next it :=
    let (val, iter) := nextSome next (fun a => if it.f a then some a else none) (size it.iter)
      it.iter
    (val, { it with iter })
  elems it inElems := elems it.iter inElems
  advanceIndex it count := { it with iter := advanceIndex it.iter count }
  size it := size it.iter
  initFits it startI cnt := initFits it.iter startI cnt
  nextFits it := along next (fun o => o.all it.f) nextFits (size it.iter) it.iter
  advanceFits it count := advanceFits it.iter count

structure FilterMap (I α β : Type) where
  iter : I
  f : α → Option β

instance [DistributedIterator I α] : DistributedIterator (FilterMap I α β) β where
  init it startI cnt := { it with iter := init it.iter startI cnt }
  next it :=
    let (val, iter) := nextSome next it.f (size it.iter) it.iter
    (val, { it with iter })
  elems it inElems := elems it.iter inElems
  advanceIndex it count := { it with iter := advanceIndex it.iter count }
  size it := size it.iter
  initFits it startI cnt := initFits it.iter startI cnt
  nextFits it :=
    along next (fun o => o.all fun a => (it.f a).isSome) nextFits (size it.iter) it.iter
  advanceFits it count := advanceFits it.iter count

end Adaptors

end Lamellar.DistributedIterator
