import Lamellar.Array.LocalIndex
import Lamellar.Lib.Binary32
import Lamellar.Lib.Draining
import Lamellar.Lib.Word

/-!
# The local iterators of `src/array/iterator/local_iterator`

A local iterator runs over the elements that the calling PE holds. A worker takes a copy for
a range of positions with `init` and calls `next` until it ends. `elems` says how many
positions there are to be shared out among the workers; where it overflows (`skip` with a
count larger than what there is) it is `none`.

`usize` is read as `ℕ` otherwise, and `isize` as `ℤ`; beside each method stands the test that its
sums, products and differences are in the range of their type (`initFits` and so on, with those
that the iterator below makes). The count of `step_by` goes through `f32` as in the source.
-/

namespace Lamellar

/-- The trait `LocalIterator`. The source has neither `size`, which bounds the items still to
come, nor `len`, the number of elements of the array below; they bound the turns of loops. -/
class LocalIterator (I : Type) (Item : outParam Type) where
  init : I → ℕ → ℕ → I
  next : I → Option Item × I
  elems : I → ℕ → Option ℕ
  advanceIndex : I → ℕ → I
  size : I → ℕ
  len : I → ℕ
  initFits : I → ℕ → ℕ → Bool
  nextFits : I → Bool
  advanceFits : I → ℕ → Bool

end Lamellar

namespace Lamellar.LocalIterator

open Lamellar.Array Lamellar.Draining

variable {T : Type}

/-- The trait `IndexedLocalIterator`. -/
class IndexedLocalIterator (I : Type) (Item : outParam Type) extends LocalIterator I Item where
  iteratorIndex : I → ℕ → Option ℕ
  indexFits : I → ℕ → Bool

export IndexedLocalIterator (iteratorIndex indexFits)

/-- `next` until it ends computes with numbers in the range of their type. -/
def drainFits {I Item : Type} [LocalIterator I Item] (it : I) : Bool :=
  along next Option.isNone nextFits (size it) it

/-- The range `init(start, cnt)`, run to its end, computes with numbers in the range of their
type. -/
def rangeFits {I Item : Type} [LocalIterator I Item] (it : I) (start cnt : ℕ) : Bool :=
  initFits it start cnt && drainFits (init it start cnt)

/-! ## The array -/

/-- `LocalIter`: the positions `[cur_i, end_i)` of the elements on the calling PE. -/
structure LocalIter (T : Type) where
  data : UnsafeArrayInner
  mem : MemoryRegion T
  curI : ℕ
  endI : ℕ

def LocalIter.new (data : UnsafeArrayInner) (mem : MemoryRegion T) (curI cnt : ℕ) :
    LocalIter T :=
  { data, mem, curI, endI := curI + cnt }

instance : IndexedLocalIterator (LocalIter T) T where
  init it startI cnt :=
    let maxI := it.data.numElemsLocal
    { it with curI := min startI maxI, endI := min (startI + cnt) maxI }
  next it :=
    if it.curI < it.endI then
      (some (it.mem.cell it.data.myPe (it.data.localAsMutPtr + it.curI)),
        { it with curI := it.curI + 1 })
    else (none, it)
  elems _ inElems := some inElems
  advanceIndex it count := { it with curI := min (it.curI + count) it.endI }
  size it := it.endI - it.curI
  len it := it.data.size
  iteratorIndex it index := if index < it.data.size then some index else none
  initFits _ startI cnt := decide (startI + cnt < word)
  nextFits _ := true
  advanceFits it count := decide (it.curI + count < word)
  indexFits _ _ := true

section Adaptors

variable {I J α β : Type}

/-! ## Adaptors that keep the index -/

structure Enumerate (I : Type) where
  iter : I
  curIndex : ℕ

def Enumerate.new (iter : I) (curIndex : ℕ) : Enumerate I := { iter, curIndex }

instance [IndexedLocalIterator I α] : IndexedLocalIterator (Enumerate I) (ℕ × α) where
  init it startI cnt := .new (init it.iter startI cnt) startI
  next it :=
    match next it.iter with
    | (some a, iter) =>
      match iteratorIndex iter it.curIndex with
      | some i => (some (i, a), { iter, curIndex := it.curIndex + 1 })
      | none => (none, { it with iter })
    | (none, iter) => (none, { it with iter })
  elems it inElems := elems it.iter inElems
  advanceIndex it count := { iter := advanceIndex it.iter count, curIndex := it.curIndex + count }
  size it := size it.iter
  len it := len it.iter
  iteratorIndex it index := iteratorIndex it.iter index
  initFits it startI cnt := initFits it.iter startI cnt
  nextFits it :=
    nextFits it.iter &&
      match next it.iter with
      | (some _, iter) => indexFits iter it.curIndex &&
        ((iteratorIndex iter it.curIndex).isNone || decide (it.curIndex + 1 < word))
      | (none, _) => true
  advanceFits it count := advanceFits it.iter count && decide (it.curIndex + count < word)
  indexFits it index := indexFits it.iter index

structure Skip (I : Type) where
  iter : I
  skipCount : ℕ
  skipOffset : ℕ

def Skip.new (iter : I) (skipCount skipOffset : ℕ) : Skip I := { iter, skipCount, skipOffset }

instance [IndexedLocalIterator I α] : IndexedLocalIterator (Skip I) α where
  init it inStartI inCnt :=
    let iter := init it.iter inStartI inCnt
    let startI := max inStartI it.skipCount
    let advance := min (startI - inStartI) inCnt
    .new (advanceIndex iter advance) it.skipCount advance
  next it :=
    let (val, iter) := next it.iter
    (val, { it with iter })
  -- `in_elems - self.skip_count` is a subtraction of `usize`
  elems it inElems := do
    let inElems ← elems it.iter inElems
    if it.skipCount ≤ inElems then some (max 0 (inElems - it.skipCount)) else none
  advanceIndex it count := { it with iter := advanceIndex it.iter count }
  size it := size it.iter
  len it := len it.iter
  iteratorIndex it index :=
    match iteratorIndex it.iter (index + it.skipOffset) with
    | some iIndex =>
      let iIndex := isizeSub iIndex it.skipCount
      if 0 ≤ iIndex then some iIndex.toNat else none
    | none => none
  initFits it inStartI inCnt :=
    initFits it.iter inStartI inCnt &&
      advanceFits (init it.iter inStartI inCnt)
        (min (max inStartI it.skipCount - inStartI) inCnt)
  nextFits it := nextFits it.iter
  advanceFits it count := advanceFits it.iter count
  indexFits it index :=
    decide (index + it.skipOffset < word) && indexFits it.iter (index + it.skipOffset) &&
      (iteratorIndex it.iter (index + it.skipOffset)).all fun iIndex =>
        fitsIsize (asIsize iIndex - asIsize it.skipCount)

structure Take (I : Type) where
  iter : I
  takeCount : ℕ

def Take.new (iter : I) (takeCount : ℕ) : Take I := { iter, takeCount }

instance [IndexedLocalIterator I α] : IndexedLocalIterator (Take I) α where
  init it startI cnt :=
    let startI := min startI it.takeCount
    let endI := min (startI + cnt) it.takeCount
    let len := endI - startI
    .new (init it.iter startI len) it.takeCount
  next it :=
    let (val, iter) := next it.iter
    (val, { it with iter })
  elems it inElems := do
    let inElems ← elems it.iter inElems
    some (min inElems it.takeCount)
  advanceIndex it count := { it with iter := advanceIndex it.iter count }
  size it := size it.iter
  len it := len it.iter
  iteratorIndex it index := iteratorIndex it.iter index
  initFits it startI cnt :=
    let startI := min startI it.takeCount
    decide (startI + cnt < word) &&
      initFits it.iter startI (min (startI + cnt) it.takeCount - startI)
  nextFits it := nextFits it.iter
  advanceFits it count := advanceFits it.iter count
  indexFits it index := indexFits it.iter index

structure StepBy (I : Type) where
  iter : I
  stepSize : ℕ
  addOne : ℕ

def StepBy.new (iter : I) (stepSize addOne : ℕ) : StepBy I := { iter, stepSize, addOne }

instance [IndexedLocalIterator I α] : IndexedLocalIterator (StepBy I) α where
  init it inStartI cnt :=
    let iter := init it.iter (inStartI * it.stepSize) (cnt * it.stepSize)
    match scan (iteratorIndex iter) (fun i => i % it.stepSize = 0) (len iter + 1)
        (inStartI * it.stepSize) with
    | (index, true) =>
      let offsetIndex := index - inStartI * it.stepSize
      .new (advanceIndex iter offsetIndex) it.stepSize (if 0 < offsetIndex then 1 else 0)
    -- without an index at the very start `add_one` is 0, without one further on it is 1
    | (index, false) =>
      .new (advanceIndex iter cnt) it.stepSize (if inStartI * it.stepSize < index then 1 else 0)
  next it :=
    let (res, iter) := next it.iter
    (res, { it with iter := advanceIndex iter (it.stepSize - 1) })
  elems it inElems := do
    let inElems ← elems it.iter inElems
    some (Binary32.ceilDiv inElems it.stepSize)
  advanceIndex it count := { it with iter := advanceIndex it.iter count }
  size it := size it.iter
  len it := len it.iter
  iteratorIndex it index :=
    match iteratorIndex it.iter (index * it.stepSize) with
    | some gIndex => some (gIndex / it.stepSize + it.addOne)
    | none => none
  initFits it inStartI cnt :=
    let start := inStartI * it.stepSize
    let iter := init it.iter start (cnt * it.stepSize)
    decide (start < word) && decide (cnt * it.stepSize < word) &&
      initFits it.iter start (cnt * it.stepSize) &&
      match scan (iteratorIndex iter) (fun i => i % it.stepSize = 0) (len iter + 1) start with
      | (index, found) => decide (index < word) &&
        (List.range' start (index + 1 - start)).all (indexFits iter) &&
        advanceFits iter (if found then index - start else cnt)
  nextFits it := nextFits it.iter && advanceFits (next it.iter).2 (it.stepSize - 1)
  advanceFits it count := advanceFits it.iter count
  indexFits it index :=
    decide (index * it.stepSize < word) && indexFits it.iter (index * it.stepSize) &&
      (iteratorIndex it.iter (index * it.stepSize)).all fun gIndex =>
        decide (gIndex / it.stepSize + it.addOne < word)

structure Zip (I J : Type) where
  a : I
  b : J

def Zip.new (a : I) (b : J) : Zip I J := { a, b }

instance [IndexedLocalIterator I α] [IndexedLocalIterator J β] :
    IndexedLocalIterator (Zip I J) (α × β) where
  init it startI cnt := .new (init it.a startI cnt) (init it.b startI cnt)
  next it :=
    match next it.a with
    | (some x, a) =>
      match next it.b with
      | (some y, b) => (some (x, y), { a, b })
      | (none, b) => (none, { a, b })
    | (none, a) => (none, { it with a })
  elems it inElems := do
    let a ← elems it.a inElems
    let b ← elems it.b inElems
    some (min a b)
  advanceIndex it count := { a := advanceIndex it.a count, b := advanceIndex it.b count }
  size it := size it.a
  len it := len it.a
  iteratorIndex it index := iteratorIndex it.a index
  initFits it startI cnt := initFits it.a startI cnt && initFits it.b startI cnt
  nextFits it := nextFits it.a && ((next it.a).1.isNone || nextFits it.b)
  advanceFits it count := advanceFits it.a count && advanceFits it.b count
  indexFits it index := indexFits it.a index

structure Chunks (I : Type) where
  iter : I
  curI : ℕ
  endI : ℕ
  chunkSize : ℕ

def Chunks.new (iter : I) (curI cnt chunkSize : ℕ) : Chunks I :=
  { iter, curI, endI := curI + cnt, chunkSize }

/-- `Chunk` is an iterator of its own; an item is given as the list of what it hands out. -/
instance [IndexedLocalIterator I α] : IndexedLocalIterator (Chunks I) (List α) where
  init it startI cnt :=
    .new (init it.iter (startI * it.chunkSize) ((startI + cnt) * it.chunkSize)) startI cnt
      it.chunkSize
  next it :=
    if it.curI < it.endI then
      let startI := it.curI * it.chunkSize
      let iter := init it.iter startI it.chunkSize
      (some (drain next (size iter) iter), { it with curI := it.curI + 1 })
    else (none, it)
  elems it inElems := do
    let inElems ← elems it.iter inElems
    some (if 0 < inElems % it.chunkSize then 1 + inElems / it.chunkSize
      else inElems / it.chunkSize)
  advanceIndex it count := { it with curI := min (it.curI + count) it.endI }
  size it := it.endI - it.curI
  len it := len it.iter
  iteratorIndex it index := iteratorIndex it.iter index
  initFits it startI cnt :=
    decide (startI + cnt < word) && decide ((startI + cnt) * it.chunkSize < word) &&
      initFits it.iter (startI * it.chunkSize) ((startI + cnt) * it.chunkSize)
  nextFits it :=
    decide (it.endI ≤ it.curI) ||
      decide (it.curI * it.chunkSize < word) &&
        rangeFits it.iter (it.curI * it.chunkSize) it.chunkSize
  advanceFits it count := decide (it.curI + count < word)
  indexFits it index := indexFits it.iter index

/-! ## Adaptors that lose the index -/

structure Map (I α β : Type) where
  iter : I
  f : α → β

instance [LocalIterator I α] : LocalIterator (Map I α β) β where
  init it startI cnt := { it with iter := init it.iter startI cnt }
  next it :=
    let (val, iter) := next it.iter
    (val.map it.f, { it with iter })
  elems it inElems := elems it.iter inElems
  advanceIndex it count := { it with iter := advanceIndex it.iter count }
  size it := size it.iter
  len it := len it.iter
  initFits it startI cnt := initFits it.iter startI cnt
  nextFits it := nextFits it.iter
  advanceFits it count := advanceFits it.iter count

structure Filter (I α : Type) where
  iter : I
  f : α → Bool

instance [LocalIterator I α] : LocalIterator (Filter I α) α where
  init it startI cnt := { it with iter := init it.iter startI cnt }
  next it :=
    let (val, iter) := nextSome next (fun a => if it.f a then some a else none) (size it.iter)
      it.iter
    (val, { it with iter })
  elems it inElems := elems it.iter inElems
  advanceIndex it count := { it with iter := advanceIndex it.iter count }
  size it := size it.iter
  len it := len it.iter
  initFits it startI cnt := initFits it.iter startI cnt
  nextFits it := along next (fun o => o.all it.f) nextFits (size it.iter) it.iter
  advanceFits it count := advanceFits it.iter count

structure FilterMap (I α β : Type) where
  iter : I
  f : α → Option β

instance [LocalIterator I α] : LocalIterator (FilterMap I α β) β where
  init it startI cnt := { it with iter := init it.iter startI cnt }
  next it :=
    let (val, iter) := nextSome next it.f (size it.iter) it.iter
    (val, { it with iter })
  elems it inElems := elems it.iter inElems
  advanceIndex it count := { it with iter := advanceIndex it.iter count }
  size it := size it.iter
  len it := len it.iter
  initFits it startI cnt := initFits it.iter startI cnt
  nextFits it :=
    along next (fun o => o.all fun a => (it.f a).isSome) nextFits (size it.iter) it.iter
  advanceFits it count := advanceFits it.iter count

end Adaptors

end Lamellar.LocalIterator
