import Lamellar.Lib.StandardIter
import Lamellar.Lib.Word

/-!
# The one-sided iterators of `src/array/iterator/one_sided_iterator`

A one-sided iterator runs over a whole array on one PE. `OneSidedIter` fills a buffer with
`internal_get` and hands out references into it; `chunks` gets every chunk into a memory region
of its own. What a reference stands for is read when the call that handed it out has returned,
so `next` gives a `Ref` and `deref` its value as the buffers are then.

`none` is a panic, or a reference outside the part of the buffer that a get has filled. `usize`
is read as `ℕ`; beside `next` and `advance_index` stands the test that their sums and products are
words (`InRange`): if not, a build with overflow checks panics, and one without them goes on with
another number. The arrays of a `zip` have one type `T` of elements.
-/

namespace Lamellar.OneSidedIterator

variable {T : Type}

/-- What `LamellarArrayInternalGet` shows of an array. `internalGet index m` gives the elements
that a get places in a buffer of `m` elements, from its first slot on; `none` means that it does
not return. A get inside the array places the elements asked for, and an empty one at the end
returns. -/
structure InternalGet (T : Type) where
  elems : List T
  internalGet : ℕ → ℕ → Option (List T)
  internalGet_eq : ∀ {index m : ℕ}, 0 < m → index + m ≤ elems.length →
    internalGet index m = some ((elems.drop index).take m)
  internalGet_end : 0 < elems.length → internalGet elems.length 0 = some []
  length_le : ∀ {index m : ℕ} {vals : List T}, internalGet index m = some vals → vals.length ≤ m

def InternalGet.len (array : InternalGet T) : ℕ := array.elems.length

/-! ## The array -/

/-- `OneSidedIter`; the slots of the buffer that nothing was placed in yet are `none`. -/
structure OneSidedIter (T : Type) where
  array : InternalGet T
  buf0 : List (Option T)
  index : ℕ
  bufIndex : ℕ

/-- A get places its elements from the first slot on. -/
def fill (buf : List (Option T)) (vals : List T) : List (Option T) :=
  vals.map some ++ buf.drop vals.length

namespace OneSidedIter

def new (array : InternalGet T) (bufSize : ℕ) : Option (OneSidedIter T) := do
  let vals ← array.internalGet 0 bufSize
  some { array, buf0 := fill (List.replicate bufSize none) vals, index := 0, bufIndex := 0 }

/-- The get of new data, the same in `next` and in `advance_index`. -/
def getNewData (it : OneSidedIter T) : Option (OneSidedIter T) := do
  if it.index + it.buf0.length < it.array.len then
    let vals ← it.array.internalGet it.index it.buf0.length
    some { it with buf0 := fill it.buf0 vals, bufIndex := 0 }
  else if it.index ≤ it.array.len then
    let vals ← it.array.internalGet it.index (it.array.len - it.index)
    some { it with buf0 := fill it.buf0 vals, bufIndex := 0 }
  -- `self.array.len() - self.index` underflows, or wraps and is no range of the buffer
  else none

def next (it : OneSidedIter T) : Option (Option ℕ × OneSidedIter T) :=
  if it.index < it.array.len then do
    let it ← (if it.bufIndex = it.buf0.length then it.getNewData else some it)
    let slot := it.bufIndex
    let _ ← it.buf0[slot]?.join
    some (some slot, { it with index := it.index + 1, bufIndex := it.bufIndex + 1 })
  else some (none, it)

def advanceIndex (it : OneSidedIter T) (count : ℕ) : Option (OneSidedIter T) :=
  let it := { it with index := it.index + count, bufIndex := it.bufIndex + count }
  if it.bufIndex = it.buf0.length then it.getNewData else some it

def nextInRange (it : OneSidedIter T) : Bool :=
  decide (it.index < it.array.len → it.bufIndex = it.buf0.length →
    it.index + it.buf0.length < word)

def advanceInRange (it : OneSidedIter T) (count : ℕ) : Bool :=
  decide (it.index + count < word ∧ it.bufIndex + count < word ∧
    (it.bufIndex + count = it.buf0.length → it.index + count + it.buf0.length < word))

end OneSidedIter

/-! ## The adaptors -/

/-- A one-sided iterator: the array's, or `Skip`, `StepBy`, `Zip` and `Chunks` over others. -/
inductive Iter (T : Type) where
  | oneSided (it : OneSidedIter T)
  | skip (iter : Iter T)
  | stepBy (iter : Iter T) (stepSize : ℕ)
  | zip (a b : Iter T)
  | chunks (iter : Iter T) (index chunkSize : ℕ)

/-- What `next` hands out: a reference into a buffer, a pair, or a memory region. -/
inductive Ref (T : Type) where
  | slot (i : ℕ)
  | pair (a b : Ref T)
  | region (vals : List T)

/-- The values of the items -/
inductive Item (T : Type) where
  | elem (x : T)
  | pair (a b : Item T)
  | chunk (items : List (Item T))

namespace Iter

def array : Iter T → InternalGet T
  | .oneSided it => it.array
  | .skip iter => iter.array
  | .stepBy iter _ => iter.array
  | .zip a _ => a.array
  | .chunks iter _ _ => iter.array

def advanceIndex : Iter T → ℕ → Option (Iter T)
  | .oneSided it, count => (it.advanceIndex count).map .oneSided
  | .skip iter, count => (iter.advanceIndex count).map .skip
  | .stepBy iter stepSize, count => do
    let iter ← iter.advanceIndex (count * stepSize)
    some (.stepBy iter stepSize)
  | .zip a b, count => do
    let a ← a.advanceIndex count
    let b ← b.advanceIndex count
    some (.zip a b)
  | .chunks iter index chunkSize, count => some (.chunks iter (index + count * chunkSize) chunkSize)

def next : Iter T → Option (Option (Ref T) × Iter T)
  | .oneSided it => do
    let (slot, it) ← it.next
    some (slot.map .slot, .oneSided it)
  | .skip iter => do
    let (ref, iter) ← iter.next
    some (ref, .skip iter)
  | .stepBy iter stepSize => do
    let (ref, iter) ← iter.next
    match ref with
    | none => some (none, .stepBy iter stepSize)
    | some ref => do
      let iter ← iter.advanceIndex (stepSize - 1)
      some (some ref, .stepBy iter stepSize)
  | .zip a b => do
    let (refA, a) ← a.next
    match refA with
    | none => some (none, .zip a b)
    | some refA => do
      let (refB, b) ← b.next
      match refB with
      | none => some (none, .zip a b)
      | some refB => some (some (.pair refA refB), .zip a b)
  | .chunks iter index chunkSize =>
    if index < iter.array.len then do
      let size := min chunkSize (iter.array.len - index)
      let vals ← iter.array.internalGet index size
      some (some (.region vals), .chunks iter (index + size) chunkSize)
    else some (none, .chunks iter index chunkSize)

/-- The sums and products of `advance_index` are words. -/
def advanceInRange : Iter T → ℕ → Bool
  | .oneSided it, count => it.advanceInRange count
  | .skip iter, count => iter.advanceInRange count
  | .stepBy iter stepSize, count =>
    decide (count * stepSize < word) && iter.advanceInRange (count * stepSize)
  | .zip a b, count => a.advanceInRange count && b.advanceInRange count
  | .chunks _ index chunkSize, count => decide (index + count * chunkSize < word)

/-- The sums and products of `next` are words. -/
def nextInRange : Iter T → Bool
  | .oneSided it => it.nextInRange
  | .skip iter => iter.nextInRange
  | .stepBy iter stepSize =>
    iter.nextInRange &&
      match iter.next with
      | some (some _, iter) => iter.advanceInRange (stepSize - 1)
      | _ => true
  | .zip a b =>
    a.nextInRange &&
      match a.next with
      | some (some _, _) => b.nextInRange
      | _ => true
  | .chunks _ _ _ => true

/-- The value of what the last call of `next` handed out -/
def deref : Iter T → Ref T → Option (Item T)
  | .oneSided it, .slot i => do
    let x ← it.buf0[i]?.join
    some (.elem x)
  | .skip iter, ref => iter.deref ref
  | .stepBy iter _, ref => iter.deref ref
  | .zip a b, .pair refA refB => do
    let x ← a.deref refA
    let y ← b.deref refB
    some (.pair x y)
  | .chunks _ _ _, .region vals => some (.chunk (vals.map .elem))
  | _, _ => none

/-- The items, each read before the next one is asked for, within `fuel` calls. -/
def collect : ℕ → Iter T → Option (List (Item T))
  | 0, _ => none
  | fuel + 1, it => do
    let (ref, it) ← it.next
    match ref with
    | none => some []
    | some ref => do
      let x ← it.deref ref
      let xs ← collect fuel it
      some (x :: xs)

def collectInRange : ℕ → Iter T → Bool
  | 0, _ => true
  | fuel + 1, it =>
    it.nextInRange &&
      match it.next with
      | some (some _, it) => collectInRange fuel it
      | _ => true

end Iter

/-! ## Chains -/

/-- The iterators that a program can build. -/
inductive Chain (T : Type) where
  | onesidedIter (array : InternalGet T)
  | bufferedOnesidedIter (array : InternalGet T) (bufSize : ℕ) (pos : 0 < bufSize)
  | skip (c : Chain T) (count : ℕ)
  | stepBy (c : Chain T) (stepSize : ℕ) (pos : 0 < stepSize)
  | zip (c d : Chain T)
  | chunks (c : Chain T) (chunkSize : ℕ) (pos : 0 < chunkSize)

namespace Chain

/-- The iterator of the source; `Skip::new` calls `advance_index`. -/
def build : Chain T → Option (Iter T)
  | .onesidedIter array => (OneSidedIter.new array 1).map .oneSided
  | .bufferedOnesidedIter array bufSize _ =>
    (OneSidedIter.new array (min bufSize array.len)).map .oneSided
  | .skip c count => do
    let iter ← c.build
    let iter ← iter.advanceIndex count
    some (.skip iter)
  | .stepBy c stepSize _ => do
    let iter ← c.build
    some (.stepBy iter stepSize)
  | .zip c d => do
    let a ← c.build
    let b ← d.build
    some (.zip a b)
  | .chunks c chunkSize _ => do
    let iter ← c.build
    some (.chunks iter 0 chunkSize)

def buildInRange : Chain T → Bool
  | .onesidedIter _ => true
  | .bufferedOnesidedIter _ _ _ => true
  | .skip c count => c.buildInRange && (c.build).all fun iter => iter.advanceInRange count
  | .stepBy c _ _ => c.buildInRange
  | .zip c d => c.buildInRange && d.buildInRange
  | .chunks c _ _ => c.buildInRange

/-- The items of the standard chain on the sequences of elements. -/
def items : Chain T → List (Item T)
  | .onesidedIter array => array.elems.map .elem
  | .bufferedOnesidedIter array _ _ => array.elems.map .elem
  | .skip c count => c.items.drop count
  | .stepBy c stepSize _ => StandardIter.stepBy stepSize c.items
  | .zip c d => List.zipWith .pair c.items d.items
  | .chunks c chunkSize _ => (StandardIter.chunks chunkSize c.items).map .chunk

def collect (c : Chain T) (fuel : ℕ) : Option (List (Item T)) := do
  let it ← c.build
  it.collect fuel

/-- The sums and products are words when the iterator is built and all its items are asked for. -/
def InRange (c : Chain T) : Prop :=
  c.buildInRange ∧ ∀ it, c.build = some it → ∀ fuel, it.collectInRange fuel

end Chain

end Lamellar.OneSidedIterator
