import Lamellar.Array.ElementLocks
import Lamellar.Lib.ReadModifyWrite

/-!
# The commands of a batch

What the code generated by `create_buf_ops` of `impl/src/array_ops.rs` does with one element: the
value that it stores, and the value that it pushes to the results. On a `NativeAtomicArray` some
commands are one atomic instruction, the others a loop around `compare_exchange`; on the other
arrays the element, the PE or the whole array is locked meanwhile.

An operator of the element type may panic, and the execution with it. The instructions of the
atomics do not.
-/

namespace Lamellar.BatchOps

open Lamellar.Array ReadModifyWrite

variable {T : Type}

/-- The operators of `ElementOps`, `ElementArithmeticOps` and the other traits of elements, none
where they panic: a division by zero, or an overflow in a build that checks. `fetchAdd` and its like
are what the atomics store. -/
class ElementOps (T : Type) extends LT T where
  add : T → T → Option T
  sub : T → T → Option T
  mul : T → T → Option T
  div : T → T → Option T
  rem : T → T → Option T
  and : T → T → Option T
  or : T → T → Option T
  xor : T → T → Option T
  shl : T → T → Option T
  shr : T → T → Option T
  fetchAdd : T → T → T
  fetchSub : T → T → T
  fetchAnd : T → T → T
  fetchOr : T → T → T
  fetchXor : T → T → T

/-- The unsigned integers in a build that does not check for overflow -/
instance instElementOpsBitVec (w : ℕ) : ElementOps (BitVec w) where
  add x y := some (x + y)
  sub x y := some (x - y)
  mul x y := some (x * y)
  div x y := if y = 0 then none else some (x / y)
  rem x y := if y = 0 then none else some (x % y)
  and x y := some (x &&& y)
  or x y := some (x ||| y)
  xor x y := some (x ^^^ y)
  shl x n := some (x <<< (n.toNat % w))
  shr x n := some (x >>> (n.toNat % w))
  fetchAdd x y := x + y
  fetchSub x y := x - y
  fetchAnd x y := x &&& y
  fetchOr x y := x ||| y
  fetchXor x y := x ^^^ y

inductive ArrayOpCmd (T : Type) where
  | add
  | fetchAdd
  | sub
  | fetchSub
  | mul
  | fetchMul
  | div
  | fetchDiv
  | rem
  | fetchRem
  | and
  | fetchAnd
  | or
  | fetchOr
  | xor
  | fetchXor
  | store
  | load
  | swap
  | put
  | get
  | compareExchange (old : T)
  | compareExchangeEps (old eps : T)
  | shl
  | fetchShl
  | shr
  | fetchShr

inductive BatchReturnType where
  | none
  | vals
  | result

/-- What a message returns for each of its elements -/
abbrev BatchReturnType.Ret (T : Type) : BatchReturnType → Type
  | .none => Unit
  | .vals => T
  | .result => Except T T

/-- The arrays whose operations are not `unsafe` -/
inductive ArrayKind where
  | nativeAtomic
  | genericAtomic
  | localLock
  | globalLock
  | readOnly
  deriving DecidableEq

/-- The code for one element: the value it stores, none if it panics, and the result it pushes, by
the value of the operation and that of the element. `atomic` tells whether it is one instruction on
the atomics. -/
structure ElementCode (T R : Type) where
  new : T → T → Option T
  res : T → T → R
  atomic : Bool

namespace ArrayOpCmd

section Table

variable [ElementOps T] [DecidableEq T] [DecidableLT T]

/-- `elem op= val`: an instruction of the atomics, or the operator -/
def assign (kind : ArrayKind) (fetch : T → T → T) (operator : T → T → Option T) (val cur : T) :
    Option T :=
  if kind = .nativeAtomic then some (fetch cur val) else operator cur val

/-- The commands that return nothing; `none` is the `unreachable!`. -/
def update (kind : ArrayKind) : ArrayOpCmd T → Option (ElementCode T Unit)
  | .add => some ⟨assign kind ElementOps.fetchAdd ElementOps.add, fun _ _ => (), true⟩
  | .sub => some ⟨assign kind ElementOps.fetchSub ElementOps.sub, fun _ _ => (), true⟩
  | .mul => some ⟨fun val cur => ElementOps.mul cur val, fun _ _ => (), false⟩
  | .div => some ⟨fun val cur => ElementOps.div cur val, fun _ _ => (), false⟩
  | .rem => some ⟨fun val cur => ElementOps.rem cur val, fun _ _ => (), false⟩
  | .put => some ⟨fun val _ => some val, fun _ _ => (), true⟩
  | .and => some ⟨assign kind ElementOps.fetchAnd ElementOps.and, fun _ _ => (), true⟩
  | .or => some ⟨assign kind ElementOps.fetchOr ElementOps.or, fun _ _ => (), true⟩
  | .xor => some ⟨assign kind ElementOps.fetchXor ElementOps.xor, fun _ _ => (), true⟩
  | .store => some ⟨fun val _ => some val, fun _ _ => (), true⟩
  | .shl => some ⟨fun val cur => ElementOps.shl cur val, fun _ _ => (), false⟩
  | .shr => some ⟨fun val cur => ElementOps.shr cur val, fun _ _ => (), false⟩
  | _ => none

/-- The commands that return the value before -/
def fetch (kind : ArrayKind) : ArrayOpCmd T → Option (ElementCode T T)
  | .fetchAdd => some ⟨assign kind ElementOps.fetchAdd ElementOps.add, fun _ cur => cur, true⟩
  | .fetchSub => some ⟨assign kind ElementOps.fetchSub ElementOps.sub, fun _ cur => cur, true⟩
  | .fetchMul => some ⟨fun val cur => ElementOps.mul cur val, fun _ cur => cur, false⟩
  | .fetchDiv => some ⟨fun val cur => ElementOps.div cur val, fun _ cur => cur, false⟩
  | .fetchRem => some ⟨fun val cur => ElementOps.rem cur val, fun _ cur => cur, false⟩
  | .get => some ⟨fun _ cur => some cur, fun _ cur => cur, true⟩
  | .fetchAnd => some ⟨assign kind ElementOps.fetchAnd ElementOps.and, fun _ cur => cur, true⟩
  | .fetchOr => some ⟨assign kind ElementOps.fetchOr ElementOps.or, fun _ cur => cur, true⟩
  | .fetchXor => some ⟨assign kind ElementOps.fetchXor ElementOps.xor, fun _ cur => cur, true⟩
  | .swap => some ⟨fun val _ => some val, fun _ cur => cur, false⟩
  | .load => some ⟨fun _ cur => some cur, fun _ cur => cur, true⟩
  | .fetchShl => some ⟨fun val cur => ElementOps.shl cur val, fun _ cur => cur, false⟩
  | .fetchShr => some ⟨fun val cur => ElementOps.shr cur val, fun _ cur => cur, false⟩
  | _ => none

/-- Whether `compare_exchange_epsilon` takes the value of an element that is locked -/
def same (old eps cur : T) : Option Bool :=
  if cur < old then (ElementOps.sub old cur).map fun d => d < eps
  else (ElementOps.sub cur old).map fun d => d < eps

/-- The commands that return a `Result`. The loop of `compare_exchange_epsilon` on native atomics
is not a change of the value that it finds: its result depends on the accesses before. -/
def result (kind : ArrayKind) : ArrayOpCmd T → Option (ElementCode T (Except T T))
  | .compareExchange old =>
    some ⟨fun val cur => some (if old = cur then val else cur),
      fun _ cur => if old = cur then .ok old else .error cur, true⟩
  | .compareExchangeEps old eps =>
    if kind = .nativeAtomic then none
    else
      some ⟨fun val cur => (same old eps cur).map fun s => if s then val else cur,
        fun _ cur => if same old eps cur = some true then .ok old else .error cur, false⟩
  | _ => none

/-- The code of a command. The other commands panic on a `ReadOnlyArray`. -/
def code (kind : ArrayKind) :
    (ret : BatchReturnType) → ArrayOpCmd T → Option (ElementCode T (ret.Ret T))
  | .none, cmd => if kind = .readOnly then none else cmd.update kind
  | .vals, .load => fetch kind .load
  | .vals, cmd => if kind = .readOnly then none else cmd.fetch kind
  | .result, cmd => if kind = .readOnly then none else cmd.result kind

end Table

end ArrayOpCmd

/-! ## Elements and locks -/

/-- An array on which operations are done, with the number of mutexes that a `GenericAtomicArray`
has on each PE -/
structure OpArray where
  inner : UnsafeArrayInner
  kind : ArrayKind
  locks : ℕ → ℕ

/-- What is locked for an operation -/
inductive ElementLock where
  /-- The mutex at this position on the PE -/
  | element (pe index : ℕ)
  /-- The `LocalRwDarc` of the PE -/
  | onPe (pe : ℕ)
  /-- The `GlobalRwDarc` -/
  | global
  deriving DecidableEq

/-- The lock for the element at a position in the memory of a PE -/
def ArrayKind.lockOf : ArrayKind → ℕ × ℕ → Option ElementLock
  | .nativeAtomic, _ => none
  | .genericAtomic, (pe, slot) => some (.element pe slot)
  | .localLock, (pe, _) => some (.onPe pe)
  | .globalLock, _ => some .global
  | .readOnly, _ => none

namespace OpArray

/-- A `GenericAtomicArray` has a mutex for every local element. -/
structure WellFormed (arr : OpArray) (len : ℕ) : Prop where
  inner : arr.inner.WellFormed len
  locks : arr.kind = .genericAtomic → ∀ pe < arr.inner.numPes, ∀ j < arr.inner.numElemsPe pe,
    (arr.inner.onPe pe).localAsMutPtr + j < arr.locks pe

/-- `lock_index(index)` on the PE, if the array has mutexes; the outer `none` is a panic. -/
def lockIndex (arr : OpArray) (pe index : ℕ) : Option (Option ElementLock) :=
  if arr.kind = .genericAtomic then
    (UnsafeArrayInner.lockIndex (arr.locks pe) (arr.inner.onPe pe) index).map
      fun i => some (.element pe i)
  else some none

/-- Where `slice[index]` of the local slice on the PE is, after `lock_index(index)`. None where one
of them panics. -/
def element (arr : OpArray) (pe index : ℕ) : Option (ℕ × ℕ) := do
  let _ ← arr.lockIndex pe index
  let (start, stop) ← (arr.inner.onPe pe).localAsMutSlice
  if start + index < stop then some (pe, start + index) else none

variable {arr : OpArray} {len pe j : ℕ}

/-- The views of an array that has been made a `GenericAtomicArray` -/
theorem wellFormed_of_locksExact {a b : UnsafeArrayInner} (h : b.WellFormed len)
    (ha : b.IsViewOf a) (hlocks : ∀ pe < b.numPes, UnsafeArrayInner.LocksExact b pe) :
    OpArray.WellFormed ⟨a, .genericAtomic, fun pe => (b.onPe pe).newLocks⟩ len where
  inner := ha.wellFormed h
  locks _ pe hpe j hj := by
    have hsome := (hlocks pe (ha.numPes_eq ▸ hpe)).isSome a ha j hj
    rw [UnsafeArrayInner.lockIndex_eq (ha.wellFormed h) hpe hj] at hsome
    split at hsome
    · assumption
    · cases hsome

theorem element_fst {cell : ℕ × ℕ} (h : arr.element pe j = some cell) : cell.1 = pe := by
  obtain ⟨lock, hlock, h⟩ := Option.bind_eq_some_iff.mp h
  obtain ⟨⟨start, stop⟩, hslice, h⟩ := Option.bind_eq_some_iff.mp h
  obtain ⟨-, h⟩ := Option.ite_none_right_eq_some.mp h
  exact congrArg Prod.fst (Option.some.inj h).symm

end OpArray

end Lamellar.BatchOps
