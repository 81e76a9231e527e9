import Lamellar.Array.LocalIndex
import Lamellar.Lib.StandardIter
import Lamellar.Lib.Word

/-!
# The pieces of a batch: `as_op_input` of `src/array/operations.rs`

The input of a batched operation, a slice, a vector or the local data of an array, is cut into
`num` pieces of the same length and one more with what is left. Whether something is left is
decided by the remainder modulo the length of a piece, not modulo the number of pieces: that
drops the end of the input where the length of a piece divides the length of the input and the
number of pieces does not (`end_dropped`).

The elements of an atomic array are loaded when an operation uses them: such an input is the
sequence of the local indices it stands for.
-/

namespace Lamellar.BatchOps

open Lamellar.Array

/-- The environment variables `LAMELLAR_BATCH_OP_THREADS` and `LAMELLAR_THREADS` -/
structure Env where
  batchOpThreads : Option ℕ
  threads : Option ℕ

/-- The number of pieces. -/
def Env.num (env : Env) (len : ℕ) : ℕ :=
  if len < 1000 then 1
  else
    match env.batchOpThreads with
    | some n => n
    | none =>
      match env.threads with
      | some n => max 1 (n / 4)
      | none => 4

/-- A handle of an array on one of its PEs. -/
structure Handle where
  inner : UnsafeArrayInner
  wellFormed : ∃ len, inner.WellFormed len
  myPe_lt : inner.myPe < inner.numPes

/-- `NativeAtomicLocalData` and `GenericAtomicLocalData` -/
structure AtomicLocalData where
  array : Handle
  startIndex : ℕ
  endIndex : ℕ

/-- `LocalLockLocalData` and `GlobalLockLocalData` -/
structure LockLocalData (T : Type) where
  array : Handle
  data : List T
  length_le : data.length ≤ array.inner.numElemsLocal

/-- `&s[start..stop]` -/
def slice {T : Type} (s : List T) (start stop : ℕ) : Option (List T) :=
  if start ≤ stop ∧ stop ≤ s.length then some ((s.drop start).take (stop - start)) else none

namespace AtomicLocalData

/-- What `local_data` and `sub_data` return -/
structure Valid (d : AtomicLocalData) : Prop where
  endIndex_le : d.endIndex ≤ d.array.inner.numElemsLocal
  startIndex_lt : d.startIndex < word

/-- The indices that `iter` goes through. -/
def indices (d : AtomicLocalData) : List ℕ := List.range' d.startIndex (d.endIndex - d.startIndex)

/-- `sub_data`: the bounds are those of the array, wherever `d` begins. -/
def subData (d : AtomicLocalData) (start stop : ℕ) : AtomicLocalData where
  array := d.array
  startIndex := start
  endIndex := min stop d.array.inner.numElemsLocal

/-- `len` of `NativeAtomicLocalData` -/
def nativeLen (build : Build) (d : AtomicLocalData) : Option ℕ :=
  build.sub d.endIndex d.startIndex

/-- `len` of `GenericAtomicLocalData`: of all local data -/
def genericLen (d : AtomicLocalData) : Option ℕ :=
  d.array.inner.localAsMutSlice.map fun (start, stop) => stop - start

end AtomicLocalData

/-- `local_data` of both atomic arrays -/
def Handle.localData (array : Handle) : AtomicLocalData := ⟨array, 0, array.inner.numElemsLocal⟩

/-- `into_sub_data` -/
def LockLocalData.intoSubData {T : Type} (d : LockLocalData T) (start stop : ℕ) :
    Option (LockLocalData T) :=
  if start ≤ stop ∧ stop ≤ d.data.length then
    some
      { array := d.array
        data := (d.data.drop start).take (stop - start)
        length_le := by
          rw [List.length_take, List.length_drop]
          have := d.length_le
          omega }
  else none

inductive OpInputEnum (T : Type) where
  | val (v : T)
  | slice (s : List T)
  | vec (v : List T)
  | nativeAtomicLocalData (d : AtomicLocalData)
  | genericAtomicLocalData (d : AtomicLocalData)
  | localLockLocalData (d : LockLocalData T)
  | globalLockLocalData (d : LockLocalData T)

/-- The elements, in order: values, or the local indices that are loaded. -/
def OpInputEnum.elements {T : Type} : OpInputEnum T → List (T ⊕ ℕ)
  | .val v => [.inl v]
  | .slice s | .vec s => s.map .inl
  | .nativeAtomicLocalData d | .genericAtomicLocalData d => d.indices.map .inr
  | .localLockLocalData d | .globalLockLocalData d => d.data.map .inl

/-- What implements `OpInput` -/
inductive Input (T : Type) where
  /-- `T` and `&T` -/
  | val (v : T)
  | slice (s : List T)
  | sliceMut (s : List T)
  | vecRef (v : List T)
  | vecMut (v : List T)
  | vec (v : List T)
  /-- `&mut dyn Iterator`, with the items it has left -/
  | iterator (items : List T)
  | localLock (d : LockLocalData T)
  | globalLock (d : LockLocalData T)
  | nativeAtomic (d : AtomicLocalData) (hd : d.Valid)
  | genericAtomic (d : AtomicLocalData) (hd : d.Valid)
  /-- `AtomicLocalData` of a `NativeAtomicArray` -/
  | atomicOfNative (array : Handle)
  /-- `AtomicLocalData` of a `GenericAtomicArray` -/
  | atomicOfGeneric (array : Handle)

def Input.elements {T : Type} : Input T → List (T ⊕ ℕ)
  | .val v => [.inl v]
  | .slice s | .sliceMut s | .vecRef s | .vecMut s | .vec s | .iterator s => s.map .inl
  | .localLock d | .globalLock d => d.data.map .inl
  | .nativeAtomic d _ | .genericAtomic d _ => d.indices.map .inr
  | .atomicOfNative array | .atomicOfGeneric array => array.localData.indices.map .inr

section

variable {P T : Type}

/-- `for i in 0..num`: the pieces of the same length -/
def fullPieces (piece : ℕ → ℕ → Option P) (numPerBatch : ℕ) : ℕ → Option (List P)
  | 0 => some []
  | i + 1 => do
    let iters ← fullPieces piece numPerBatch i
    let temp ← piece (i * numPerBatch) ((i + 1) * numPerBatch)
    some (iters ++ [temp])

/-- The pieces of an input that is not empty, made by `piece`; none where a division by zero or
`piece` panics. -/
def pieces (env : Env) (len : ℕ) (piece : ℕ → ℕ → Option P) : Option (List P) :=
  let num := env.num len
  if num = 0 then none
  else
    let numPerBatch := len / num
    match fullPieces piece numPerBatch num with
    | some iters =>
      if numPerBatch = 0 then none
      else
        let rem := len % numPerBatch
        if 0 < rem then (piece (num * numPerBatch) len).map fun temp => iters ++ [temp]
        else some iters
    | none => none

/-- `as_op_input` of `&[T]`; that of `&mut [T]` is the same. -/
def sliceAsOpInput (env : Env) (s : List T) : Option (List (OpInputEnum T) × ℕ) :=
  let len := s.length
  if len = 0 then some ([], len)
  else
    (pieces env len fun start stop => (slice s start stop).map .slice).map fun iters => (iters, len)

/-- `as_op_input` of `Vec<T>`. `chunks` panics if it is to make pieces of length zero. -/
def vecAsOpInput (env : Env) (v : List T) : Option (List (OpInputEnum T) × ℕ) :=
  let len := v.length
  if len = 0 then some ([], len)
  else
    let num := env.num len
    if num = 0 then none
    else
      let numPerBatch := len / num
      if numPerBatch = 0 then none
      else some ((StandardIter.chunks numPerBatch v).map .vec, len)

/-- The array-backed inputs: nothing is cut if the array has nothing on this PE. -/
def localAsOpInput (env : Env) (array : Handle) (len : ℕ)
    (piece : ℕ → ℕ → Option (OpInputEnum T)) : Option (List (OpInputEnum T) × ℕ) :=
  if len = 0 then some ([], len)
  else
    match array.inner.startIndexForPe array.inner.myPe with
    | some _ => (pieces env len piece).map fun iters => (iters, len)
    | none => some ([], len)

/-- None where it panics. -/
def asOpInput (build : Build) (env : Env) : Input T → Option (List (OpInputEnum T) × ℕ)
  | .val v => some ([.val v], 1)
  | .slice s | .sliceMut s | .vecRef s | .vecMut s => sliceAsOpInput env s
  | .vec v | .iterator v => vecAsOpInput env v
  | .localLock d => localAsOpInput env d.array d.data.length fun start stop =>
    (d.intoSubData start stop).map .localLockLocalData
  | .globalLock d => localAsOpInput env d.array d.data.length fun start stop =>
    (d.intoSubData start stop).map .globalLockLocalData
  | .nativeAtomic d _ => do
    let len ← d.nativeLen build
    localAsOpInput env d.array len fun start stop =>
      some (.nativeAtomicLocalData (d.subData start stop))
  | .genericAtomic d _ => do
    let len ← d.genericLen
    localAsOpInput env d.array len fun start stop =>
      some (.genericAtomicLocalData (d.subData start stop))
  | .atomicOfNative array => do
    let len ← array.localData.nativeLen build
    localAsOpInput env array len fun start stop =>
      some (.nativeAtomicLocalData (array.localData.subData start stop))
  | .atomicOfGeneric array => do
    let len ← array.localData.genericLen
    localAsOpInput env array len fun start stop =>
      some (.genericAtomicLocalData (array.localData.subData start stop))

/-! ## The pieces -/

/-- The number of elements that the pieces contain. -/
def kept (num len : ℕ) : ℕ := if 0 < len % (len / num) then len else num * (len / num)

/-- Nothing is dropped: the length of a piece divides the length of the input only if the number
of pieces does. -/
def Splits (num len : ℕ) : Prop := num ≤ len ∧ (len / num ∣ len → num ∣ len)

theorem kept_le (num len : ℕ) : kept num len ≤ len := by
  unfold kept
  split
  · exact Nat.le_refl len
  · exact Nat.mul_div_le len num

theorem kept_eq_iff {num len : ℕ} (hle : num ≤ len) : kept num len = len ↔ Splits num len := by
  unfold kept Splits
  by_cases hdvd : len / num ∣ len
  · have hrem : len % (len / num) = 0 := Nat.mod_eq_zero_of_dvd hdvd
    rw [if_neg (by omega), Nat.mul_div_eq_iff_dvd]
    exact ⟨fun h => ⟨hle, fun _ => h⟩, fun h => h.2 hdvd⟩
  · have hrem : len % (len / num) ≠ 0 := fun h => hdvd (Nat.dvd_of_mod_eq_zero h)
    rw [if_pos (by omega)]
    exact ⟨fun _ => ⟨hle, fun h => absurd h hdvd⟩, fun _ => rfl⟩

variable {E : Type} {elements : P → List E} {piece : ℕ → ℕ → Option P} {l : List E} {env : Env}

/-- `piece` makes the piece of the elements `l` between two positions. -/
def Cuts (elements : P → List E) (piece : ℕ → ℕ → Option P) (l : List E) : Prop :=
  ∀ start stop, start ≤ stop → stop ≤ l.length →
    ∃ p, piece start stop = some p ∧ elements p = (l.drop start).take (stop - start)

theorem fullPieces_spec (h : Cuts elements piece l) {numPerBatch n : ℕ}
    (hle : n * numPerBatch ≤ l.length) :
    ∃ iters, fullPieces piece numPerBatch n = some iters ∧
      iters.flatMap elements = l.take (n * numPerBatch) := by
  induction n with
  | zero => exact ⟨[], rfl, by simp⟩
  | succ n ih =>
    rw [Nat.succ_mul] at hle
    obtain ⟨iters, hiters, hflat⟩ := ih (by omega)
    obtain ⟨p, hp, helem⟩ := h (n * numPerBatch) ((n + 1) * numPerBatch)
      (Nat.mul_le_mul_right _ (Nat.le_succ n)) (by rw [Nat.succ_mul]; exact hle)
    refine ⟨iters ++ [p], by simp [fullPieces, hiters, hp], ?_⟩
    rw [List.flatMap_append, hflat, List.flatMap_singleton, helem, Nat.succ_mul,
      Nat.add_sub_cancel_left, List.take_add]

theorem pieces_spec (h : Cuts elements piece l) (hnum : 0 < env.num l.length)
    (hle : env.num l.length ≤ l.length) :
    ∃ iters, pieces env l.length piece = some iters ∧
      iters.flatMap elements = l.take (kept (env.num l.length) l.length) := by
  have hbatch : 0 < l.length / env.num l.length := Nat.div_pos hle hnum
  have hmul := Nat.mul_div_le l.length (env.num l.length)
  obtain ⟨iters, hiters, hflat⟩ := fullPieces_spec h hmul
  unfold pieces kept
  simp only [if_neg (Nat.ne_of_gt hnum), if_neg (Nat.ne_of_gt hbatch), hiters]
  split
  · obtain ⟨p, hp, helem⟩ := h (env.num l.length * (l.length / env.num l.length)) l.length hmul
      (Nat.le_refl _)
    refine ⟨iters ++ [p], by rw [hp]; rfl, ?_⟩
    rw [List.flatMap_append, hflat, List.flatMap_singleton, helem, List.take_of_length_le
      (Nat.le_of_eq (List.length_drop ..)), List.take_append_drop, List.take_length]
  · exact ⟨iters, rfl, hflat⟩

/-- More pieces than elements: the remainder is one by zero. -/
theorem pieces_eq_none {len : ℕ} (hlt : len < env.num len) : pieces env len piece = none := by
  unfold pieces
  simp only [Nat.div_eq_of_lt hlt, if_true]
  split
  · rfl
  · split <;> rfl

end

/-! ## The inputs -/

variable {T : Type} {env : Env} {build : Build}

/-- Nothing is lost: the pieces are the input, and the length is that of the input. -/
def Complete (elements : List (T ⊕ ℕ)) (result : Option (List (OpInputEnum T) × ℕ)) : Prop :=
  ∃ iters, result = some (iters, elements.length) ∧
    iters.flatMap OpInputEnum.elements = elements

theorem Complete.nil : Complete ([] : List (T ⊕ ℕ)) (some ([], 0)) := ⟨[], rfl, rfl⟩

/-- What is cut gives the elements `l` back, or the end is missing. -/
theorem complete_pieces_iff {piece : ℕ → ℕ → Option (OpInputEnum T)} {l m : List (T ⊕ ℕ)}
    (h : Cuts OpInputEnum.elements piece l) (hnum : 0 < env.num l.length) :
    Complete m ((pieces env l.length piece).map fun iters => (iters, l.length)) ↔
      m = l ∧ Splits (env.num l.length) l.length := by
  by_cases hle : env.num l.length ≤ l.length
  · obtain ⟨iters, hiters, hflat⟩ := pieces_spec h hnum hle
    rw [hiters, ← kept_eq_iff hle]
    constructor
    · rintro ⟨iters', hresult, hm⟩
      obtain ⟨rfl, hlen⟩ := Prod.mk.inj (Option.some.inj hresult)
      rw [hflat] at hm
      have hkept : kept (env.num l.length) l.length = l.length := by
        have hlength := congrArg List.length hm
        rw [List.length_take] at hlength
        have hle' := kept_le (env.num l.length) l.length
        omega
      rw [hkept, List.take_length] at hm
      exact ⟨hm.symm, hkept⟩
    · rintro ⟨rfl, hkept⟩
      refine ⟨iters, rfl, ?_⟩
      rw [hflat, hkept, List.take_length]
  · rw [pieces_eq_none (Nat.lt_of_not_le hle)]
    constructor
    · rintro ⟨iters, hresult, -⟩
      cases hresult
    · exact fun hsplits => absurd hsplits.2.1 hle

theorem cuts_slice (s : List T) :
    Cuts OpInputEnum.elements (fun start stop => (slice s start stop).map .slice)
      (s.map (.inl : T → T ⊕ ℕ)) := by
  intro start stop hle hlen
  rw [List.length_map] at hlen
  refine ⟨.slice ((s.drop start).take (stop - start)), ?_, ?_⟩
  · simp only [slice, if_pos (And.intro hle hlen)]
    rfl
  · simp [OpInputEnum.elements]

theorem sliceAsOpInput_iff (hnum : ∀ len, 0 < env.num len) (s : List T) :
    Complete (s.map .inl) (sliceAsOpInput env s) ↔
      s.length = 0 ∨ Splits (env.num s.length) s.length := by
  unfold sliceAsOpInput
  by_cases hempty : s.length = 0
  · rw [List.length_eq_zero_iff] at hempty
    subst hempty
    simpa using Complete.nil
  · have hiff := complete_pieces_iff (m := s.map .inl) (cuts_slice s) (hnum _)
    rw [List.length_map] at hiff
    simp only [hempty, if_false, false_or, hiff, true_and]

theorem vecAsOpInput_iff (hnum : ∀ len, 0 < env.num len) (v : List T) :
    Complete (v.map .inl) (vecAsOpInput env v) ↔
      v.length = 0 ∨ env.num v.length ≤ v.length := by
  unfold vecAsOpInput
  by_cases hempty : v.length = 0
  · rw [List.length_eq_zero_iff] at hempty
    subst hempty
    simpa using Complete.nil
  · have hpos := hnum v.length
    simp only [hempty, if_false, false_or, if_neg (Nat.ne_of_gt hpos)]
    by_cases hle : env.num v.length ≤ v.length
    · have hbatch : 0 < v.length / env.num v.length := Nat.div_pos hle hpos
      rw [if_neg (Nat.ne_of_gt hbatch)]
      refine ⟨fun _ => hle, fun _ => ⟨_, by rw [List.length_map], ?_⟩⟩
      rw [List.flatMap_map]
      change (StandardIter.chunks (v.length / env.num v.length) v).flatMap (List.map Sum.inl) =
        v.map Sum.inl
      rw [List.flatMap_def, ← List.map_flatten, StandardIter.flatten_chunks hbatch]
    · have hbatch : v.length / env.num v.length = 0 := Nat.div_eq_of_lt (Nat.lt_of_not_le hle)
      rw [if_pos hbatch]
      constructor
      · rintro ⟨iters, hresult, -⟩
        cases hresult
      · exact fun h => absurd h hle

/-- A PE with local elements is one that the array is on. -/
theorem Handle.exists_start (array : Handle) (hpos : 0 < array.inner.numElemsLocal) :
    ∃ i, array.inner.startIndexForPe array.inner.myPe = some i := by
  obtain ⟨len, hwf⟩ := array.wellFormed
  cases hd : array.inner.distribution with
  | block =>
    cases hstart : array.inner.startIndexForPe array.inner.myPe with
    | some i => exact ⟨i, rfl⟩
    | none =>
      rw [UnsafeArrayInner.numElemsLocal, UnsafeArrayInner.numElemsPe] at hpos
      simp [hd, hstart] at hpos
  | cyclic =>
    have hfirst := (UnsafeArrayInner.lt_numElemsPe_cyclic_iff hwf hd array.myPe_lt 0).mp hpos
    rw [Nat.zero_mul, Nat.add_zero] at hfirst
    rw [UnsafeArrayInner.startIndexForPe_cyclic hwf hd array.myPe_lt, if_pos hfirst]
    exact ⟨_, rfl⟩

theorem localAsOpInput_iff (hnum : ∀ len, 0 < env.num len) (array : Handle)
    {piece : ℕ → ℕ → Option (OpInputEnum T)} {l m : List (T ⊕ ℕ)}
    (h : Cuts OpInputEnum.elements piece l) (hle : l.length ≤ array.inner.numElemsLocal) :
    Complete m (localAsOpInput env array l.length piece) ↔
      m = l ∧ (l.length = 0 ∨ Splits (env.num l.length) l.length) := by
  unfold localAsOpInput
  by_cases hempty : l.length = 0
  · rw [List.length_eq_zero_iff] at hempty
    subst hempty
    simp only [List.length_nil, if_true, true_or, and_true]
    constructor
    · rintro ⟨iters, hresult, -⟩
      have hlen := (Prod.mk.inj (Option.some.inj hresult)).2
      exact List.length_eq_zero_iff.mp hlen.symm
    · rintro rfl
      exact .nil
  · obtain ⟨i, hi⟩ := array.exists_start (by omega)
    simp only [hempty, if_false, false_or, hi]
    exact complete_pieces_iff h (hnum _)

theorem cuts_lock (d : LockLocalData T) (variant : LockLocalData T → OpInputEnum T)
    (hvariant : ∀ d, (variant d).elements = d.data.map .inl) :
    Cuts OpInputEnum.elements (fun start stop => (d.intoSubData start stop).map variant)
      (d.data.map .inl) := by
  intro start stop hle hlen
  rw [List.length_map] at hlen
  simp only [LockLocalData.intoSubData, if_pos (And.intro hle hlen), Option.map_some]
  refine ⟨_, rfl, ?_⟩
  rw [hvariant]
  simp

/-- The pieces of atomic local data count from the beginning of the array. -/
theorem cuts_atomic (d : AtomicLocalData) (variant : AtomicLocalData → OpInputEnum T)
    (hvariant : ∀ d, (variant d).elements = d.indices.map .inr) (len : ℕ)
    (hle : len ≤ d.array.inner.numElemsLocal) :
    Cuts OpInputEnum.elements (fun start stop => some (variant (d.subData start stop)))
      ((List.range' 0 len).map .inr) := by
  intro start stop hstart hstop
  rw [List.length_map, List.length_range'] at hstop
  refine ⟨_, rfl, ?_⟩
  rw [hvariant, AtomicLocalData.indices, AtomicLocalData.subData, ← List.map_drop, ← List.map_take,
    List.drop_range', List.take_range'_of_length_ge (by omega), Nat.min_eq_left (by omega)]
  simp

theorem localAsOpInput_snd {array : Handle} {len n : ℕ}
    {piece : ℕ → ℕ → Option (OpInputEnum T)} {iters : List (OpInputEnum T)}
    (h : localAsOpInput env array len piece = some (iters, n)) : n = len := by
  unfold localAsOpInput at h
  split at h
  · cases h
    rfl
  · split at h
    · obtain ⟨iters', -, heq⟩ := Option.map_eq_some_iff.mp h
      cases heq
      rfl
    · cases h
      rfl

theorem range'_eq_iff {start len : ℕ} :
    (List.range' start len).map (.inr : ℕ → T ⊕ ℕ) = (List.range' 0 len).map .inr ↔
      len = 0 ∨ start = 0 := by
  rw [List.map_inj_right fun _ _ => Sum.inr.inj]
  cases len with
  | zero => simp
  | succ len =>
    constructor
    · intro h
      rw [List.range'_succ, List.range'_succ] at h
      exact Or.inr (List.cons.inj h).1
    · rintro (h | rfl)
      · cases h
      · rfl

theorem nativeAtomic_iff (hnum : ∀ len, 0 < env.num len) (d : AtomicLocalData) (hd : d.Valid)
    (variant : AtomicLocalData → OpInputEnum T)
    (hvariant : ∀ d, (variant d).elements = d.indices.map .inr) :
    Complete (d.indices.map .inr) (d.nativeLen build >>= fun len =>
        localAsOpInput env d.array len fun start stop => some (variant (d.subData start stop))) ↔
      d.startIndex = d.endIndex ∨
        d.startIndex = 0 ∧ Splits (env.num d.endIndex) d.endIndex := by
  have hend := hd.endIndex_le
  by_cases hle : d.startIndex ≤ d.endIndex
  · have hlen : d.nativeLen build = some (d.endIndex - d.startIndex) := build.sub_of_le hle
    have hiff := localAsOpInput_iff hnum d.array
      (m := d.indices.map .inr) (cuts_atomic d variant hvariant
        (d.endIndex - d.startIndex) (by omega)) (by simp; omega)
    rw [List.length_map, List.length_range', AtomicLocalData.indices, range'_eq_iff] at hiff
    rw [hlen]
    refine hiff.trans ?_
    by_cases hstart : d.startIndex = 0
    · simp only [hstart, Nat.sub_zero, or_true, true_and]
      rw [eq_comm]
    · simp only [hstart, or_false, false_and]
      omega
  · -- `len` goes below zero, and what it wraps around to is not the length
    constructor
    · rintro ⟨iters, hresult, -⟩
      obtain ⟨len, hlen, hlocal⟩ := Option.bind_eq_some_iff.mp hresult
      have hzero := localAsOpInput_snd hlocal
      rw [List.length_map, AtomicLocalData.indices, List.length_range'] at hzero
      have hlt := hd.startIndex_lt
      rw [AtomicLocalData.nativeLen] at hlen
      cases build with
      | checked =>
        rw [Build.sub_eq_none_iff.mpr ⟨rfl, Nat.lt_of_not_le hle⟩] at hlen
        cases hlen
      | wrapping =>
        rw [Build.wrapping_sub_of_lt (Nat.lt_of_not_le hle)] at hlen
        cases hlen
        omega
    · rintro (h | h) <;> omega

/-- Block views without elements have no local slice. -/
def Handle.Sliced (array : Handle) : Prop :=
  array.inner.size ≠ 0 ∨ array.inner.distribution = .cyclic

theorem genericLen_eq (d : AtomicLocalData) (hsliced : d.array.Sliced) :
    d.genericLen = some d.array.inner.numElemsLocal := by
  unfold AtomicLocalData.genericLen UnsafeArrayInner.localAsMutSlice
  cases hdist : d.array.inner.distribution with
  | block =>
    obtain ⟨len, hwf⟩ := d.array.wellFormed
    have hsize : 0 < d.array.inner.size := by
      rcases hsliced with hsize | hcyclic
      · omega
      · rw [hdist] at hcyclic
        cases hcyclic
    simp [UnsafeArrayInner.peForDistIndex_block hwf hdist hsize]
  | cyclic => simp

theorem genericLen_eq_none (d : AtomicLocalData) (hsliced : ¬ d.array.Sliced) :
    d.genericLen = none := by
  rw [Handle.Sliced, not_or, not_not] at hsliced
  unfold AtomicLocalData.genericLen UnsafeArrayInner.localAsMutSlice
  cases hdist : d.array.inner.distribution with
  | block => simp [UnsafeArrayInner.peForDistIndex, hsliced.1]
  | cyclic => exact absurd hdist hsliced.2

theorem genericAtomic_iff (hnum : ∀ len, 0 < env.num len) (d : AtomicLocalData) (hd : d.Valid)
    (variant : AtomicLocalData → OpInputEnum T)
    (hvariant : ∀ d, (variant d).elements = d.indices.map .inr) :
    Complete (d.indices.map .inr) (d.genericLen >>= fun len =>
        localAsOpInput env d.array len fun start stop => some (variant (d.subData start stop))) ↔
      d.array.Sliced ∧ (d.array.inner.numElemsLocal = 0 ∨
        d.startIndex = 0 ∧ d.endIndex = d.array.inner.numElemsLocal ∧
          Splits (env.num d.array.inner.numElemsLocal) d.array.inner.numElemsLocal) := by
  by_cases hsliced : d.array.Sliced
  · have hend := hd.endIndex_le
    have hiff := localAsOpInput_iff hnum d.array
      (m := d.indices.map .inr) (cuts_atomic d variant hvariant _ (Nat.le_refl _)) (by simp)
    rw [List.length_map, List.length_range'] at hiff
    rw [genericLen_eq d hsliced]
    refine hiff.trans ?_
    have hsame : d.indices.map (.inr : ℕ → T ⊕ ℕ) =
        (List.range' 0 d.array.inner.numElemsLocal).map .inr ↔
          d.array.inner.numElemsLocal = 0 ∨
            d.startIndex = 0 ∧ d.endIndex = d.array.inner.numElemsLocal := by
      constructor
      · intro heq
        have hlen := congrArg List.length heq
        simp only [AtomicLocalData.indices, List.length_map, List.length_range'] at hlen
        rw [AtomicLocalData.indices, hlen, range'_eq_iff] at heq
        omega
      · rintro (hzero | ⟨hstart, hstop⟩)
        · have : d.endIndex - d.startIndex = 0 := by omega
          rw [AtomicLocalData.indices, this, hzero]
          rfl
        · rw [AtomicLocalData.indices, hstart, hstop, Nat.sub_zero]
    rw [hsame]
    simp only [hsliced, true_and]
    tauto
  · rw [genericLen_eq_none d hsliced]
    constructor
    · rintro ⟨iters, hresult, -⟩
      cases hresult
    · exact fun h => absurd h.1 hsliced

/-- When the input of a batch is cut without a loss. -/
def Input.Splittable (env : Env) : Input T → Prop
  | .val _ => True
  | .slice s | .sliceMut s | .vecRef s | .vecMut s =>
    s.length = 0 ∨ Splits (env.num s.length) s.length
  | .vec v | .iterator v => v.length = 0 ∨ env.num v.length ≤ v.length
  | .localLock d | .globalLock d =>
    d.data.length = 0 ∨ Splits (env.num d.data.length) d.data.length
  | .nativeAtomic d _ =>
    d.startIndex = d.endIndex ∨ d.startIndex = 0 ∧ Splits (env.num d.endIndex) d.endIndex
  | .genericAtomic d _ =>
    let len := d.array.inner.numElemsLocal
    d.array.Sliced ∧
      (len = 0 ∨ d.startIndex = 0 ∧ d.endIndex = len ∧ Splits (env.num len) len)
  | .atomicOfNative array =>
    let len := array.inner.numElemsLocal
    len = 0 ∨ Splits (env.num len) len
  | .atomicOfGeneric array =>
    let len := array.inner.numElemsLocal
    array.Sliced ∧ (len = 0 ∨ Splits (env.num len) len)

theorem Handle.localData_valid (array : Handle) : array.localData.Valid :=
  ⟨Nat.le_refl _, by simp [localData, word]⟩

/-- `as_op_input` loses nothing exactly if the pieces come out even, or what is left over is
noticed, and local data are cut from their beginning to their end. -/
theorem as_op_input_complete_iff (hnum : ∀ len, 0 < env.num len) (input : Input T) :
    Complete input.elements (asOpInput build env input) ↔ input.Splittable env := by
  cases input with
  | val v => exact ⟨fun _ => trivial, fun _ => ⟨[.val v], rfl, rfl⟩⟩
  | slice s => exact sliceAsOpInput_iff hnum s
  | sliceMut s => exact sliceAsOpInput_iff hnum s
  | vecRef v => exact sliceAsOpInput_iff hnum v
  | vecMut v => exact sliceAsOpInput_iff hnum v
  | vec v => exact vecAsOpInput_iff hnum v
  | iterator v => exact vecAsOpInput_iff hnum v
  | localLock d =>
    have hiff := localAsOpInput_iff hnum d.array (m := d.data.map .inl)
      (cuts_lock d .localLockLocalData fun _ => rfl) (by rw [List.length_map]; exact d.length_le)
    rw [List.length_map] at hiff
    exact hiff.trans (and_iff_right rfl)
  | globalLock d =>
    have hiff := localAsOpInput_iff hnum d.array (m := d.data.map .inl)
      (cuts_lock d .globalLockLocalData fun _ => rfl) (by rw [List.length_map]; exact d.length_le)
    rw [List.length_map] at hiff
    exact hiff.trans (and_iff_right rfl)
  | nativeAtomic d hd => exact nativeAtomic_iff hnum d hd .nativeAtomicLocalData fun _ => rfl
  | genericAtomic d hd => exact genericAtomic_iff hnum d hd .genericAtomicLocalData fun _ => rfl
  | atomicOfNative array =>
    refine (nativeAtomic_iff hnum array.localData array.localData_valid .nativeAtomicLocalData
      fun _ => rfl).trans ?_
    simp only [Input.Splittable, Handle.localData, true_and]
    rw [eq_comm (a := 0)]
  | atomicOfGeneric array =>
    refine (genericAtomic_iff hnum array.localData array.localData_valid .genericAtomicLocalData
      fun _ => rfl).trans ?_
    simp only [Input.Splittable, Handle.localData, true_and]

theorem Env.num_pos {env : Env} (h : env.batchOpThreads ≠ some 0) (len : ℕ) : 0 < env.num len := by
  unfold num
  split
  · exact Nat.one_pos
  · split
    · rename_i n hn
      rcases Nat.eq_zero_or_pos n with rfl | hpos
      · exact absurd hn h
      · exact hpos
    · split <;> omega

/-- 1000 elements in the default number of pieces. -/
theorem as_op_input_complete_iff_default :
    Complete ((List.replicate 1000 0).map .inl)
      (asOpInput .checked ⟨none, none⟩ (.slice (List.replicate 1000 0))) :=
  (as_op_input_complete_iff (Env.num_pos (by decide)) (.slice (List.replicate 1000 0))).mpr
    (Or.inr (by rw [List.length_replicate]; exact ⟨by decide, by decide⟩))

/-- 1023 elements in 32 pieces: they have 31 elements each, and 1023 is 33 times 31. -/
theorem end_dropped : ¬ Complete ((List.replicate 1023 0).map .inl)
    (asOpInput .checked ⟨some 32, none⟩ (.slice (List.replicate 1023 0))) := by
  intro hcomplete
  have hnum : ∀ len, 0 < Env.num ⟨some 32, none⟩ len := Env.num_pos (by decide)
  rcases (sliceAsOpInput_iff hnum (List.replicate 1023 0)).mp hcomplete with hzero | ⟨-, hdvd⟩
  · rw [List.length_replicate] at hzero
    cases hzero
  · rw [List.length_replicate] at hdvd
    exact absurd (hdvd (by decide)) (by decide)

end Lamellar.BatchOps
