import Lamellar.Array.LocalIndex
import Lamellar.Lib.MemLayout

/-!
# The indices of a batch as bytes

A batched operation sends the local indices in as many bytes as the largest number of elements
on a PE asks for (`IndexSize`), alone (`as_bytes` of `IndexSize`) or each in a record with its
value (`IdxVal`). The message says how many bytes an index has, and its `exec` reads the
buffer as a slice of integers or records of this width.

`usize` has eight bytes, the lowest first. The bytes of a value of the element type are those
of a `MemLayout`; the padding of a record may hold anything.
-/

namespace Lamellar.BatchOps

open Lamellar.Array Wire

variable {T : Type}

inductive IndexSize where
  | u8
  | u16
  | u32
  | u64
  | usize
  deriving DecidableEq, Repr

namespace IndexSize

/-- `From<usize>` -/
def ofUsize (size : ℕ) : IndexSize :=
  if size ≤ 2 ^ 8 - 1 then .u8
  else if size ≤ 2 ^ 16 - 1 then .u16
  else if size ≤ 2 ^ 32 - 1 then .u32
  else if size ≤ 2 ^ 64 - 1 then .u64
  else .usize

def len : IndexSize → ℕ
  | .u8 => 1
  | .u16 => 2
  | .u32 => 4
  | .u64 => 8
  | .usize => 8

/-- The first bytes of a `usize` -/
def asBytes (s : IndexSize) (val : ℕ) : List UInt8 := (encodeLe 8 val).take s.len

theorem len_pos (s : IndexSize) : 0 < s.len := by cases s <;> decide

theorem len_le (s : IndexSize) : s.len ≤ 8 := by cases s <;> decide

/-- The width suffices for every number up to the one it was chosen for. -/
theorem le_ofUsize {size : ℕ} (h : size < 2 ^ 64) : size < 256 ^ (ofUsize size).len := by
  unfold ofUsize
  split_ifs <;> simp only [len] <;> omega

end IndexSize

/-! ## The sender -/

/-- The number of elements on the PE that has most of them; `none` is the `unwrap`. -/
def maxLocalSize (a : UnsafeArrayInner) : Option ℕ :=
  ((List.range a.numPes).map a.numElemsPe).max?

/-- `IdxVal<I, T>` for the unsigned integers `I` of `w` bytes -/
def idxVal (w : ℕ) (hw : 0 < w) (elem : MemLayout T) : MemLayout (BitVec (8 * w) × T) :=
  (MemLayout.uint w hw).reprC elem

theorem numElemsPe_le_maxLocalSize {a : UnsafeArrayInner} {size pe : ℕ}
    (hsize : maxLocalSize a = some size) (hpe : pe < a.numPes) : a.numElemsPe pe ≤ size :=
  (List.max?_eq_some_iff.mp hsize).2 _ (List.mem_map.mpr ⟨pe, List.mem_range.mpr hpe, rfl⟩)

/-- The bytes of `IdxVal { index: local_index as I, val }` -/
def idxValBytes (s : IndexSize) (elem : MemLayout T) (pad : ℕ → UInt8) (index : ℕ) (val : T) :
    List UInt8 :=
  (idxVal s.len s.len_pos elem).bytes pad (BitVec.ofNat (8 * s.len) index, val)

/-- The message of `MultiValMultiIndex::into_am` -/
structure MultiValMultiIdxAm where
  idxVals : List UInt8
  indexSize : ℕ

/-- The message of `SingleValMultiIndex::into_am` -/
structure SingleValMultiIdxAm where
  val : List UInt8
  indices : List UInt8
  indexSize : ℕ

/-- The buffer of `multi_val_multi_index`, each entry with the padding it happens to have. -/
def MultiValMultiIdxAm.new (s : IndexSize) (elem : MemLayout T)
    (idxVals : List ((ℕ → UInt8) × ℕ × T)) : MultiValMultiIdxAm :=
  { idxVals := idxVals.flatMap fun x => idxValBytes s elem x.1 x.2.1 x.2.2, indexSize := s.len }

/-- The buffer of `one_val_multi_indices` -/
def SingleValMultiIdxAm.new (s : IndexSize) (elem : MemLayout T) (pad : ℕ → UInt8) (val : T)
    (indices : List ℕ) : SingleValMultiIdxAm :=
  { val := elem.bytes pad val, indices := indices.flatMap s.asBytes, indexSize := s.len }

/-! ## The receiver -/

/-- `exec` reads a slice of `IdxVal` and converts every index to `usize`. -/
def MultiValMultiIdxAm.exec (elem : MemLayout T) (am : MultiValMultiIdxAm) : List (ℕ × T) :=
  let entries (w : ℕ) (hw : 0 < w) :=
    ((idxVal w hw elem).fromRawParts am.idxVals).map fun x => (x.1.toNat, x.2)
  match am.indexSize with
  | 1 => entries 1 (by decide)
  | 2 => entries 2 (by decide)
  | 4 => entries 4 (by decide)
  | 8 => entries 8 (by decide)
  | _ => entries 8 (by decide)

def SingleValMultiIdxAm.exec (elem : MemLayout T) (am : SingleValMultiIdxAm) : T × List ℕ :=
  let indices (w : ℕ) (hw : 0 < w) :=
    ((MemLayout.uint w hw).fromRawParts am.indices).map BitVec.toNat
  (elem.value am.val,
    match am.indexSize with
    | 1 => indices 1 (by decide)
    | 2 => indices 2 (by decide)
    | 4 => indices 4 (by decide)
    | 8 => indices 8 (by decide)
    | _ => indices 8 (by decide))

/-! ## Round trips -/

variable {s : IndexSize} {elem : MemLayout T}

/-- Each width reads what was written with it. -/
theorem MultiValMultiIdxAm.exec_slice (xs : List ((ℕ → UInt8) × BitVec (8 * s.len) × T)) :
    MultiValMultiIdxAm.exec elem ⟨(idxVal s.len s.len_pos elem).slice xs, s.len⟩ =
      xs.map fun x => (x.2.1.toNat, x.2.2) := by
  have hpos : 0 < (idxVal s.len s.len_pos elem).size :=
    MemLayout.reprC_size_pos _ elem s.len_pos
  have hexec : MultiValMultiIdxAm.exec elem ⟨(idxVal s.len s.len_pos elem).slice xs, s.len⟩ =
      ((idxVal s.len s.len_pos elem).fromRawParts
        ((idxVal s.len s.len_pos elem).slice xs)).map fun x => (x.1.toNat, x.2) := by
    cases s <;> rfl
  rw [hexec, MemLayout.fromRawParts_slice _ hpos, List.map_map]
  rfl

theorem SingleValMultiIdxAm.exec_slice (pad : ℕ → UInt8) (val : T)
    (xs : List ((ℕ → UInt8) × BitVec (8 * s.len))) :
    SingleValMultiIdxAm.exec elem
        ⟨elem.bytes pad val, (MemLayout.uint s.len s.len_pos).slice xs, s.len⟩ =
      (val, xs.map fun x => x.2.toNat) := by
  have hexec : SingleValMultiIdxAm.exec elem
      ⟨elem.bytes pad val, (MemLayout.uint s.len s.len_pos).slice xs, s.len⟩ =
      (elem.value (elem.bytes pad val), ((MemLayout.uint s.len s.len_pos).fromRawParts
        ((MemLayout.uint s.len s.len_pos).slice xs)).map BitVec.toNat) := by
    cases s <;> rfl
  rw [hexec, elem.value_bytes, MemLayout.fromRawParts_slice _ s.len_pos, List.map_map]
  rfl

theorem IndexSize.toNat_ofNat {i : ℕ} (hi : i < 256 ^ s.len) :
    (BitVec.ofNat (8 * s.len) i).toNat = i := by
  rw [BitVec.toNat_ofNat, Nat.mod_eq_of_lt]
  rwa [Nat.pow_mul]

theorem IndexSize.asBytes_eq {i : ℕ} (hi : i < 256 ^ s.len) (pad : ℕ → UInt8) :
    s.asBytes i = (MemLayout.uint s.len s.len_pos).bytes pad (BitVec.ofNat (8 * s.len) i) := by
  simp only [IndexSize.asBytes, MemLayout.uint, IndexSize.toNat_ofNat hi]
  exact take_encodeLe s.len_le i

theorem MultiValMultiIdxAm.exec_new (idxVals : List ((ℕ → UInt8) × ℕ × T))
    (hfit : ∀ x ∈ idxVals, x.2.1 < 256 ^ s.len) :
    (MultiValMultiIdxAm.new s elem idxVals).exec elem = idxVals.map Prod.snd := by
  have hslice : MultiValMultiIdxAm.new s elem idxVals =
      ⟨(idxVal s.len s.len_pos elem).slice (idxVals.map fun x =>
        (x.1, BitVec.ofNat (8 * s.len) x.2.1, x.2.2)), s.len⟩ := by
    rw [MemLayout.slice, List.flatMap_map]
    rfl
  rw [hslice, MultiValMultiIdxAm.exec_slice, List.map_map]
  apply List.map_congr_left
  intro x hx
  rw [Function.comp_apply, IndexSize.toNat_ofNat (hfit x hx)]

theorem SingleValMultiIdxAm.exec_new (pad : ℕ → UInt8) (val : T) (indices : List ℕ)
    (hfit : ∀ i ∈ indices, i < 256 ^ s.len) :
    (SingleValMultiIdxAm.new s elem pad val indices).exec elem = (val, indices) := by
  have hslice : indices.flatMap s.asBytes = (MemLayout.uint s.len s.len_pos).slice
      (indices.map fun i => (pad, BitVec.ofNat (8 * s.len) i)) := by
    rw [MemLayout.slice, List.flatMap_map]
    exact List.flatMap_congr fun i hi => IndexSize.asBytes_eq (hfit i hi) pad
  rw [SingleValMultiIdxAm.new, hslice, SingleValMultiIdxAm.exec_slice, List.map_map]
  congr 1
  refine (List.map_congr_left fun i hi => ?_).trans (List.map_id indices)
  rw [Function.comp_apply, IndexSize.toNat_ofNat (hfit i hi), id]

/-- **Batches**: on every array, all local indices are below the largest number of elements on a
PE and fit the width chosen for it, and a message with local indices below this number is read as
the list of pairs, or the value and the list of indices, that was written, in order. -/
theorem index_round_trip (elem : MemLayout T) {a : UnsafeArrayInner} {size : ℕ}
    (hsize : maxLocalSize a = some size) (hword : size < 2 ^ 64) :
    (∀ pe < a.numPes, ∀ i < a.numElemsPe pe,
        i < size ∧ i < 256 ^ (IndexSize.ofUsize size).len) ∧
      (∀ idxVals : List ((ℕ → UInt8) × ℕ × T), (∀ x ∈ idxVals, x.2.1 < size) →
        (MultiValMultiIdxAm.new (.ofUsize size) elem idxVals).exec elem =
          idxVals.map Prod.snd) ∧
      ∀ (pad : ℕ → UInt8) (val : T) (indices : List ℕ), (∀ i ∈ indices, i < size) →
        (SingleValMultiIdxAm.new (.ofUsize size) elem pad val indices).exec elem =
          (val, indices) := by
  have hfit (i : ℕ) (hi : i < size) : i < 256 ^ (IndexSize.ofUsize size).len :=
    Nat.lt_trans hi (IndexSize.le_ofUsize hword)
  refine ⟨fun pe hpe i hi => ?_, fun idxVals h => ?_, fun pad val indices h => ?_⟩
  · have hlt : i < size := Nat.lt_of_lt_of_le hi (numElemsPe_le_maxLocalSize hsize hpe)
    exact ⟨hlt, hfit i hlt⟩
  · exact MultiValMultiIdxAm.exec_new idxVals fun x hx => hfit _ (h x hx)
  · exact SingleValMultiIdxAm.exec_new pad val indices fun i hi => hfit i (h i hi)

/-- Three hundred elements on each of two PEs: the indices take two bytes. -/
theorem index_round_trip_two_bytes :
    (∀ pe < 2, ∀ i < (view 0 2 600 .cyclic 0 600).numElemsPe pe,
        i < 300 ∧ i < 256 ^ (IndexSize.ofUsize 300).len) ∧
      (∀ idxVals : List ((ℕ → UInt8) × ℕ × BitVec (8 * 4)), (∀ x ∈ idxVals, x.2.1 < 300) →
        (MultiValMultiIdxAm.new (.ofUsize 300) (.uint 4 (by decide)) idxVals).exec
          (.uint 4 (by decide)) = idxVals.map Prod.snd) ∧
      ∀ (pad : ℕ → UInt8) (val : BitVec (8 * 4)) (indices : List ℕ), (∀ i ∈ indices, i < 300) →
        (SingleValMultiIdxAm.new (.ofUsize 300) (.uint 4 (by decide)) pad val indices).exec
          (.uint 4 (by decide)) = (val, indices) :=
  index_round_trip (a := view 0 2 600 .cyclic 0 600) (.uint 4 (by decide)) (by decide +kernel)
    (by decide)

/-- The local indices of an array are below its largest number of elements on a PE, which is a
`usize` as the length of the array is one. -/
theorem localIndex_lt {a : UnsafeArrayInner} {len i pe j : ℕ} (h : a.WellFormed len)
    (hi : a.peAndOffsetForGlobalIndex i = some (pe, j)) :
    ∃ size, maxLocalSize a = some size ∧ j < size ∧ size ≤ len := by
  have hsize : i < a.size := by
    by_contra hge
    simp [UnsafeArrayInner.peAndOffsetForGlobalIndex, UnsafeArrayInner.peForDistIndex, hge] at hi
  obtain ⟨x, ⟨hpe, hj⟩, heq⟩ := UnsafeArrayInner.peAndOffset_mapsTo h (by omega) hsize
  rw [hi] at heq
  cases heq
  have hmem : a.numElemsPe pe ∈ (List.range a.numPes).map a.numElemsPe :=
    List.mem_map.mpr ⟨pe, List.mem_range.mpr hpe, rfl⟩
  obtain ⟨size, hmax⟩ := Option.ne_none_iff_exists'.mp
    (List.max?_eq_none_iff.not.mpr (List.ne_nil_of_mem hmem))
  obtain ⟨hin, hle⟩ := List.max?_eq_some_iff.mp hmax
  obtain ⟨pe', -, rfl⟩ := List.mem_map.mp hin
  refine ⟨_, hmax, Nat.lt_of_lt_of_le hj (hle _ hmem), ?_⟩
  have := a.numElemsPe_le pe'
  have := h.fits
  omega

end Lamellar.BatchOps
