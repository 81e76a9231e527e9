import Lamellar.Lib.Segments

/-!
# The index arithmetic of `UnsafeArrayInner`

The functions of `src/array/unsafe.rs` that place the elements of a distributed array (or
of a view of one) on the PEs. An `UnsafeArrayInner` describes a view: the full array was
cut over `numPes` PEs with `origElemPerPe` elements each on average, and the view is its
index range `[offset, offset + size)`. The `f64` arithmetic of the source is read as exact
rational arithmetic; `round` rounds a half away from zero.

All lengths and offsets count elements: the byte offsets of the source are the same
numbers times `elem_size`.
-/

namespace Lamellar.Array

inductive Distribution where
  | block
  | cyclic
  deriving DecidableEq, Repr

/-- The fields of `UnsafeArrayInner` the index arithmetic reads, with `my_pe` and
`num_pes` of its `UnsafeArrayData`. -/
structure UnsafeArrayInner where
  myPe : ℕ
  numPes : ℕ
  distribution : Distribution
  origElemPerPe : ℚ
  offset : ℕ
  size : ℕ

/-- `q.round() as usize` for the non-negative `f64` values of the source. -/
def roundUsize (q : ℚ) : ℕ := ⌊q + 1 / 2⌋₊

/-- `UnsafeArray::new` allocates `ceil(full_array_size / num_pes)` elements on each PE. -/
def perPeSize (fullArraySize numPes : ℕ) : ℕ := ⌈(fullArraySize : ℚ) / numPes⌉₊

/-- The view `[offset, offset + size)` of a full array of `len` elements, as a handle held
by PE `myPe`. -/
def view (myPe numPes len : ℕ) (distribution : Distribution) (offset size : ℕ) :
    UnsafeArrayInner :=
  { myPe, numPes, distribution, origElemPerPe := (len : ℚ) / numPes, offset, size }

namespace UnsafeArrayInner

/-- The same view, as a handle held by PE `pe`. -/
def onPe (a : UnsafeArrayInner) (pe : ℕ) : UnsafeArrayInner := { a with myPe := pe }

/-- `(self.orig_elem_per_pe * pe as f64).round() as usize`: the first index of the full
array that a block distribution places on `pe`. -/
def boundary (a : UnsafeArrayInner) (pe : ℕ) : ℕ := roundUsize (a.origElemPerPe * pe)

/-- `pe_for_dist_index`: the PE that owns index `index` of the view. -/
def peForDistIndex (a : UnsafeArrayInner) (index : ℕ) : Option ℕ :=
  if index < a.size then
    let globalIndex := index + a.offset
    match a.distribution with
    | .block =>
      let pe := ⌊(globalIndex : ℚ) / a.origElemPerPe⌋₊
      let endIndex := a.boundary (pe + 1)
      some (if endIndex ≤ globalIndex then pe + 1 else pe)
    | .cyclic => some (globalIndex % a.numPes)
  else none

/-- `start_index_for_pe`: the first index of the view that lives on `pe`. -/
def startIndexForPe (a : UnsafeArrayInner) (pe : ℕ) : Option ℕ :=
  match a.distribution with
  | .block =>
    let globalStart := a.boundary pe
    let start : ℤ := (globalStart : ℤ) - a.offset
    if 0 ≤ start then
      if start.toNat < a.size then some start.toNat else none
    else
      let globalEnd := a.boundary (pe + 1)
      if a.offset < globalEnd then some 0 else none
  | .cyclic =>
    match a.peForDistIndex 0 with
    | some startPe =>
      let tempLen := if a.size < a.numPes then a.size else a.numPes
      (List.range tempLen).find? fun i => (i + startPe) % a.numPes = pe
    | none => none

/-- `num_elems_pe`: how many elements of the view live on `pe`. -/
def numElemsPe (a : UnsafeArrayInner) (pe : ℕ) : ℕ :=
  match a.distribution with
  | .block =>
    match a.startIndexForPe pe with
    | some startI =>
      let endI := match a.startIndexForPe (pe + 1) with
        | some endI => endI
        | none => a.size
      endI - startI
    | none => 0
  | .cyclic =>
    match a.peForDistIndex 0, a.peForDistIndex (a.size - 1) with
    | some startPe, some endPe =>
      let numElems := a.size / a.numPes
      if a.size % a.numPes ≠ 0 then
        if startPe ≤ endPe then
          if startPe ≤ pe ∧ pe ≤ endPe then numElems + 1 else numElems
        else
          if startPe ≤ pe ∨ pe ≤ endPe then numElems + 1 else numElems
      else numElems
    -- `size - 1` is in range whenever `0` is, so the panic of the source is not reached
    | _, _ => 0

/-- `pe_offset_for_dist_index`: the position of index `index` among the elements of the
view that live on `pe`. -/
def peOffsetForDistIndex (a : UnsafeArrayInner) (pe index : ℕ) : Option ℕ :=
  let globalIndex := a.offset + index
  let numElemsLocal := a.numElemsPe pe
  match a.distribution with
  | .block => do
    let peStartIndex ← a.startIndexForPe pe
    let peEndIndex := peStartIndex + numElemsLocal
    if peStartIndex ≤ index ∧ index < peEndIndex then some (index - peStartIndex) else none
  | .cyclic =>
    if globalIndex % a.numPes = pe then some (index / a.numPes) else none

/-- `pe_and_offset_for_global_index`. -/
def peAndOffsetForGlobalIndex (a : UnsafeArrayInner) (index : ℕ) : Option (ℕ × ℕ) := do
  let pe ← a.peForDistIndex index
  let offset ← a.peOffsetForDistIndex pe index
  pure (pe, offset)

/-- `num_elems_local`. -/
def numElemsLocal (a : UnsafeArrayInner) : ℕ := a.numElemsPe a.myPe

/-- `local_as_mut_slice`: the range of the PE's memory region that the view occupies on
the calling PE; `none` is the `expect` on an empty view. -/
def localAsMutSlice (a : UnsafeArrayInner) : Option (ℕ × ℕ) :=
  let numElemsLocal := a.numElemsLocal
  match a.distribution with
  | .block => do
    let startPe ← a.peForDistIndex 0
    let startIndex := if a.myPe = startPe then a.offset - a.boundary a.myPe else 0
    some (startIndex, startIndex + numElemsLocal)
  | .cyclic =>
    let globalIndex := a.offset
    let startIndex :=
      globalIndex / a.numPes + if globalIndex % a.numPes ≤ a.myPe then 0 else 1
    some (startIndex, startIndex + numElemsLocal)

/-- The memory slot of index `index` of the view: the owning PE, and the position in that
PE's memory region, found from the start of the local slice there. -/
def physicalSlot (a : UnsafeArrayInner) (index : ℕ) : Option (ℕ × ℕ) := do
  let (pe, offset) ← a.peAndOffsetForGlobalIndex index
  let (start, _) ← (a.onPe pe).localAsMutSlice
  pure (pe, start + offset)

/-- A view of a full array of `len ≥ numPes` elements, as `UnsafeArray::new` and
`sub_array` build it. -/
structure WellFormed (a : UnsafeArrayInner) (len : ℕ) : Prop where
  pos : 0 < a.numPes
  le : a.numPes ≤ len
  elemPerPe : a.origElemPerPe = (len : ℚ) / a.numPes
  fits : a.offset + a.size ≤ len

theorem view_wellFormed {myPe numPes len offset size : ℕ} {d : Distribution}
    (hP : 0 < numPes) (hN : numPes ≤ len) (hfit : offset + size ≤ len) :
    (view myPe numPes len d offset size).WellFormed len :=
  ⟨hP, hN, rfl, hfit⟩

/-! Only `local_as_mut_slice` and `num_elems_local` depend on the calling PE. -/

@[simp] theorem onPe_myPe (a : UnsafeArrayInner) (pe : ℕ) : (a.onPe pe).myPe = pe := rfl

@[simp] theorem onPe_numPes (a : UnsafeArrayInner) (pe : ℕ) :
    (a.onPe pe).numPes = a.numPes := rfl

@[simp] theorem onPe_distribution (a : UnsafeArrayInner) (pe : ℕ) :
    (a.onPe pe).distribution = a.distribution := rfl

@[simp] theorem onPe_offset (a : UnsafeArrayInner) (pe : ℕ) :
    (a.onPe pe).offset = a.offset := rfl

@[simp] theorem onPe_size (a : UnsafeArrayInner) (pe : ℕ) : (a.onPe pe).size = a.size := rfl

@[simp] theorem onPe_boundary (a : UnsafeArrayInner) (pe k : ℕ) :
    (a.onPe pe).boundary k = a.boundary k := rfl

@[simp] theorem onPe_peForDistIndex (a : UnsafeArrayInner) (pe i : ℕ) :
    (a.onPe pe).peForDistIndex i = a.peForDistIndex i := rfl

@[simp] theorem onPe_startIndexForPe (a : UnsafeArrayInner) (pe k : ℕ) :
    (a.onPe pe).startIndexForPe k = a.startIndexForPe k := rfl

@[simp] theorem onPe_numElemsPe (a : UnsafeArrayInner) (pe k : ℕ) :
    (a.onPe pe).numElemsPe k = a.numElemsPe k := rfl

@[simp] theorem onPe_numElemsLocal (a : UnsafeArrayInner) (pe : ℕ) :
    (a.onPe pe).numElemsLocal = a.numElemsPe pe := rfl

theorem WellFormed.onPe {a : UnsafeArrayInner} {len : ℕ} (h : a.WellFormed len) (pe : ℕ) :
    (a.onPe pe).WellFormed len := ⟨h.pos, h.le, h.elemPerPe, h.fits⟩

theorem WellFormed.boundary_eq {a : UnsafeArrayInner} {len : ℕ} (h : a.WellFormed len)
    (pe : ℕ) : a.boundary pe = Segments.cut len a.numPes pe := by
  unfold boundary roundUsize
  rw [h.elemPerPe, Segments.floor_add_half_eq_cut len a.numPes pe h.pos]

end UnsafeArrayInner

end Lamellar.Array
