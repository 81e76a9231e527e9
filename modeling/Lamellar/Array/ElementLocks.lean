import Lamellar.Array.LocalMaps

/-!
# The locks of elements: `GenericAtomicArray` of `src/array/generic_atomic.rs`

A `GenericAtomicArray` has a mutex on each PE for every element that the array has there when it is
made, and its sub-arrays share them. An operation on an element takes the mutex at the position of
the element in the memory of the PE (`lockIndex_eq`).
-/

namespace Lamellar.Array.UnsafeArrayInner

open Segments

/-- `pe_full_offset_for_local_index`; the outer `none` is a panic. -/
def peFullOffsetForLocalIndex (a : UnsafeArrayInner) (pe index : ℕ) : Option (Option ℕ) := do
  match ← a.globalIndexFromLocal index with
  | none => some none
  | some globalIndex =>
    match a.distribution with
    | .block =>
      let peStartIndex := a.boundary pe
      let peEndIndex := a.boundary (pe + 1)
      if peStartIndex ≤ globalIndex ∧ globalIndex < peEndIndex then
        some (some (globalIndex - peStartIndex))
      else some none
    | .cyclic =>
      if globalIndex % a.numPes = pe then some (some (globalIndex / a.numPes)) else some none

/-- The number of mutexes on the PE after `From<UnsafeArray<T>>` for the array -/
def newLocks (a : UnsafeArrayInner) : ℕ := a.numElemsLocal

/-- `lock_index`: the mutex of a local element, among `locks` of them. None where it panics. -/
def lockIndex (locks : ℕ) (a : UnsafeArrayInner) (index : ℕ) : Option ℕ := do
  let index ← ← a.peFullOffsetForLocalIndex a.myPe index
  if index < locks then some index else none

/-- `a` is `b` or a sub-array of it. -/
structure IsViewOf (b a : UnsafeArrayInner) : Prop where
  numPes_eq : a.numPes = b.numPes
  distribution_eq : a.distribution = b.distribution
  origElemPerPe_eq : a.origElemPerPe = b.origElemPerPe
  le_offset : b.offset ≤ a.offset
  le_size : a.offset + a.size ≤ b.offset + b.size

/-- After `b` has been made a `GenericAtomicArray`, every local element of a view has a mutex on the
PE, and two views have the same mutex for the same element of the array only. -/
structure LocksExact (b : UnsafeArrayInner) (pe : ℕ) : Prop where
  isSome : ∀ a, b.IsViewOf a → ∀ j < a.numElemsPe pe,
    (lockIndex (b.onPe pe).newLocks (a.onPe pe) j).isSome
  eq_iff : ∀ a, b.IsViewOf a → ∀ a', b.IsViewOf a' → ∀ j < a.numElemsPe pe,
    ∀ j' < a'.numElemsPe pe, ∀ i i', (a.onPe pe).subarrayIndexFromLocal j = some i →
      (a'.onPe pe).subarrayIndexFromLocal j' = some i' →
        (lockIndex (b.onPe pe).newLocks (a.onPe pe) j =
          lockIndex (b.onPe pe).newLocks (a'.onPe pe) j' ↔ a.offset + i = a'.offset + i')

variable {a b : UnsafeArrayInner} {len pe i j : ℕ}

theorem size_pos_of_lt_numElemsPe (hj : j < a.numElemsPe pe) : 0 < a.size :=
  lt_of_lt_of_le (Nat.zero_lt_of_lt hj) (numElemsPe_le a pe)

theorem physicalSlot_eq_add (hs : 0 < a.size) (hi : a.peAndOffsetForGlobalIndex i = some (pe, j)) :
    a.physicalSlot i = some (pe, (a.onPe pe).localAsMutPtr + j) := by
  rw [physicalSlot, hi, Option.bind_eq_bind, Option.bind_some]
  dsimp only
  rw [localAsMutSlice_fst hs]
  rfl

theorem home_of_local (h : a.WellFormed len) (hpe : pe < a.numPes) (hj : j < a.numElemsPe pe)
    (hi : (a.onPe pe).subarrayIndexFromLocal j = some i) :
    i < a.size ∧ home a.distribution len a.numPes (a.offset + i) =
      (pe, (a.onPe pe).localAsMutPtr + j) := by
  obtain ⟨hlt, hmap⟩ := peAndOffset_of_local h hpe hj hi
  have hslot := physicalSlot_eq_home h hlt
  rw [physicalSlot_eq_add (Nat.zero_lt_of_lt hlt) hmap] at hslot
  exact ⟨hlt, (Option.some.inj hslot).symm⟩

/-- An element of the view that is stored on the PE is a local one there. -/
theorem exists_local_of_home (h : a.WellFormed len) (hi : i < a.size) {slot : ℕ}
    (hhome : home a.distribution len a.numPes (a.offset + i) = (pe, slot)) :
    ∃ j < a.numElemsPe pe, slot = (a.onPe pe).localAsMutPtr + j := by
  have hs : 0 < a.size := Nat.zero_lt_of_lt hi
  obtain ⟨⟨pe', j⟩, ⟨-, hj⟩, hmap⟩ := peAndOffset_mapsTo h hs hi
  have hslot := physicalSlot_eq_home h hi
  rw [physicalSlot_eq_add hs hmap, hhome] at hslot
  obtain ⟨rfl, rfl⟩ := Prod.mk.inj (Option.some.inj hslot)
  exact ⟨j, hj, rfl⟩

/-- The position of a local element in the memory of the PE -/
theorem peFullOffset_eq (h : a.WellFormed len) (hpe : pe < a.numPes) (hj : j < a.numElemsPe pe) :
    (a.onPe pe).peFullOffsetForLocalIndex pe j = some (some ((a.onPe pe).localAsMutPtr + j)) := by
  have hs : 0 < a.size := size_pos_of_lt_numElemsPe hj
  have hexact : LocalMapsExact a pe j := by
    rw [local_maps_exact h (.inr hs) hpe]
    cases hd : a.distribution with
    | block => exact .inr ⟨rfl, .inr hj⟩
    | cyclic => exact .inl ⟨rfl, hs⟩
  obtain ⟨g, hg⟩ := exists_local h hpe hj
  obtain ⟨-, hhome⟩ := home_of_local h hpe hj hg
  have hglobal := hexact.global
  rw [hg] at hglobal
  rw [peFullOffsetForLocalIndex, hglobal, Option.bind_eq_bind, Option.bind_some]
  simp only [Option.map_some, onPe_distribution, onPe_boundary, onPe_numPes]
  cases hd : a.distribution with
  | block =>
    rw [hd] at hhome
    obtain ⟨hseg, hoff⟩ := Prod.mk.inj hhome
    obtain ⟨hlow, hhigh⟩ := segOf_spec h.pos h.le (a.offset + g)
    rw [hseg] at hlow hhigh hoff
    simp only [h.boundary_eq]
    rw [if_pos ⟨hlow, hhigh⟩, hoff]
  | cyclic =>
    rw [hd] at hhome
    obtain ⟨hmod, hdiv⟩ := Prod.mk.inj hhome
    exact (if_pos hmod).trans (by rw [hdiv])

/-- The mutex of a local element, if there is one -/
theorem lockIndex_eq (h : a.WellFormed len) (hpe : pe < a.numPes) (hj : j < a.numElemsPe pe)
    (locks : ℕ) : lockIndex locks (a.onPe pe) j =
      if (a.onPe pe).localAsMutPtr + j < locks then some ((a.onPe pe).localAsMutPtr + j)
      else none := by
  rw [lockIndex, onPe_myPe, peFullOffset_eq h hpe hj]
  rfl

theorem IsViewOf.wellFormed (ha : b.IsViewOf a) (h : b.WellFormed len) : a.WellFormed len where
  pos := ha.numPes_eq ▸ h.pos
  le := ha.numPes_eq ▸ h.le
  elemPerPe := by rw [ha.origElemPerPe_eq, ha.numPes_eq, h.elemPerPe]
  fits := Nat.le_trans ha.le_size h.fits

/-- A local element of a view is one of the array. -/
theorem IsViewOf.exists_local (ha : b.IsViewOf a) (h : b.WellFormed len) (hpe : pe < b.numPes)
    (hj : j < a.numElemsPe pe) : ∃ j' < b.numElemsPe pe,
      (a.onPe pe).localAsMutPtr + j = (b.onPe pe).localAsMutPtr + j' := by
  have hpe' : pe < a.numPes := ha.numPes_eq ▸ hpe
  have hwf := ha.wellFormed h
  obtain ⟨i, hi⟩ := UnsafeArrayInner.exists_local hwf hpe' hj
  obtain ⟨hlt, hhome⟩ := home_of_local hwf hpe' hj hi
  have hoffset : b.offset + (a.offset - b.offset + i) = a.offset + i := by
    have := ha.le_offset
    omega
  refine exists_local_of_home h (i := a.offset - b.offset + i) ?_ ?_
  · have := ha.le_offset
    have := ha.le_size
    omega
  · rw [hoffset, ← ha.distribution_eq, ← ha.numPes_eq]
    exact hhome

theorem locksExact_of_start (h : b.WellFormed len) (hpe : pe < b.numPes)
    (hstart : (b.onPe pe).localAsMutPtr = 0) : LocksExact b pe := by
  have hlock {a : UnsafeArrayInner} {j : ℕ} (ha : b.IsViewOf a) (hj : j < a.numElemsPe pe) :
      lockIndex (b.onPe pe).newLocks (a.onPe pe) j = some ((a.onPe pe).localAsMutPtr + j) := by
    have hpe' : pe < a.numPes := ha.numPes_eq ▸ hpe
    obtain ⟨j', hj', heq⟩ := ha.exists_local h hpe hj
    rw [lockIndex_eq (ha.wellFormed h) hpe' hj, newLocks, onPe_numElemsLocal, if_pos]
    omega
  refine ⟨fun a ha j hj => ?_, fun a ha a' ha' j hj j' hj' i i' hi hi' => ?_⟩
  · rw [hlock ha hj]
    rfl
  · have hhome := (home_of_local (ha.wellFormed h) (ha.numPes_eq ▸ hpe) hj hi).2
    have hhome' := (home_of_local (ha'.wellFormed h) (ha'.numPes_eq ▸ hpe) hj' hi').2
    rw [ha.distribution_eq, ha.numPes_eq] at hhome
    rw [ha'.distribution_eq, ha'.numPes_eq] at hhome'
    rw [hlock ha hj, hlock ha' hj', Option.some_inj]
    constructor
    · intro heq
      exact home_injective h.pos h.le (by rw [hhome, hhome', heq])
    · intro heq
      rw [heq, hhome'] at hhome
      exact (Prod.mk.inj hhome).2.symm

theorem localAsMutPtr_whole (hoffset : b.offset = 0) (pe : ℕ) :
    (b.onPe pe).localAsMutPtr = 0 := by
  unfold localAsMutPtr
  have hsame : (b.onPe pe).offset = 0 := hoffset
  rw [hsame]
  split
  · split
    · split
      · exact Nat.zero_sub _
      · rfl
    · rfl
  · rw [Nat.zero_div, Nat.zero_mod, if_pos (Nat.zero_le _)]

/-- An array that is no sub-array has its mutexes, and its views share them. -/
theorem locksExact_whole (h : b.WellFormed len) (hpe : pe < b.numPes) (hoffset : b.offset = 0) :
    LocksExact b pe :=
  locksExact_of_start h hpe (localAsMutPtr_whole hoffset pe)

/-- The mutexes are those of the elements exactly where the memory of the array begins with it, as
that of an array that is no sub-array does. -/
theorem locks_exact_iff (h : b.WellFormed len) (hpe : pe < b.numPes) :
    LocksExact b pe ↔ b.numElemsPe pe = 0 ∨ (b.onPe pe).localAsMutPtr = 0 := by
  constructor
  · intro hexact
    rcases Nat.eq_zero_or_pos (b.numElemsPe pe) with hzero | hpos
    · exact .inl hzero
    · have hlast : b.numElemsPe pe - 1 < b.numElemsPe pe := Nat.sub_one_lt_of_lt hpos
      have hself : b.IsViewOf b := ⟨rfl, rfl, rfl, Nat.le_refl _, Nat.le_refl _⟩
      have hsome := hexact.isSome b hself _ hlast
      rw [lockIndex_eq h hpe hlast, newLocks, onPe_numElemsLocal] at hsome
      split at hsome
      · right
        omega
      · cases hsome
  · rintro (hzero | hstart)
    · have hnone {a : UnsafeArrayInner} (ha : b.IsViewOf a) {j : ℕ} (hj : j < a.numElemsPe pe) :
          False := by
        obtain ⟨j', hj', -⟩ := ha.exists_local h hpe hj
        omega
      exact ⟨fun a ha j hj => (hnone ha hj).elim, fun a ha _ _ j hj => (hnone ha hj).elim⟩
    · exact locksExact_of_start h hpe hstart

/-- Seven elements in blocks on three PEs: the sub-array of the last six begins with the second
element of PE 0, but with the first one of PE 1. -/
theorem locks_exact_iff_seven_on_three : ¬ LocksExact (view 0 3 7 .block 1 6) 0 ∧
    LocksExact (view 0 3 7 .block 1 6) 1 := by
  have hwf : (view 0 3 7 .block 1 6).WellFormed 7 :=
    view_wellFormed (by decide) (by decide) (by decide)
  rw [locks_exact_iff hwf (by decide), locks_exact_iff hwf (by decide)]
  decide +kernel

end Lamellar.Array.UnsafeArrayInner
