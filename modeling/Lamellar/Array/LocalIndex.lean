import Lamellar.Array.Transfer
import Mathlib.Data.List.Nodup

/-!
# The indices of the local elements

`subarray_index_from_local` goes from a position among the elements of a view on the calling
PE back to the index in the view, and `local_as_mut_ptr` is where these elements begin in the
PE's memory. Below the number of local elements, position `j` has the index that the index
map sends to `j` (`peAndOffset_of_local`), and the local indices of all PEs are the indices
of the view (`localIndices_perm`). On a block distribution the function does not stop at the
end of the local elements: it goes on into those of the next PEs, up to the end of the view.
-/

namespace Lamellar.Array

/-- `n as isize`. -/
def asIsize (n : ℕ) : ℤ := if n < 2 ^ 63 then n else (n : ℤ) - 2 ^ 64

theorem asIsize_of_lt {n : ℕ} (h : n < 2 ^ 63) : asIsize n = n := if_pos h

/-- A number in the range of `isize` -/
def fitsIsize (d : ℤ) : Bool := decide (-2 ^ 63 ≤ d ∧ d < 2 ^ 63)

/-- `a as isize - b as isize`. A difference that is out of range wraps around, or it panics in a
build with overflow checks. -/
def isizeSub (a b : ℕ) : ℤ :=
  let d := asIsize a - asIsize b
  if d < -2 ^ 63 then d + 2 ^ 64 else if 2 ^ 63 ≤ d then d - 2 ^ 64 else d

/-- From `2 ^ 63` on `b` is negative as an `isize`. -/
theorem isizeSub_of_lt {a b : ℕ} (ha : a < 2 ^ 63) (hb : b < 2 ^ 64) :
    isizeSub a b = if a + 2 ^ 63 < b then (a : ℤ) - b + 2 ^ 64 else (a : ℤ) - b := by
  simp only [isizeSub, asIsize_of_lt ha]
  unfold asIsize
  split_ifs <;> omega

namespace UnsafeArrayInner

open Segments

/-- `subarray_index_from_local`. -/
def subarrayIndexFromLocal (a : UnsafeArrayInner) (index : ℕ) : Option ℕ := do
  let myStartIndex ← a.startIndexForPe a.myPe
  match a.distribution with
  | .block => if myStartIndex + index < a.size then some (myStartIndex + index) else none
  | .cyclic =>
    if index < a.numElemsLocal then some (myStartIndex + a.numPes * index) else none

/-- `local_as_mut_ptr`: where the local elements begin in the memory of the calling PE. -/
def localAsMutPtr (a : UnsafeArrayInner) : ℕ :=
  match a.distribution with
  | .block =>
    match a.peForDistIndex 0 with
    | some startPe => if a.myPe = startPe then a.offset - a.boundary a.myPe else 0
    -- the `expect` on an empty view, which has no local element to reach
    | none => 0
  | .cyclic => a.offset / a.numPes + if a.offset % a.numPes ≤ a.myPe then 0 else 1

variable {a : UnsafeArrayInner} {len : ℕ}

theorem localAsMutSlice_fst (hs : 0 < a.size) (pe : ℕ) :
    (a.onPe pe).localAsMutSlice =
      some ((a.onPe pe).localAsMutPtr, (a.onPe pe).localAsMutPtr + a.numElemsPe pe) := by
  obtain ⟨startPe, hstart⟩ : ∃ startPe, a.peForDistIndex 0 = some startPe := by
    unfold peForDistIndex
    rw [if_pos hs]
    cases a.distribution with
    | block => exact ⟨_, rfl⟩
    | cyclic => exact ⟨_, rfl⟩
  cases hd : a.distribution with
  | block =>
    simp only [localAsMutSlice, localAsMutPtr, onPe_distribution, hd, onPe_peForDistIndex, hstart,
      onPe_numElemsLocal, Option.bind_eq_bind, Option.bind_some]
  | cyclic =>
    simp only [localAsMutSlice, localAsMutPtr, onPe_distribution, hd, onPe_numElemsLocal]

/-! ## Block distribution -/

theorem subarrayIndexFromLocal_block (h : a.WellFormed len) (hd : a.distribution = .block)
    (pe j : ℕ) : (a.onPe pe).subarrayIndexFromLocal j =
      if (cut len a.numPes pe < a.offset + a.size ∧ a.offset < cut len a.numPes (pe + 1)) ∧
        cut len a.numPes pe - a.offset + j < a.size
      then some (cut len a.numPes pe - a.offset + j) else none := by
  simp only [subarrayIndexFromLocal, onPe_startIndexForPe, onPe_myPe, startIndexForPe_block h hd,
    onPe_distribution, hd, onPe_size]
  by_cases hmeet :
      cut len a.numPes pe < a.offset + a.size ∧ a.offset < cut len a.numPes (pe + 1)
  · rw [if_pos hmeet]
    by_cases hlt : cut len a.numPes pe - a.offset + j < a.size
    · rw [if_pos ⟨hmeet, hlt⟩]
      exact if_pos hlt
    · rw [if_neg fun hboth => hlt hboth.2]
      exact if_neg hlt
  · rw [if_neg hmeet, if_neg fun hboth => hmeet hboth.1]
    rfl

/-! ## Cyclic distribution -/

theorem startIndexForPe_cyclic (h : a.WellFormed len) (hd : a.distribution = .cyclic) {pe : ℕ}
    (hpe : pe < a.numPes) :
    a.startIndexForPe pe = if a.firstOn pe < a.size then some (a.firstOn pe) else none := by
  have hfirst := firstOn_lt h pe
  by_cases hs : 0 < a.size
  · have hlen : (if a.size < a.numPes then a.size else a.numPes) = min a.size a.numPes := by
      split <;> omega
    have hmod (i : ℕ) (hi : i < a.numPes) :
        (i + a.offset % a.numPes) % a.numPes = pe ↔ i = a.firstOn pe := by
      have hiff := mod_eq_iff_firstOn h hpe i
      rw [Nat.mod_eq_of_lt hi] at hiff
      rw [← hiff, Nat.add_mod_mod, Nat.add_comm]
    simp only [startIndexForPe, hd, peForDistIndex_cyclic hd hs, Nat.add_zero, hlen]
    split
    · rename_i hlt
      rw [List.find?_range_eq_some]
      refine ⟨?_, ?_, ?_⟩
      · rw [decide_eq_true_eq, hmod _ hfirst]
      · rw [List.mem_range]
        omega
      · intro j hj
        have hne := (hmod j (by omega)).not.mpr (by omega)
        simpa using hne
    · rename_i hge
      rw [List.find?_range_eq_none]
      intro i hi
      have hne := (hmod i (by omega)).not.mpr (by omega)
      simpa using hne
  · have hnone : a.peForDistIndex 0 = none := by
      unfold peForDistIndex
      rw [if_neg (by omega)]
    simp only [startIndexForPe, hd, hnone]
    rw [if_neg (by omega)]

theorem numElemsPe_of_empty (hs : a.size = 0) (hd : a.distribution = .cyclic) (pe : ℕ) :
    a.numElemsPe pe = 0 := by
  have hnone : a.peForDistIndex 0 = none := by
    unfold peForDistIndex
    rw [if_neg (by omega)]
  simp only [numElemsPe, hd, hnone]

theorem lt_numElemsPe_cyclic_iff (h : a.WellFormed len) (hd : a.distribution = .cyclic) {pe : ℕ}
    (hpe : pe < a.numPes) (j : ℕ) :
    j < a.numElemsPe pe ↔ a.firstOn pe + j * a.numPes < a.size := by
  by_cases hs : 0 < a.size
  · exact lt_numElemsPe_cyclic h hd hs hpe j
  · rw [numElemsPe_of_empty (by omega) hd]
    omega

theorem subarrayIndexFromLocal_cyclic (h : a.WellFormed len) (hd : a.distribution = .cyclic)
    {pe : ℕ} (hpe : pe < a.numPes) (j : ℕ) :
    (a.onPe pe).subarrayIndexFromLocal j =
      if a.firstOn pe + j * a.numPes < a.size then some (a.firstOn pe + j * a.numPes)
      else none := by
  simp only [subarrayIndexFromLocal, onPe_startIndexForPe, onPe_myPe,
    startIndexForPe_cyclic h hd hpe, onPe_distribution, hd, onPe_numElemsLocal, onPe_numPes,
    lt_numElemsPe_cyclic_iff h hd hpe, Nat.mul_comm a.numPes]
  by_cases hfirst : a.firstOn pe < a.size
  · rw [if_pos hfirst]
    rfl
  · rw [if_neg hfirst, if_neg (by omega)]
    rfl

/-! ## Both distributions -/

/-- The number of indices that one local position advances by. -/
def stride (a : UnsafeArrayInner) : ℕ :=
  match a.distribution with
  | .block => 1
  | .cyclic => a.numPes

theorem stride_pos (h : a.WellFormed len) : 0 < a.stride := by
  unfold stride
  cases a.distribution with
  | block => exact Nat.one_pos
  | cyclic => exact h.pos

/-- The local indices of a PE begin at `first` and are `stride` apart, up to the end of the
view; a PE without local elements begins there. -/
theorem exists_first (h : a.WellFormed len) {pe : ℕ} (hpe : pe < a.numPes) :
    ∃ first, (∀ j, (a.onPe pe).subarrayIndexFromLocal j =
        if first + j * a.stride < a.size then some (first + j * a.stride) else none) ∧
      ∀ j, j < a.numElemsPe pe → first + j * a.stride < a.size := by
  cases hd : a.distribution with
  | block =>
    have hstride : a.stride = 1 := by
      unfold stride
      rw [hd]
    by_cases hmeet :
        cut len a.numPes pe < a.offset + a.size ∧ a.offset < cut len a.numPes (pe + 1)
    · refine ⟨cut len a.numPes pe - a.offset, ?_, ?_⟩
      · intro j
        rw [subarrayIndexFromLocal_block h hd, hstride, Nat.mul_one]
        simp only [hmeet, true_and]
      · intro j hj
        rw [numElemsPe_block h hd] at hj
        rw [hstride]
        omega
    · refine ⟨a.size, ?_, ?_⟩
      · intro j
        rw [subarrayIndexFromLocal_block h hd, if_neg fun hboth => hmeet hboth.1,
          if_neg (Nat.not_lt.mpr (Nat.le_add_right _ _))]
      · intro j hj
        rw [numElemsPe_block h hd] at hj
        have hlt := cut_lt_succ h.pos h.le pe
        omega
  | cyclic =>
    have hstride : a.stride = a.numPes := by
      unfold stride
      rw [hd]
    refine ⟨a.firstOn pe, ?_, ?_⟩
    · intro j
      rw [hstride]
      exact subarrayIndexFromLocal_cyclic h hd hpe j
    · intro j hj
      rw [hstride]
      exact (lt_numElemsPe_cyclic_iff h hd hpe j).mp hj

/-- Local position `j` of `pe` has the index that the index map sends there. -/
theorem peAndOffset_of_local (h : a.WellFormed len) {pe j g : ℕ} (hpe : pe < a.numPes)
    (hj : j < a.numElemsPe pe) (hg : (a.onPe pe).subarrayIndexFromLocal j = some g) :
    g < a.size ∧ a.peAndOffsetForGlobalIndex g = some (pe, j) := by
  cases hd : a.distribution with
  | block =>
    rw [subarrayIndexFromLocal_block h hd] at hg
    split at hg
    · rename_i hin
      cases hg
      refine ⟨hin.2, ?_⟩
      rw [numElemsPe_block h hd] at hj
      have hseg : segOf len a.numPes (a.offset + (cut len a.numPes pe - a.offset + j)) = pe :=
        segOf_eq h.pos h.le (by omega) (by omega)
      rw [peAndOffset_block h hd hin.2, hseg, Nat.add_sub_cancel_left]
    · cases hg
  | cyclic =>
    rw [subarrayIndexFromLocal_cyclic h hd hpe] at hg
    split at hg
    · rename_i hin
      cases hg
      have hfirst := firstOn_lt h pe
      refine ⟨hin, ?_⟩
      rw [peAndOffset_cyclic hd hin, Nat.add_mul_div_right _ _ h.pos, Nat.div_eq_of_lt hfirst,
        Nat.zero_add]
      have hmod : (a.firstOn pe + j * a.numPes) % a.numPes = a.firstOn pe := by
        rw [Nat.add_mul_mod_self_right, Nat.mod_eq_of_lt hfirst]
      rw [(mod_eq_iff_firstOn h hpe _).mpr hmod]
    · cases hg

/-- The element at local position `j` of `pe` is the one with that index. -/
theorem element_of_local {T : Type} (r : MemoryRegion T) (h : a.WellFormed len) {pe j g : ℕ}
    (hpe : pe < a.numPes) (hj : j < a.numElemsPe pe)
    (hg : (a.onPe pe).subarrayIndexFromLocal j = some g) :
    a.element r g = some (r.cell pe ((a.onPe pe).localAsMutPtr + j)) := by
  obtain ⟨hlt, hmap⟩ := peAndOffset_of_local h hpe hj hg
  have hs : 0 < a.size := by omega
  simp only [element, physicalSlot, hmap, localAsMutSlice_fst hs, Option.bind_eq_bind,
    Option.bind_some, Option.pure_def]

theorem subarrayIndexFromLocal_injective (h : a.WellFormed len) {pe j j' g : ℕ}
    (hpe : pe < a.numPes) (hg : (a.onPe pe).subarrayIndexFromLocal j = some g)
    (hg' : (a.onPe pe).subarrayIndexFromLocal j' = some g) : j = j' := by
  obtain ⟨first, hidx, _⟩ := exists_first h hpe
  rw [hidx] at hg hg'
  split at hg
  · split at hg'
    · cases hg
      have heq : j' * a.stride = j * a.stride := by
        have := Option.some.inj hg'
        omega
      exact (Nat.eq_of_mul_eq_mul_right (stride_pos h) heq).symm
    · cases hg'
  · cases hg

theorem exists_local (h : a.WellFormed len) {pe j : ℕ} (hpe : pe < a.numPes)
    (hj : j < a.numElemsPe pe) : ∃ g, (a.onPe pe).subarrayIndexFromLocal j = some g := by
  obtain ⟨first, hidx, hlt⟩ := exists_first h hpe
  exact ⟨_, (hidx j).trans (if_pos (hlt j hj))⟩

theorem startIndexForPe_le (a : UnsafeArrayInner) (hd : a.distribution = .block) {pe startI : ℕ}
    (h : a.startIndexForPe pe = some startI) : startI ≤ a.size := by
  simp only [startIndexForPe, hd] at h
  split at h
  · split at h
    · rename_i hlt
      cases h
      exact hlt.le
    · cases h
  · split at h
    · cases h
      exact Nat.zero_le _
    · cases h

/-- No PE has more elements than there are, whatever the fields of the view. -/
theorem numElemsPe_le (a : UnsafeArrayInner) (pe : ℕ) : a.numElemsPe pe ≤ a.size := by
  have hround : 0 < a.size → a.size % a.numPes ≠ 0 → a.size / a.numPes + 1 ≤ a.size := by
    intro hpos hmod
    rcases Nat.lt_or_ge 1 a.numPes with hlt | hge
    · have := Nat.div_lt_self hpos hlt
      omega
    · rcases Nat.le_one_iff_eq_zero_or_eq_one.mp hge with h | h
      · rw [h, Nat.div_zero]
        omega
      · rw [h, Nat.mod_one] at hmod
        exact absurd rfl hmod
  have hdiv := Nat.div_le_self a.size a.numPes
  cases hd : a.distribution with
  | block =>
    simp only [numElemsPe, hd]
    cases hstart : a.startIndexForPe pe with
    | none => exact Nat.zero_le _
    | some startI =>
      cases hend : a.startIndexForPe (pe + 1) with
      | none => exact Nat.sub_le _ _
      | some endI =>
        have := a.startIndexForPe_le hd hend
        dsimp only
        omega
  | cyclic =>
    simp only [numElemsPe, hd, peForDistIndex]
    by_cases hpos : 0 < a.size
    · rw [if_pos hpos, if_pos (by omega)]
      dsimp only
      split
      · rename_i hmod
        have := hround hpos hmod
        split <;> split <;> omega
      · exact hdiv
    · rw [if_neg hpos]
      exact Nat.zero_le _

/-- The local indices of all PEs together are the indices of the view. -/
theorem localIndices_perm (h : a.WellFormed len) :
    ((List.range a.numPes).flatMap fun pe =>
      (List.range (a.numElemsPe pe)).filterMap (a.onPe pe).subarrayIndexFromLocal).Perm
        (List.range a.size) := by
  have hmem {pe g : ℕ} (hpe : pe < a.numPes)
      (hg : g ∈ (List.range (a.numElemsPe pe)).filterMap (a.onPe pe).subarrayIndexFromLocal) :
      ∃ j < a.numElemsPe pe, (a.onPe pe).subarrayIndexFromLocal j = some g ∧ g < a.size ∧
        a.peAndOffsetForGlobalIndex g = some (pe, j) := by
    obtain ⟨j, hj, heq⟩ := List.mem_filterMap.mp hg
    rw [List.mem_range] at hj
    exact ⟨j, hj, heq, peAndOffset_of_local h hpe hj heq⟩
  rw [List.perm_ext_iff_of_nodup ?_ List.nodup_range]
  · intro g
    rw [List.mem_flatMap, List.mem_range]
    constructor
    · rintro ⟨pe, hpe, hg⟩
      obtain ⟨_, _, _, hlt, _⟩ := hmem (List.mem_range.mp hpe) hg
      exact hlt
    · intro hg
      have hs : 0 < a.size := by omega
      obtain ⟨⟨pe, j⟩, ⟨hpe, hj⟩, hmap⟩ := peAndOffset_mapsTo h hs hg
      obtain ⟨g', hg'⟩ := exists_local h hpe hj
      obtain ⟨hlt', hmap'⟩ := peAndOffset_of_local h hpe hj hg'
      have heq := peAndOffset_injective h hg hlt' (hmap.trans hmap'.symm)
      subst heq
      exact ⟨pe, List.mem_range.mpr hpe, List.mem_filterMap.mpr ⟨j, List.mem_range.mpr hj, hg'⟩⟩
  · rw [List.nodup_flatMap]
    constructor
    · intro pe hpe
      refine List.Nodup.filterMap ?_ List.nodup_range
      intro j j' g hg hg'
      exact subarrayIndexFromLocal_injective h (List.mem_range.mp hpe) hg hg'
    · refine List.Pairwise.imp_of_mem ?_ List.nodup_range
      intro pe pe' hpe hpe' hne g hg hg'
      obtain ⟨j, _, _, _, hmap⟩ := hmem (List.mem_range.mp hpe) hg
      obtain ⟨j', _, _, _, hmap'⟩ := hmem (List.mem_range.mp hpe') hg'
      rw [hmap] at hmap'
      cases hmap'
      exact hne rfl

end UnsafeArrayInner

end Lamellar.Array
