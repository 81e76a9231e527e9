import Lamellar.Array.LocalIndex
import Mathlib.Order.Bounds.Defs

/-!
# From a PE back to the view

`subarray_index_from_local` and `global_index_from_local` go from a position on the calling PE to
the index of the view and of the full array, `start_index_for_pe` and `end_index_for_pe` give the
first and the last index that a PE stores. The latter are what they say they are. The former are
on a cyclic distribution; on a block distribution neither asks whether the position is one of
the PE's: `local_maps_exact` says when they answer all the same as they should.
-/

namespace Lamellar.Array.UnsafeArrayInner

open Segments

/-- `global_index_from_local`; the outer `none` is a panic. -/
def globalIndexFromLocal (a : UnsafeArrayInner) (index : ℕ) : Option (Option ℕ) :=
  match a.distribution with
  | .block =>
    let globalStart := a.boundary a.myPe
    let start : ℤ := (globalStart : ℤ) - a.offset
    if 0 ≤ start then
      if start.toNat < a.size then some (some (globalStart + index)) else some none
    else
      let globalEnd := a.boundary (a.myPe + 1)
      if a.offset < globalEnd then some (some (a.offset + index)) else some none
  | .cyclic => do
    let startPe ← a.peForDistIndex 0
    let endPe ← a.peForDistIndex (a.size - 1)
    let numElems := a.size / a.numPes
    let numElems :=
      if a.size % a.numPes ≠ 0 then
        if startPe ≤ endPe then
          if startPe ≤ a.myPe ∧ a.myPe ≤ endPe then numElems + 1 else numElems
        else
          if startPe ≤ a.myPe ∨ a.myPe ≤ endPe then numElems + 1 else numElems
      else numElems
    if index < numElems then
      if startPe ≤ a.myPe then some (some (a.numPes * index + a.offset + (a.myPe - startPe)))
      else some (some (a.numPes * index + a.offset + (a.numPes - startPe) + a.myPe))
    else some none

/-- `end_index_for_pe`: the last index of the view that lives on `pe`. -/
def endIndexForPe (a : UnsafeArrayInner) (pe : ℕ) : Option ℕ := do
  let startI ← a.startIndexForPe pe
  match a.distribution with
  | .block =>
    let endPe ← a.peForDistIndex (a.size - 1)
    if pe = endPe then some (a.size - 1)
    else
      let next ← a.startIndexForPe (pe + 1)
      some (next - 1)
  | .cyclic =>
    let numElems := a.numElemsPe pe
    some (startI + (numElems - 1) * a.numPes)

variable {a : UnsafeArrayInner} {len pe : ℕ}

/-! ## The indices that a PE stores -/

/-- The indices of the view that live on `pe` -/
def storedOn (a : UnsafeArrayInner) (pe : ℕ) : Set ℕ := {i | a.peForDistIndex i = some pe}

theorem mem_storedOn {i : ℕ} : i ∈ a.storedOn pe ↔ a.peForDistIndex i = some pe := Iff.rfl

theorem peForDistIndex_of_le {i : ℕ} (hi : a.size ≤ i) : a.peForDistIndex i = none := by
  rw [peForDistIndex, if_neg (Nat.not_lt.mpr hi)]

theorem mem_storedOn_block (h : a.WellFormed len) (hd : a.distribution = .block) {i : ℕ} :
    i ∈ a.storedOn pe ↔ i < a.size ∧ cut len a.numPes pe ≤ a.offset + i ∧
      a.offset + i < cut len a.numPes (pe + 1) := by
  rw [mem_storedOn]
  by_cases hi : i < a.size
  · rw [peForDistIndex_block h hd hi, Option.some_inj]
    constructor
    · rintro rfl
      exact ⟨hi, segOf_spec h.pos h.le _⟩
    · rintro ⟨-, hle, hlt⟩
      exact segOf_eq h.pos h.le hle hlt
  · rw [peForDistIndex_of_le (Nat.not_lt.mp hi)]
    refine ⟨?_, fun hin => absurd hin.1 hi⟩
    rintro ⟨⟩

theorem mem_storedOn_cyclic (h : a.WellFormed len) (hd : a.distribution = .cyclic)
    (hpe : pe < a.numPes) {i : ℕ} :
    i ∈ a.storedOn pe ↔ i < a.size ∧ i % a.numPes = a.firstOn pe := by
  rw [mem_storedOn]
  by_cases hi : i < a.size
  · rw [peForDistIndex_cyclic hd hi, Option.some_inj, mod_eq_iff_firstOn h hpe]
    exact ⟨fun hmod => ⟨hi, hmod⟩, fun hin => hin.2⟩
  · rw [peForDistIndex_of_le (Nat.not_lt.mp hi)]
    refine ⟨?_, fun hin => absurd hin.1 hi⟩
    rintro ⟨⟩

theorem startIndexForPe_least (h : a.WellFormed len) (hs : a.offset = 0 ∨ 0 < a.size)
    (hpe : pe < a.numPes) {i : ℕ} :
    a.startIndexForPe pe = some i ↔ IsLeast (a.storedOn pe) i := by
  cases hd : a.distribution with
  | block =>
    rw [startIndexForPe_block h hd]
    have hlt := cut_lt_succ h.pos h.le pe
    constructor
    · intro hi
      split at hi
      · rename_i hmeet
        cases hi
        refine ⟨(mem_storedOn_block h hd).mpr (by omega), fun k hk => ?_⟩
        obtain ⟨-, hle, -⟩ := (mem_storedOn_block h hd).mp hk
        omega
      · cases hi
    · rintro ⟨hmem, hleast⟩
      obtain ⟨hi, hle, hlt⟩ := (mem_storedOn_block h hd).mp hmem
      rw [if_pos (by omega), Option.some_inj]
      have hfirst : cut len a.numPes pe - a.offset ∈ a.storedOn pe :=
        (mem_storedOn_block h hd).mpr (by omega)
      have := hleast hfirst
      omega
  | cyclic =>
    rw [startIndexForPe_cyclic h hd hpe]
    have hfirst := Nat.mod_eq_of_lt (firstOn_lt h pe)
    constructor
    · intro hi
      split at hi
      · cases hi
        refine ⟨(mem_storedOn_cyclic h hd hpe).mpr ⟨‹_›, hfirst⟩, fun k hk => ?_⟩
        rw [← ((mem_storedOn_cyclic h hd hpe).mp hk).2]
        exact Nat.mod_le _ _
      · cases hi
    · rintro ⟨hmem, hleast⟩
      obtain ⟨hi, hmod⟩ := (mem_storedOn_cyclic h hd hpe).mp hmem
      have hle := Nat.mod_le i a.numPes
      rw [if_pos (by omega), Option.some_inj]
      have := hleast ((mem_storedOn_cyclic h hd hpe).mpr ⟨by omega, hfirst⟩)
      omega

theorem endIndexForPe_block (h : a.WellFormed len) (hd : a.distribution = .block)
    (hs : a.offset = 0 ∨ 0 < a.size) : a.endIndexForPe pe =
      if cut len a.numPes pe < a.offset + a.size ∧ a.offset < cut len a.numPes (pe + 1)
      then some (min (cut len a.numPes (pe + 1) - a.offset) a.size - 1) else none := by
  simp only [endIndexForPe, startIndexForPe_block h hd, hd, Option.bind_eq_bind]
  split
  · have hlast : a.size - 1 < a.size := by omega
    obtain ⟨hle, hlt, -⟩ := segOf_meets h hlast
    rw [Option.bind_some, peForDistIndex_block h hd hlast, Option.bind_some]
    generalize segOf len a.numPes (a.offset + (a.size - 1)) = endPe at hle hlt ⊢
    by_cases hlast : pe = endPe
    · subst hlast
      rw [if_pos rfl, Option.some_inj]
      omega
    · -- the view goes on in the segment of the next PE
      have hmono := cut_strictMono h.pos h.le
      have hpe : pe < endPe + 1 := hmono.lt_iff_lt.mp (by omega)
      have hnext : cut len a.numPes (pe + 1) ≤ cut len a.numPes endPe := hmono.monotone (by omega)
      have hlt' := cut_lt_succ h.pos h.le (pe + 1)
      rw [if_neg hlast, if_pos (by omega), Option.bind_some, Option.some_inj]
      omega
  · rfl

theorem endIndexForPe_cyclic (h : a.WellFormed len) (hd : a.distribution = .cyclic)
    (hpe : pe < a.numPes) : a.endIndexForPe pe =
      if a.firstOn pe < a.size then some (a.firstOn pe + (a.numElemsPe pe - 1) * a.numPes)
      else none := by
  simp only [endIndexForPe, startIndexForPe_cyclic h hd hpe, hd, Option.bind_eq_bind]
  split
  · rfl
  · rfl

theorem endIndexForPe_greatest (h : a.WellFormed len) (hs : a.offset = 0 ∨ 0 < a.size)
    (hpe : pe < a.numPes) {i : ℕ} : a.endIndexForPe pe = some i ↔ IsGreatest (a.storedOn pe) i := by
  cases hd : a.distribution with
  | block =>
    rw [endIndexForPe_block h hd hs]
    have hlt := cut_lt_succ h.pos h.le pe
    constructor
    · intro hi
      split at hi
      · cases hi
        refine ⟨(mem_storedOn_block h hd).mpr (by omega), fun k hk => ?_⟩
        have := (mem_storedOn_block h hd).mp hk
        omega
      · cases hi
    · rintro ⟨hmem, hgreatest⟩
      obtain ⟨hi, hle, hlt⟩ := (mem_storedOn_block h hd).mp hmem
      rw [if_pos (by omega), Option.some_inj]
      have hlast : min (cut len a.numPes (pe + 1) - a.offset) a.size - 1 ∈ a.storedOn pe :=
        (mem_storedOn_block h hd).mpr (by omega)
      have := hgreatest hlast
      omega
  | cyclic =>
    rw [endIndexForPe_cyclic h hd hpe]
    have hfirst := firstOn_lt h pe
    have hnum := lt_numElemsPe_cyclic_iff h hd hpe
    have hgreatest : a.firstOn pe < a.size → IsGreatest (a.storedOn pe)
        (a.firstOn pe + (a.numElemsPe pe - 1) * a.numPes) := by
      intro hin
      have hpos := (hnum 0).mpr (by omega)
      refine ⟨(mem_storedOn_cyclic h hd hpe).mpr ⟨(hnum _).mp (by omega), ?_⟩, fun k hk => ?_⟩
      · rw [Nat.add_mul_mod_self_right, Nat.mod_eq_of_lt hfirst]
      · obtain ⟨hk, hmod⟩ := (mem_storedOn_cyclic h hd hpe).mp hk
        have hdm := Nat.mod_add_div' k a.numPes
        rw [hmod] at hdm
        have hj := (hnum (k / a.numPes)).mpr (by omega)
        have hmul : k / a.numPes * a.numPes ≤ (a.numElemsPe pe - 1) * a.numPes :=
          Nat.mul_le_mul_right _ (by omega)
        omega
    constructor
    · intro hi
      split at hi
      · cases hi
        exact hgreatest ‹_›
      · cases hi
    · intro hi
      obtain ⟨hlt, hmod⟩ := (mem_storedOn_cyclic h hd hpe).mp hi.1
      have hle := Nat.mod_le i a.numPes
      have hin : a.firstOn pe < a.size := by omega
      rw [if_pos hin, (hgreatest hin).unique hi]

/-! ## Positions on a PE -/

theorem globalIndexFromLocal_block (h : a.WellFormed len) (hd : a.distribution = .block)
    (pe j : ℕ) : (a.onPe pe).globalIndexFromLocal j = some
      (if cut len a.numPes pe < a.offset + a.size ∧ a.offset < cut len a.numPes (pe + 1)
      then some (a.offset + (cut len a.numPes pe - a.offset + j)) else none) := by
  have hlt := cut_lt_succ h.pos h.le pe
  simp only [globalIndexFromLocal, onPe_distribution, hd, onPe_boundary, onPe_myPe, onPe_offset,
    onPe_size, h.boundary_eq]
  by_cases hstart : a.offset ≤ cut len a.numPes pe
  · rw [if_pos (by omega)]
    by_cases hsize : cut len a.numPes pe - a.offset < a.size
    · rw [if_pos (by omega), if_pos (by omega)]
      congr 2
      omega
    · rw [if_neg (by omega), if_neg (by omega)]
  · rw [if_neg (by omega)]
    by_cases hend : a.offset < cut len a.numPes (pe + 1)
    · rw [if_pos hend, if_pos (by omega)]
      congr 2
      omega
    · rw [if_neg hend, if_neg (by omega)]

theorem globalIndexFromLocal_cyclic (h : a.WellFormed len) (hd : a.distribution = .cyclic)
    (hs : 0 < a.size) (hpe : a.myPe < a.numPes) (j : ℕ) : a.globalIndexFromLocal j = some
      (if j < a.numElemsPe a.myPe then some (a.offset + (a.firstOn a.myPe + j * a.numPes))
      else none) := by
  have hfirst := firstOn_cases h hpe
  have hlt := Nat.mod_lt a.offset h.pos
  have hend := peForDistIndex_cyclic hd (show a.size - 1 < a.size by omega)
  simp only [globalIndexFromLocal, numElemsPe, hd, peForDistIndex_cyclic hd hs, hend, Nat.add_zero,
    Option.bind_eq_bind, Option.bind_some]
  generalize (if a.size % a.numPes ≠ 0 then _ else _) = numElems
  by_cases hj : j < numElems
  · rw [if_pos hj, if_pos hj, Nat.mul_comm a.numPes]
    split
    · congr 2
      omega
    · congr 2
      omega
  · rw [if_neg hj, if_neg hj]

/-- The maps of position `j` on `pe`, and of the first and the last index there, are the inverse of
`pe_and_offset_for_global_index`. -/
structure LocalMapsExact (a : UnsafeArrayInner) (pe j : ℕ) : Prop where
  isSome : ((a.onPe pe).subarrayIndexFromLocal j).isSome ↔ j < a.numElemsPe pe
  inverse : ∀ i, (a.onPe pe).subarrayIndexFromLocal j = some i →
    a.peAndOffsetForGlobalIndex i = some (pe, j)
  «global» : (a.onPe pe).globalIndexFromLocal j =
    some (((a.onPe pe).subarrayIndexFromLocal j).map (a.offset + ·))
  first : ∀ i, a.startIndexForPe pe = some i ↔ IsLeast (a.storedOn pe) i
  last : ∀ i, a.endIndexForPe pe = some i ↔ IsGreatest (a.storedOn pe) i

theorem isSome_subarrayIndexFromLocal_cyclic (h : a.WellFormed len)
    (hd : a.distribution = .cyclic) (hpe : pe < a.numPes) (j : ℕ) :
    ((a.onPe pe).subarrayIndexFromLocal j).isSome ↔ j < a.numElemsPe pe := by
  rw [subarrayIndexFromLocal_cyclic h hd hpe, lt_numElemsPe_cyclic_iff h hd hpe]
  simp

/-- On a block distribution, what is missing is that position `j` is one of the PE's. -/
theorem LocalMapsExact.lt_of_block (h : a.WellFormed len) (hd : a.distribution = .block)
    {j : ℕ} (hexact : LocalMapsExact a pe j) (hpos : 0 < a.numElemsPe pe) :
    j < a.numElemsPe pe := by
  rw [← hexact.isSome]
  have hglobal := hexact.global
  have hnum := numElemsPe_block h hd pe
  rw [globalIndexFromLocal_block h hd, if_pos (by omega), Option.some_inj] at hglobal
  rw [← Option.isSome_map, ← hglobal]
  rfl

/-- On a cyclic distribution, `global_index_from_local` asks for the first index of the view. -/
theorem LocalMapsExact.pos_of_cyclic (hd : a.distribution = .cyclic) {j : ℕ}
    (hexact : LocalMapsExact a pe j) : 0 < a.size := by
  refine Nat.pos_of_ne_zero fun hzero => ?_
  have hglobal := hexact.global
  simp only [globalIndexFromLocal, onPe_distribution, hd, onPe_peForDistIndex,
    peForDistIndex_of_le (Nat.le_of_eq hzero), Option.bind_eq_bind, Option.bind_none] at hglobal
  cases hglobal

theorem localMapsExact_cyclic (h : a.WellFormed len) (hd : a.distribution = .cyclic)
    (hs : 0 < a.size) (hpe : pe < a.numPes) (j : ℕ) : LocalMapsExact a pe j where
  isSome := isSome_subarrayIndexFromLocal_cyclic h hd hpe j
  inverse i hi := by
    have hj := (isSome_subarrayIndexFromLocal_cyclic h hd hpe j).mp (by rw [hi]; rfl)
    exact (peAndOffset_of_local h hpe hj hi).2
  «global» := by
    have hglobal := globalIndexFromLocal_cyclic (h.onPe pe) hd hs hpe j
    rw [hglobal, subarrayIndexFromLocal_cyclic h hd hpe]
    simp only [onPe_numElemsPe, onPe_myPe, lt_numElemsPe_cyclic h hd hs hpe]
    split <;> rfl
  first i := startIndexForPe_least h (Or.inr hs) hpe
  last i := endIndexForPe_greatest h (Or.inr hs) hpe

theorem localMapsExact_block (h : a.WellFormed len) (hd : a.distribution = .block)
    (hs : a.offset = 0 ∨ 0 < a.size) (hpe : pe < a.numPes) {j : ℕ}
    (hj : a.numElemsPe pe = 0 ∨ j < a.numElemsPe pe) : LocalMapsExact a pe j := by
  have hfirst (i : ℕ) := startIndexForPe_least h hs hpe (i := i)
  have hlast (i : ℕ) := endIndexForPe_greatest h hs hpe (i := i)
  have hnum := numElemsPe_block h hd pe
  have hlt := cut_lt_succ h.pos h.le pe
  have hindex := subarrayIndexFromLocal_block h hd pe j
  rcases hj with hzero | hj
  · rw [if_neg (by omega)] at hindex
    refine ⟨iff_of_false ?_ (by omega), fun i hi => ?_, ?_, hfirst, hlast⟩
    · rw [hindex]
      exact Bool.false_ne_true
    · rw [hindex] at hi
      cases hi
    · rw [globalIndexFromLocal_block h hd, if_neg (by omega), hindex]
      rfl
  · rw [if_pos (by omega)] at hindex
    refine ⟨iff_of_true ?_ hj, fun i hi => (peAndOffset_of_local h hpe hj hi).2, ?_, hfirst, hlast⟩
    · rw [hindex]
      rfl
    · rw [globalIndexFromLocal_block h hd, if_pos (by omega), hindex]
      rfl

/-- The view is an array or a sub-array that is not empty. -/
theorem local_maps_exact (h : a.WellFormed len) (hs : a.offset = 0 ∨ 0 < a.size)
    (hpe : pe < a.numPes) (j : ℕ) :
    LocalMapsExact a pe j ↔ (a.distribution = .cyclic ∧ 0 < a.size) ∨
      (a.distribution = .block ∧ (a.numElemsPe pe = 0 ∨ j < a.numElemsPe pe)) := by
  cases hd : a.distribution with
  | block =>
    constructor
    · intro hexact
      have hcases := Nat.eq_zero_or_pos (a.numElemsPe pe)
      exact Or.inr ⟨rfl, hcases.imp_right (hexact.lt_of_block h hd)⟩
    · rintro (⟨⟨⟩, _⟩ | ⟨_, hj⟩)
      exact localMapsExact_block h hd hs hpe hj
  | cyclic =>
    constructor
    · exact fun hexact => Or.inl ⟨rfl, hexact.pos_of_cyclic hd⟩
    · rintro (⟨_, hpos⟩ | ⟨⟨⟩, _⟩)
      exact localMapsExact_cyclic h hd hpos hpe j

theorem local_maps_exact_seven_on_three :
    LocalMapsExact (view 0 3 7 .block 1 5) 1 2 :=
  (local_maps_exact (view_wellFormed (by decide) (by decide) (by decide)) (Or.inr (by decide))
    (by decide) 2).mpr (Or.inr ⟨rfl, Or.inr (by decide +kernel)⟩)

/-- PE 0 stores two of seven elements in blocks; position 2 there is given the index of the first
element of PE 1. -/
theorem local_maps_wrong : ¬ LocalMapsExact (view 0 3 7 .block 0 7) 0 2 := by
  intro h
  have hindex : ((view 0 3 7 .block 0 7).onPe 0).subarrayIndexFromLocal 2 = some 2 := by
    decide +kernel
  have hcount : (view 0 3 7 .block 0 7).numElemsPe 0 = 2 := by decide +kernel
  have hlt := h.isSome.mp (by rw [hindex]; rfl)
  omega

end Lamellar.Array.UnsafeArrayInner
