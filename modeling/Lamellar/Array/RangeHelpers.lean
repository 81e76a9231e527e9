import Lamellar.Array.LocalMaps
import Mathlib.Data.List.Sort

/-!
# The parts of a range on the PEs

`pes_for_range`, `num_elements_on_pe_for_range` and `local_elements_for_range` say in different
ways which elements of a range `[index, index + len)` are on a PE. All of them are what the index
map says: `localPositionsIn` lists the positions on a PE of the elements of the range, in their
order, and they follow one another (`localPositionsIn_block`, `localPositionsIn_cyclic`).
-/

namespace Lamellar.Array.UnsafeArrayInner

open Segments

/-- `num_elements_on_pe_for_range`; the outer `none` is a panic. -/
def numElementsOnPeForRange (a : UnsafeArrayInner) (pe index len : ℕ) : Option (Option ℕ) := do
  let startPe ← a.peForDistIndex index
  let endPe ← a.peForDistIndex (index + len - 1)
  match a.distribution with
  | .block =>
    let numElemsPe := a.numElemsPe pe
    if endPe < pe ∨ pe < startPe then some none
    else
      let subarrayStartIndex ← a.startIndexForPe pe
      let (startIndex, remElem) :=
        if pe = startPe then (index - subarrayStartIndex, len)
        else (0, len - (subarrayStartIndex - index))
      let endIndex := if pe = endPe then startIndex + remElem else numElemsPe
      some (some (endIndex - startIndex))
  | .cyclic =>
    let numElems := len / a.numPes +
      if len % a.numPes ≠ 0 ∧ (if startPe ≤ endPe then startPe ≤ pe ∧ pe ≤ endPe
        else startPe ≤ pe ∨ pe ≤ endPe) then 1 else 0
    if 0 < numElems then some (some numElems) else some none

variable {a : UnsafeArrayInner} {len pe index n : ℕ}

/-! ## The positions of a range -/

/-- The positions on `pe` of the elements of a range, in the order of the range -/
def localPositionsIn (a : UnsafeArrayInner) (pe index n : ℕ) : List ℕ :=
  (List.range' index n).filterMap fun i =>
    match a.peAndOffsetForGlobalIndex i with
    | some (p, j) => if p = pe then some j else none
    | none => none

theorem position_eq_some {i j : ℕ} :
    (match a.peAndOffsetForGlobalIndex i with
      | some (p, j) => if p = pe then some j else none
      | none => none) = some j ↔ a.peAndOffsetForGlobalIndex i = some (pe, j) := by
  cases a.peAndOffsetForGlobalIndex i with
  | none => simp
  | some x => simp [Prod.ext_iff]

theorem mem_localPositionsIn {j : ℕ} : j ∈ a.localPositionsIn pe index n ↔
    ∃ i, index ≤ i ∧ i < index + n ∧ a.peAndOffsetForGlobalIndex i = some (pe, j) := by
  simp only [localPositionsIn, List.mem_filterMap, List.mem_range'_1, position_eq_some, and_assoc]

theorem peAndOffset_block_iff (h : a.WellFormed len) (hd : a.distribution = .block) {i j : ℕ}
    (hi : i < a.size) : a.peAndOffsetForGlobalIndex i = some (pe, j) ↔
      cut len a.numPes pe ≤ a.offset + i ∧ a.offset + i < cut len a.numPes (pe + 1) ∧
        j = i - (cut len a.numPes pe - a.offset) := by
  rw [peAndOffset_block h hd hi, Option.some_inj, Prod.ext_iff]
  obtain ⟨hle, hlt, -⟩ := segOf_meets h hi
  constructor
  · rintro ⟨rfl, rfl⟩
    exact ⟨hle, hlt, rfl⟩
  · rintro ⟨hle, hlt, rfl⟩
    have hseg := segOf_eq h.pos h.le hle hlt
    exact ⟨hseg, by rw [hseg]⟩

theorem peAndOffset_cyclic_iff (h : a.WellFormed len) (hd : a.distribution = .cyclic)
    (hpe : pe < a.numPes) {i j : ℕ} (hi : i < a.size) :
    a.peAndOffsetForGlobalIndex i = some (pe, j) ↔ i = a.firstOn pe + j * a.numPes := by
  rw [peAndOffset_cyclic hd hi, Option.some_inj, Prod.ext_iff]
  dsimp only
  rw [mod_eq_iff_firstOn h hpe]
  have hdm := Nat.mod_add_div' i a.numPes
  constructor
  · rintro ⟨hmod, hdiv⟩
    rw [← hmod, ← hdiv, hdm]
  · rintro rfl
    have hfirst := firstOn_lt h pe
    rw [Nat.add_mul_mod_self_right, Nat.mod_eq_of_lt hfirst, Nat.add_mul_div_right _ _ h.pos,
      Nat.div_eq_of_lt hfirst, Nat.zero_add]
    exact ⟨rfl, rfl⟩

/-- The positions on a PE increase with the indices. -/
theorem position_lt (h : a.WellFormed len) (hpe : pe < a.numPes) {i i' j j' : ℕ} (hlt : i < i')
    (hi' : i' < a.size) (hj : a.peAndOffsetForGlobalIndex i = some (pe, j))
    (hj' : a.peAndOffsetForGlobalIndex i' = some (pe, j')) : j < j' := by
  have hi : i < a.size := Nat.lt_trans hlt hi'
  cases hd : a.distribution with
  | block =>
    obtain ⟨hle, -, rfl⟩ := (peAndOffset_block_iff h hd hi).mp hj
    obtain ⟨-, -, rfl⟩ := (peAndOffset_block_iff h hd hi').mp hj'
    omega
  | cyclic =>
    have hfirst := (peAndOffset_cyclic_iff h hd hpe hi).mp hj
    have hsecond := (peAndOffset_cyclic_iff h hd hpe hi').mp hj'
    exact Nat.lt_of_mul_lt_mul_right (show j * a.numPes < j' * a.numPes by omega)

theorem localPositionsIn_sorted (h : a.WellFormed len) (hpe : pe < a.numPes)
    (hfit : index + n ≤ a.size) : (a.localPositionsIn pe index n).Pairwise (· < ·) := by
  rw [localPositionsIn, List.pairwise_filterMap]
  refine List.Pairwise.imp_of_mem (fun {i i'} _ hi' hlt j hj j' hj' => ?_) List.pairwise_lt_range'
  rw [List.mem_range'_1] at hi'
  exact position_lt h hpe hlt (by omega) (position_eq_some.mp hj) (position_eq_some.mp hj')

theorem localPositionsIn_eq (h : a.WellFormed len) (hpe : pe < a.numPes) (hfit : index + n ≤ a.size)
    {lo hi : ℕ} (hmem : ∀ j, j ∈ a.localPositionsIn pe index n ↔ lo ≤ j ∧ j < hi) :
    a.localPositionsIn pe index n = List.range' lo (hi - lo) := by
  refine (localPositionsIn_sorted h hpe hfit).eq_of_mem_iff List.pairwise_lt_range' fun j => ?_
  rw [hmem, List.mem_range'_1]
  omega

/-! ## Block distribution -/

/-- Where the positions of a range begin and end on `pe`, in a block distribution -/
def blockBounds (a : UnsafeArrayInner) (len pe index n : ℕ) : ℕ × ℕ :=
  let first := cut len a.numPes pe - a.offset
  (max index first - first, min (index + n) (cut len a.numPes (pe + 1) - a.offset) - first)

theorem localPositionsIn_block (h : a.WellFormed len) (hd : a.distribution = .block)
    (hpe : pe < a.numPes) (hfit : index + n ≤ a.size) :
    a.localPositionsIn pe index n = List.range' (a.blockBounds len pe index n).1
      ((a.blockBounds len pe index n).2 - (a.blockBounds len pe index n).1) := by
  refine localPositionsIn_eq h hpe hfit fun j => ?_
  have hlt := cut_lt_succ h.pos h.le pe
  rw [mem_localPositionsIn, blockBounds]
  dsimp only
  constructor
  · rintro ⟨i, hlo, hhi, hi⟩
    obtain ⟨hle, hlt, rfl⟩ := (peAndOffset_block_iff h hd (by omega)).mp hi
    omega
  · rintro ⟨hlo, hhi⟩
    refine ⟨cut len a.numPes pe - a.offset + j, by omega, by omega, ?_⟩
    exact (peAndOffset_block_iff h hd (by omega)).mpr (by omega)

/-- What the helpers compute on `pe` from the PEs of the first and of the last element -/
theorem blockBounds_spec (h : a.WellFormed len) (hd : a.distribution = .block) (hn : 0 < n)
    (hfit : index + n ≤ a.size) {startPe endPe lo hi first : ℕ}
    (hstart : segOf len a.numPes (a.offset + index) = startPe)
    (hend : segOf len a.numPes (a.offset + index + n - 1) = endPe)
    (hbounds : a.blockBounds len pe index n = (lo, hi))
    (hfirst : cut len a.numPes pe - a.offset = first) :
    (endPe < pe ∨ pe < startPe → ¬ lo < hi) ∧
      (¬ (endPe < pe ∨ pe < startPe) → lo < hi ∧ hi ≤ a.numElemsPe pe ∧
        a.startIndexForPe pe = some first ∧
        (if pe = startPe then (index - first, n) else (0, n - (first - index))) =
          (lo, index + n - first - lo) ∧
        (if pe = endPe then lo + (index + n - first - lo) else a.numElemsPe pe) = hi) := by
  obtain ⟨hs, hs'⟩ := segOf_spec h.pos h.le (a.offset + index)
  obtain ⟨he, he'⟩ := segOf_spec h.pos h.le (a.offset + index + n - 1)
  rw [hstart] at hs hs'
  rw [hend] at he he'
  have hmono := cut_strictMono h.pos h.le
  have hlt := cut_lt_succ h.pos h.le pe
  rw [blockBounds, hfirst, Prod.mk.injEq] at hbounds
  obtain ⟨hlo, hhi⟩ := hbounds
  constructor
  · rintro (hafter | hbefore)
    · have hle : cut len a.numPes (endPe + 1) ≤ cut len a.numPes pe := hmono.monotone hafter
      omega
    · have hle : cut len a.numPes (pe + 1) ≤ cut len a.numPes startPe := hmono.monotone hbefore
      omega
  · intro hmeets
    have hge : cut len a.numPes startPe ≤ cut len a.numPes pe := hmono.monotone (by omega)
    have hle : cut len a.numPes pe ≤ cut len a.numPes endPe := hmono.monotone (by omega)
    have hge' : cut len a.numPes (startPe + 1) ≤ cut len a.numPes (pe + 1) :=
      hmono.monotone (by omega)
    have hnum := numElemsPe_block h hd pe
    rw [startIndexForPe_block h hd, if_pos (by omega)]
    refine ⟨by omega, by omega, congrArg some hfirst, ?_, ?_⟩
    · by_cases hsame : pe = startPe
      · subst hsame
        rw [if_pos rfl, Prod.mk.injEq]
        omega
      · have hprev : cut len a.numPes (startPe + 1) ≤ cut len a.numPes pe :=
          hmono.monotone (by omega)
        rw [if_neg hsame, Prod.mk.injEq]
        omega
    · by_cases hsame : pe = endPe
      · subst hsame
        rw [if_pos rfl]
        omega
      · have hnext : cut len a.numPes (pe + 1) ≤ cut len a.numPes endPe :=
          hmono.monotone (by omega)
        rw [if_neg hsame]
        omega

/-- The outcome of a helper on a range whose positions begin at `lo` and end at `hi` -/
def partOf {α : Type} (lo hi : ℕ) (part : α) : Option (Option α) :=
  some (if lo < hi then some part else none)

theorem helpers_block (h : a.WellFormed len) (hd : a.distribution = .block) (hn : 0 < n)
    (hfit : index + n ≤ a.size) {lo hi : ℕ}
    (hbounds : a.blockBounds len pe index n = (lo, hi)) :
    a.numElementsOnPeForRange pe index n = partOf lo hi (hi - lo) ∧
      (a.onPe pe).localElementsForRange index n =
        partOf lo hi
          (((a.onPe pe).localAsMutPtr + lo, (a.onPe pe).localAsMutPtr + hi), (lo, hi)) := by
  have hfits := h.fits
  have hstart := peForDistIndex_block h hd (show index < a.size by omega)
  have hend := peForDistIndex_block h hd (show index + n - 1 < a.size by omega)
  rw [show a.offset + (index + n - 1) = a.offset + index + n - 1 by omega] at hend
  obtain ⟨hapart, hmeets⟩ := blockBounds_spec h hd hn hfit rfl rfl hbounds rfl
  rw [localElementsForRange_onPe_block hd]
  simp only [numElementsOnPeForRange, hd, hstart, hend, Option.bind_eq_bind, Option.bind_some]
  by_cases hout : segOf len a.numPes (a.offset + index + n - 1) < pe ∨
      pe < segOf len a.numPes (a.offset + index)
  · rw [if_pos hout, if_pos hout]
    simp only [partOf, if_neg (hapart hout), and_self]
  · obtain ⟨hlt, hle, hfirst, hbegin, hstop⟩ := hmeets hout
    have hslice := localAsMutSlice_fst (show 0 < a.size by omega) pe
    have hfitsSlice : lo ≤ hi ∧ (a.onPe pe).localAsMutPtr + hi ≤
        (a.onPe pe).localAsMutPtr + a.numElemsPe pe := by omega
    rw [if_neg hout, if_neg hout, hfirst, hslice]
    simp only [Option.bind_some, hbegin, hstop, subSlice, if_pos hfitsSlice, partOf, if_pos hlt,
      and_self]

/-! ## Cyclic distribution -/

/-- Where the positions of a range begin and end on `pe`, in a cyclic distribution -/
def cyclicBounds (a : UnsafeArrayInner) (pe index n : ℕ) : ℕ × ℕ :=
  let start := (index + (a.part index n).firstOn pe) / a.numPes
  (start, start + (a.part index n).numElemsPe pe)

/-- The first index from `index` on that is on `pe` -/
theorem firstOn_part (h : a.WellFormed len) (hpe : pe < a.numPes) (hfit : index + n ≤ a.size) :
    (a.part index n).firstOn pe < a.numPes ∧ index + (a.part index n).firstOn pe =
      a.firstOn pe + (index + (a.part index n).firstOn pe) / a.numPes * a.numPes := by
  have hlt := firstOn_lt (h.part hfit) pe
  refine ⟨hlt, ?_⟩
  have hmod := (mod_eq_iff_firstOn (h.part hfit) hpe _).mpr (Nat.mod_eq_of_lt hlt)
  have hmod' : (a.offset + (index + (a.part index n).firstOn pe)) % a.numPes = pe := by
    rw [← Nat.add_assoc]
    exact hmod
  have hfirst := (mod_eq_iff_firstOn h hpe _).mp hmod'
  have hdm := Nat.mod_add_div' (index + (a.part index n).firstOn pe) a.numPes
  omega

theorem localPositionsIn_cyclic (h : a.WellFormed len) (hd : a.distribution = .cyclic)
    (hpe : pe < a.numPes) (hfit : index + n ≤ a.size) :
    a.localPositionsIn pe index n = List.range' (a.cyclicBounds pe index n).1
      ((a.cyclicBounds pe index n).2 - (a.cyclicBounds pe index n).1) := by
  refine localPositionsIn_eq h hpe hfit fun j => ?_
  obtain ⟨hlt, hfirst⟩ := firstOn_part h hpe hfit
  have hnum := lt_numElemsPe_cyclic_iff (h.part hfit) hd hpe
  rw [mem_localPositionsIn, cyclicBounds]
  dsimp only
  generalize (index + (a.part index n).firstOn pe) / a.numPes = start at hfirst ⊢
  constructor
  · rintro ⟨i, hlo, hhi, hi⟩
    have hij := (peAndOffset_cyclic_iff h hd hpe (by omega)).mp hi
    -- an earlier position would be a whole turn before `index`
    have hle : start ≤ j := Nat.le_of_not_lt fun hj => by
      have hmul := Nat.mul_le_mul_right a.numPes (show j + 1 ≤ start from hj)
      rw [Nat.succ_mul] at hmul
      omega
    obtain ⟨k, rfl⟩ := Nat.exists_eq_add_of_le hle
    rw [Nat.add_mul] at hij
    have hk := (hnum k).mpr (show _ < n by change _ + k * a.numPes < n; omega)
    omega
  · rintro ⟨hlo, hhi⟩
    obtain ⟨k, rfl⟩ := Nat.exists_eq_add_of_le hlo
    have hk : (a.part index n).firstOn pe + k * a.numPes < n := (hnum k).mp (by omega)
    refine ⟨a.firstOn pe + (start + k) * a.numPes, ?_, ?_, ?_⟩
    · rw [Nat.add_mul]
      omega
    · rw [Nat.add_mul]
      omega
    · rw [peAndOffset_cyclic_iff h hd hpe (by rw [Nat.add_mul]; omega)]

theorem helpers_cyclic (h : a.WellFormed len) (hd : a.distribution = .cyclic) (hn : 0 < n)
    (hpe : pe < a.numPes) (hfit : index + n ≤ a.size) {lo hi : ℕ}
    (hbounds : a.cyclicBounds pe index n = (lo, hi)) (hroom : lo < hi → hi ≤ a.numElemsPe pe) :
    a.numElementsOnPeForRange pe index n = partOf lo hi (hi - lo) ∧
      (a.onPe pe).localElementsForRange index n =
        partOf lo hi
          (((a.onPe pe).localAsMutPtr + lo, (a.onPe pe).localAsMutPtr + hi), (lo, hi)) := by
  have hstart := peForDistIndex_cyclic hd (show index < a.size by omega)
  have hend := peForDistIndex_cyclic hd (show index + n - 1 < a.size by omega)
  rw [show a.offset + (index + n - 1) = a.offset + index + n - 1 by omega] at hend
  rw [cyclicBounds, Prod.mk.injEq] at hbounds
  obtain ⟨hlo, hhi⟩ := hbounds
  have hlocal : (if (a.offset + index) % a.numPes ≤ pe then
        index + (pe - (a.offset + index) % a.numPes)
      else index + (a.numPes - (a.offset + index) % a.numPes + pe)) / a.numPes = lo := by
    rw [← hlo]
    congr 1
    have hlt := Nat.mod_lt (a.offset + index) h.pos
    have hcases : (a.offset + index) % a.numPes ≤ pe ∧ _ ∨ pe < (a.offset + index) % a.numPes ∧ _ :=
      firstOn_cases (h.part hfit) hpe
    change (_ ∧ _ = pe - (a.offset + index) % a.numPes) ∨
      (_ ∧ _ = pe + a.numPes - (a.offset + index) % a.numPes) at hcases
    split
    · omega
    · omega
  rw [localElementsForRange_onPe_cyclic hd]
  simp only [numElementsOnPeForRange, hd, hstart, hend, Option.bind_eq_bind, Option.bind_some,
    numElems_part hd hn, hlocal]
  have hslice := localAsMutSlice_fst (show 0 < a.size by omega) pe
  by_cases hpos : 0 < (a.part index n).numElemsPe pe
  · have hfitsSlice : lo ≤ lo + (a.part index n).numElemsPe pe ∧
        (a.onPe pe).localAsMutPtr + (lo + (a.part index n).numElemsPe pe) ≤
          (a.onPe pe).localAsMutPtr + a.numElemsPe pe := by omega
    have hlt : lo < lo + (a.part index n).numElemsPe pe := by omega
    rw [hlo] at hhi
    subst hhi
    simp only [if_pos hpos, hslice, Option.bind_some, subSlice, if_pos hfitsSlice, partOf,
      if_pos hlt, Nat.add_sub_cancel_left, and_self]
  · have hnone : ¬ lo < hi := by omega
    simp only [if_neg hpos, partOf, if_neg hnone, and_self]

/-! ## The PEs of a range -/

theorem mem_pesForRange_block (h : a.WellFormed len) (hd : a.distribution = .block) (hn : 0 < n)
    (hfit : index + n ≤ a.size) : (a.pesForRange index n).Nodup ∧
      ∀ pe, pe ∈ a.pesForRange index n ↔
        ∃ i, index ≤ i ∧ i < index + n ∧ i ∈ a.storedOn pe := by
  have hstart := peForDistIndex_block h hd (show index < a.size by omega)
  have hend := peForDistIndex_block h hd (show index + n - 1 < a.size by omega)
  obtain ⟨hs, hs'⟩ := segOf_spec h.pos h.le (a.offset + index)
  obtain ⟨he, he'⟩ := segOf_spec h.pos h.le (a.offset + (index + n - 1))
  have hmono := cut_strictMono h.pos h.le
  simp only [pesForRange, hd, hstart, hend]
  refine ⟨List.nodup_range', fun pe => ?_⟩
  rw [List.mem_range'_1]
  generalize segOf len a.numPes (a.offset + index) = startPe at hs hs' ⊢
  generalize segOf len a.numPes (a.offset + (index + n - 1)) = endPe at he he' ⊢
  constructor
  · intro hpe
    have hle : cut len a.numPes pe ≤ cut len a.numPes endPe := hmono.monotone (by omega)
    have hge : cut len a.numPes (startPe + 1) ≤ cut len a.numPes (pe + 1) :=
      hmono.monotone (by omega)
    have hlt := cut_lt_succ h.pos h.le pe
    refine ⟨max index (cut len a.numPes pe - a.offset), by omega, by omega, ?_⟩
    exact (mem_storedOn_block h hd).mpr (by omega)
  · rintro ⟨i, hlo, hhi, hi⟩
    obtain ⟨-, hle, hlt⟩ := (mem_storedOn_block h hd).mp hi
    have hge : startPe < pe + 1 := hmono.lt_iff_lt.mp (by omega)
    have hle : pe < endPe + 1 := hmono.lt_iff_lt.mp (by omega)
    omega

theorem mem_pesForRange_cyclic (h : a.WellFormed len) (hd : a.distribution = .cyclic)
    (hfit : index + n ≤ a.size) : (a.pesForRange index n).Nodup ∧
      ∀ pe, pe ∈ a.pesForRange index n ↔
        ∃ i, index ≤ i ∧ i < index + n ∧ i ∈ a.storedOn pe := by
  have hpes : a.pesForRange index n =
      (List.range (min n a.numPes)).map fun i => (a.offset + index + i) % a.numPes := by
    simp only [pesForRange, hd, List.range'_eq_map_range, List.map_map, ← List.map_take,
      List.take_range, Nat.min_comm a.numPes n]
    rfl
  rw [hpes]
  constructor
  · refine List.Nodup.map_on (fun i hi k hk heq => ?_) List.nodup_range
    rw [List.mem_range] at hi hk
    have hmod : i % a.numPes = k % a.numPes := Nat.ModEq.add_left_cancel' _ heq
    rwa [Nat.mod_eq_of_lt (by omega), Nat.mod_eq_of_lt (by omega)] at hmod
  · intro pe
    simp only [List.mem_map, List.mem_range, mem_storedOn]
    constructor
    · rintro ⟨i, hi, rfl⟩
      refine ⟨index + i, by omega, by omega, ?_⟩
      rw [peForDistIndex_cyclic hd (by omega), Nat.add_assoc]
    · rintro ⟨i, hlo, hhi, hi⟩
      rw [peForDistIndex_cyclic hd (by omega), Option.some_inj] at hi
      have hlt := Nat.mod_lt (i - index) h.pos
      have hle := Nat.mod_le (i - index) a.numPes
      refine ⟨(i - index) % a.numPes, by omega, ?_⟩
      rw [Nat.add_mod_mod, ← hi]
      congr 1
      omega

/-! ## The elements of a range are shared out -/

theorem length_localPositionsIn (index n : ℕ) : (a.localPositionsIn pe index n).length =
    (List.range' index n).countP fun i =>
      (a.peAndOffsetForGlobalIndex i).map Prod.fst = some pe := by
  rw [localPositionsIn, List.length_filterMap_eq_countP]
  refine List.countP_congr fun i _ => ?_
  cases a.peAndOffsetForGlobalIndex i with
  | none => simp
  | some x => by_cases hx : x.1 = pe <;> simp [hx]

theorem sum_countP_eq {α : Type} {owner : α → Option ℕ} {P : ℕ} {l : List α}
    (h : ∀ x ∈ l, ∃ pe < P, owner x = some pe) :
    ∑ pe ∈ Finset.range P, l.countP (fun x => owner x = some pe) = l.length := by
  induction l with
  | nil => simp
  | cons x l ih =>
    obtain ⟨pe, hpe, hx⟩ := h x List.mem_cons_self
    have hone : ∑ p ∈ Finset.range P, (if pe = p then 1 else 0) = 1 := by
      rw [Finset.sum_ite_eq, if_pos (Finset.mem_range.mpr hpe)]
    simp only [List.countP_cons, hx, Finset.sum_add_distrib, Option.some.injEq, decide_eq_true_eq,
      hone, ih fun x hx => h x (List.mem_cons_of_mem _ hx), List.length_cons]

theorem sum_localPositionsIn (h : a.WellFormed len) (hfit : index + n ≤ a.size) :
    ∑ pe ∈ Finset.range a.numPes, (a.localPositionsIn pe index n).length = n := by
  simp only [length_localPositionsIn]
  refine (sum_countP_eq fun i hi => ?_).trans List.length_range'
  rw [List.mem_range'_1] at hi
  obtain ⟨x, ⟨hpe, -⟩, hx⟩ := peAndOffset_mapsTo h (by omega) (show i < a.size by omega)
  exact ⟨x.1, hpe, by rw [hx]; rfl⟩

/-! ## All helpers -/

/-- The helpers agree with the index map on the range `[index, index + n)`. -/
structure RangeHelpersAgree (a : UnsafeArrayInner) (index n : ℕ) : Prop where
  nodup_pes : (a.pesForRange index n).Nodup
  mem_pes : ∀ pe, pe ∈ a.pesForRange index n ↔
    ∃ i, index ≤ i ∧ i < index + n ∧ a.peForDistIndex i = some pe
  count : ∀ pe < a.numPes, ∃ count, a.numElementsOnPeForRange pe index n = some count ∧
    count.getD 0 = (a.localPositionsIn pe index n).length
  sum : ∑ pe ∈ Finset.range a.numPes, (a.localPositionsIn pe index n).length = n
  elements : ∀ pe < a.numPes, ∃ elements,
    (a.onPe pe).localElementsForRange index n = some elements ∧
    match elements with
    | some ((start, stop), (lo, hi)) =>
      a.localPositionsIn pe index n = List.range' lo (hi - lo) ∧
        start = (a.onPe pe).localAsMutPtr + lo ∧ stop = (a.onPe pe).localAsMutPtr + hi
    | none => a.localPositionsIn pe index n = []
  increasing : ∀ pe < a.numPes, (a.localPositionsIn pe index n).Pairwise (· < ·)

/-- The positions on a PE are those that both helpers give. -/
theorem exists_bounds (h : a.WellFormed len) (hn : 0 < n) (hfit : index + n ≤ a.size)
    (hpe : pe < a.numPes) : ∃ lo hi, a.localPositionsIn pe index n = List.range' lo (hi - lo) ∧
      a.numElementsOnPeForRange pe index n = partOf lo hi (hi - lo) ∧
      (a.onPe pe).localElementsForRange index n =
        partOf lo hi
          (((a.onPe pe).localAsMutPtr + lo, (a.onPe pe).localAsMutPtr + hi), (lo, hi)) := by
  cases hd : a.distribution with
  | block => exact ⟨_, _, localPositionsIn_block h hd hpe hfit, helpers_block h hd hn hfit rfl⟩
  | cyclic =>
    have hpositions := localPositionsIn_cyclic h hd hpe hfit
    refine ⟨_, _, hpositions, helpers_cyclic h hd hn hpe hfit rfl fun hlt => ?_⟩
    -- the last position is one of the view's
    have hlast : (a.cyclicBounds pe index n).2 - 1 ∈ a.localPositionsIn pe index n := by
      rw [hpositions, List.mem_range'_1]
      omega
    obtain ⟨i, hlo, hhi, hi⟩ := mem_localPositionsIn.mp hlast
    obtain ⟨x, ⟨-, hx⟩, heq⟩ := peAndOffset_mapsTo h (by omega) (show i < a.size by omega)
    rw [hi] at heq
    cases heq
    dsimp only at hx
    omega

theorem range_helpers_agree (h : a.WellFormed len) (hn : 1 ≤ n) (hfit : index + n ≤ a.size) :
    RangeHelpersAgree a index n := by
  have hpes : (a.pesForRange index n).Nodup ∧ ∀ pe, pe ∈ a.pesForRange index n ↔
      ∃ i, index ≤ i ∧ i < index + n ∧ i ∈ a.storedOn pe := by
    cases hd : a.distribution with
    | block => exact mem_pesForRange_block h hd hn hfit
    | cyclic => exact mem_pesForRange_cyclic h hd hfit
  refine ⟨hpes.1, hpes.2, fun pe hpe => ?_, sum_localPositionsIn h hfit, fun pe hpe => ?_,
    fun pe hpe => localPositionsIn_sorted h hpe hfit⟩
  · obtain ⟨lo, hi, hpositions, hcount, -⟩ := exists_bounds h hn hfit hpe
    refine ⟨_, hcount, ?_⟩
    rw [hpositions, List.length_range']
    split
    · rfl
    · rw [Option.getD_none]
      omega
  · obtain ⟨lo, hi, hpositions, -, helements⟩ := exists_bounds h hn hfit hpe
    refine ⟨_, helements, ?_⟩
    by_cases hlt : lo < hi
    · rw [if_pos hlt]
      exact ⟨hpositions, rfl, rfl⟩
    · rw [if_neg hlt, hpositions, Nat.sub_eq_zero_of_le (by omega)]
      rfl

/-- The elements 2, 3 and 4 of a view from index 1 on, of seven elements dealt out to three PEs -/
theorem range_helpers_agree_seven_on_three :
    RangeHelpersAgree (view 0 3 7 .cyclic 1 5) 2 3 ∧
      RangeHelpersAgree (view 0 3 7 .block 1 5) 2 3 :=
  ⟨range_helpers_agree (view_wellFormed (by decide) (by decide) (by decide)) (by decide)
      (by decide),
    range_helpers_agree (view_wellFormed (by decide) (by decide) (by decide)) (by decide)
      (by decide)⟩

end Lamellar.Array.UnsafeArrayInner
