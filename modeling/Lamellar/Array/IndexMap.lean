import Lamellar.Array.Layout
import Mathlib.Algebra.BigOperators.Group.Finset.Sigma
import Mathlib.Data.Set.Card

/-!
# Where the elements of a view live

`home` says where a full array of `len` elements keeps index `g`: a block distribution
gives `g` to the segment it lies in, a cyclic one deals the indices out in turn. Every
function of the source that places elements of a view is computed here in those terms,
separately for the two distributions, and the results meet in two statements that no
longer mention the distribution:

* `physicalSlot_eq_home`: index `i` of a view is stored at the home of `offset + i`;
* `peAndOffset_bijOn`: the pairs (PE, position on the PE) number the elements of a view.
-/

namespace Lamellar.Array

open Segments

/-- The PE and the position in that PE's memory region at which a full array of `len`
elements keeps index `g`. -/
def home (d : Distribution) (len numPes g : ℕ) : ℕ × ℕ :=
  match d with
  | .block => (segOf len numPes g, g - cut len numPes (segOf len numPes g))
  | .cyclic => (g % numPes, g / numPes)

theorem home_fst_lt {d : Distribution} {len numPes g : ℕ} (hP : 0 < numPes)
    (hN : numPes ≤ len) (hg : g < len) : (home d len numPes g).1 < numPes := by
  cases d with
  | block => exact segOf_lt hP hN hg
  | cyclic => exact Nat.mod_lt _ hP

theorem home_snd_lt {d : Distribution} {len numPes g : ℕ} (hP : 0 < numPes)
    (hN : numPes ≤ len) (hg : g < len) : (home d len numPes g).2 < perPeSize len numPes := by
  unfold perPeSize
  rw [ceil_ratio len numPes hP]
  cases d with
  | block =>
    obtain ⟨h1, h2⟩ := segOf_spec hP hN g
    have h3 := cut_succ_le (N := len) hP (segOf len numPes g)
    simp only [home]
    omega
  | cyclic =>
    simp only [home]
    rw [Nat.div_lt_iff_lt_mul hP]
    have hmod := Nat.div_add_mod (len + numPes - 1) numPes
    have hlt := Nat.mod_lt (len + numPes - 1) hP
    rw [Nat.mul_comm]
    omega

theorem home_injective {d : Distribution} {len numPes : ℕ} (hP : 0 < numPes)
    (hN : numPes ≤ len) : Function.Injective (home d len numPes) := by
  intro g g' h
  cases d with
  | block =>
    simp only [home, Prod.mk.injEq] at h
    obtain ⟨hseg, hoff⟩ := h
    obtain ⟨h1, _⟩ := segOf_spec hP hN g
    obtain ⟨h2, _⟩ := segOf_spec hP hN g'
    rw [hseg] at h1 hoff
    omega
  | cyclic =>
    simp only [home, Prod.mk.injEq] at h
    rw [← Nat.div_add_mod g numPes, ← Nat.div_add_mod g' numPes, h.1, h.2]

namespace UnsafeArrayInner

variable {a : UnsafeArrayInner} {len : ℕ}

/-! ## Block distribution -/

theorem peForDistIndex_block (h : a.WellFormed len) (hd : a.distribution = .block) {i : ℕ}
    (hi : i < a.size) : a.peForDistIndex i = some (segOf len a.numPes (a.offset + i)) := by
  simp only [peForDistIndex, hi, if_true, hd, h.boundary_eq, h.elemPerPe, floor_div_ratio,
    segOf, Nat.add_comm i a.offset]

/-- `start_index_for_pe` is defined exactly on the PEs whose segment meets the view. -/
theorem startIndexForPe_block (h : a.WellFormed len) (hd : a.distribution = .block)
    (pe : ℕ) : a.startIndexForPe pe =
      if cut len a.numPes pe < a.offset + a.size ∧ a.offset < cut len a.numPes (pe + 1)
      then some (cut len a.numPes pe - a.offset) else none := by
  have hlt := cut_lt_succ h.pos h.le pe
  simp only [startIndexForPe, hd, h.boundary_eq]
  by_cases hstart : a.offset ≤ cut len a.numPes pe
  · have htoNat : ((cut len a.numPes pe : ℤ) - a.offset).toNat =
        cut len a.numPes pe - a.offset := by omega
    rw [if_pos (by omega), htoNat]
    by_cases hsize : cut len a.numPes pe - a.offset < a.size
    · rw [if_pos hsize, if_pos (by omega)]
    · rw [if_neg hsize, if_neg (by omega)]
  · rw [if_neg (by omega)]
    by_cases hend : a.offset < cut len a.numPes (pe + 1)
    · rw [if_pos hend, if_pos (by omega), Nat.sub_eq_zero_of_le (by omega)]
    · rw [if_neg hend, if_neg (by omega)]

theorem numElemsPe_block (h : a.WellFormed len) (hd : a.distribution = .block) (pe : ℕ) :
    a.numElemsPe pe =
      min (cut len a.numPes (pe + 1) - a.offset) a.size - (cut len a.numPes pe - a.offset) := by
  have hlt := cut_lt_succ h.pos h.le pe
  have hlt' := cut_lt_succ h.pos h.le (pe + 1)
  simp only [numElemsPe, hd, startIndexForPe_block h hd]
  by_cases hmeet :
      cut len a.numPes pe < a.offset + a.size ∧ a.offset < cut len a.numPes (pe + 1)
  · rw [if_pos hmeet]
    by_cases hnext : cut len a.numPes (pe + 1) < a.offset + a.size
    · rw [if_pos ⟨hnext, by omega⟩]
      simp only
      omega
    · rw [if_neg (by omega)]
      simp only
      omega
  · rw [if_neg hmeet]
    simp only
    omega

/-- The segment of an index of the view meets the view, and bounds its position. -/
theorem segOf_meets (h : a.WellFormed len) {i : ℕ} (hi : i < a.size) :
    cut len a.numPes (segOf len a.numPes (a.offset + i)) ≤ a.offset + i ∧
      a.offset + i < cut len a.numPes (segOf len a.numPes (a.offset + i) + 1) ∧
      segOf len a.numPes (a.offset + i) < a.numPes := by
  have hfits := h.fits
  obtain ⟨h1, h2⟩ := segOf_spec h.pos h.le (a.offset + i)
  exact ⟨h1, h2, segOf_lt h.pos h.le (by omega)⟩

theorem peOffsetForDistIndex_block (h : a.WellFormed len) (hd : a.distribution = .block)
    {i : ℕ} (hi : i < a.size) :
    a.peOffsetForDistIndex (segOf len a.numPes (a.offset + i)) i =
      some (i - (cut len a.numPes (segOf len a.numPes (a.offset + i)) - a.offset)) := by
  obtain ⟨h1, h2, _⟩ := segOf_meets h hi
  simp only [peOffsetForDistIndex, hd, startIndexForPe_block h hd, numElemsPe_block h hd]
  rw [if_pos (by omega)]
  simp only [Option.bind_eq_bind, Option.bind_some]
  rw [if_pos (by omega)]

theorem localAsMutSlice_block (h : a.WellFormed len) (hd : a.distribution = .block)
    (hs : 0 < a.size) {pe : ℕ} (hhigh : a.offset < cut len a.numPes (pe + 1)) :
    (a.onPe pe).localAsMutSlice =
      some (a.offset - cut len a.numPes pe,
        a.offset - cut len a.numPes pe + a.numElemsPe pe) := by
  obtain ⟨hstart, hstart'⟩ := segOf_spec h.pos h.le a.offset
  simp only [localAsMutSlice, onPe_distribution, hd, onPe_peForDistIndex, onPe_myPe,
    onPe_offset, onPe_boundary, onPe_numElemsLocal, h.boundary_eq,
    peForDistIndex_block h hd hs, Nat.add_zero, Option.bind_eq_bind, Option.bind_some]
  by_cases hsame : pe = segOf len a.numPes a.offset
  · rw [if_pos hsame]
  · rw [if_neg hsame]
    have hpe : segOf len a.numPes a.offset < pe + 1 :=
      (cut_strictMono h.pos h.le).lt_iff_lt.mp (by omega)
    have hle : cut len a.numPes (segOf len a.numPes a.offset + 1) ≤ cut len a.numPes pe :=
      (cut_strictMono h.pos h.le).monotone (by omega)
    rw [Nat.sub_eq_zero_of_le (by omega)]

theorem physicalSlot_block (h : a.WellFormed len) (hd : a.distribution = .block) {i : ℕ}
    (hi : i < a.size) : a.physicalSlot i = some (home .block len a.numPes (a.offset + i)) := by
  obtain ⟨h1, h2, _⟩ := segOf_meets h hi
  have hslice := localAsMutSlice_block h hd (by omega)
    (show a.offset < cut len a.numPes (segOf len a.numPes (a.offset + i) + 1) by omega)
  simp only [physicalSlot, peAndOffsetForGlobalIndex, peForDistIndex_block h hd hi,
    peOffsetForDistIndex_block h hd hi, hslice, Option.bind_eq_bind,
    Option.bind_some, Option.pure_def, home, Option.some.injEq, Prod.mk.injEq, true_and]
  omega

/-! ## Cyclic distribution -/

theorem peForDistIndex_cyclic (hd : a.distribution = .cyclic) {i : ℕ} (hi : i < a.size) :
    a.peForDistIndex i = some ((a.offset + i) % a.numPes) := by
  simp only [peForDistIndex, hi, if_true, hd, Nat.add_comm i a.offset]

/-- The first index of the view that a cyclic distribution places on `pe`. -/
def firstOn (a : UnsafeArrayInner) (pe : ℕ) : ℕ := (pe + a.numPes - a.offset % a.numPes) % a.numPes

theorem firstOn_lt (h : a.WellFormed len) (pe : ℕ) : a.firstOn pe < a.numPes :=
  Nat.mod_lt _ h.pos

theorem firstOn_cases (h : a.WellFormed len) {pe : ℕ} (hpe : pe < a.numPes) :
    (a.offset % a.numPes ≤ pe ∧ a.firstOn pe = pe - a.offset % a.numPes) ∨
      (pe < a.offset % a.numPes ∧ a.firstOn pe = pe + a.numPes - a.offset % a.numPes) := by
  have hlt := Nat.mod_lt a.offset h.pos
  unfold firstOn
  generalize a.offset % a.numPes = s at hlt ⊢
  by_cases hle : s ≤ pe
  · left
    rw [show pe + a.numPes - s = (pe - s) + a.numPes by omega, Nat.add_mod_right,
      Nat.mod_eq_of_lt (by omega)]
    exact ⟨hle, rfl⟩
  · right
    rw [Nat.mod_eq_of_lt (by omega)]
    exact ⟨by omega, rfl⟩

/-- Index `i` lies on `pe` exactly when it is `firstOn pe` plus a multiple of `numPes`. -/
theorem mod_eq_iff_firstOn (h : a.WellFormed len) {pe : ℕ} (hpe : pe < a.numPes) (i : ℕ) :
    (a.offset + i) % a.numPes = pe ↔ i % a.numPes = a.firstOn pe := by
  have hlt := Nat.mod_lt a.offset h.pos
  have hlt' := Nat.mod_lt i h.pos
  rw [Nat.add_mod]
  rcases firstOn_cases h hpe with ⟨hle, heq⟩ | ⟨hle, heq⟩
  · rw [heq]
    by_cases hwrap : a.offset % a.numPes + i % a.numPes < a.numPes
    · rw [Nat.mod_eq_of_lt hwrap]
      omega
    · rw [Nat.mod_eq_sub_mod (by omega), Nat.mod_eq_of_lt (by omega)]
      omega
  · rw [heq]
    by_cases hwrap : a.offset % a.numPes + i % a.numPes < a.numPes
    · rw [Nat.mod_eq_of_lt hwrap]
      omega
    · rw [Nat.mod_eq_sub_mod (by omega), Nat.mod_eq_of_lt (by omega)]
      omega

/-- The count of the source: one element for each full turn, and one more on the PEs that
the incomplete last turn reaches. -/
theorem numElemsPe_cyclic (h : a.WellFormed len) (hd : a.distribution = .cyclic)
    (hs : 0 < a.size) {pe : ℕ} (hpe : pe < a.numPes) :
    a.numElemsPe pe =
      a.size / a.numPes + if a.firstOn pe < a.size % a.numPes then 1 else 0 := by
  have hend : (a.offset + (a.size - 1)) % a.numPes =
      (a.offset % a.numPes + (a.size - 1) % a.numPes) % a.numPes := Nat.add_mod _ _ _
  have hlt := Nat.mod_lt a.offset h.pos
  have hrest := Nat.mod_lt a.size h.pos
  have hfirst := firstOn_cases h hpe
  simp only [numElemsPe, hd, peForDistIndex_cyclic hd hs,
    peForDistIndex_cyclic hd (show a.size - 1 < a.size by omega), Nat.add_zero]
  by_cases hzero : a.size % a.numPes = 0
  · simp [hzero]
  · have hlast : (a.size - 1) % a.numPes = a.size % a.numPes - 1 := by
      have hdm := Nat.div_add_mod a.size a.numPes
      rw [show a.size - 1 = (a.size % a.numPes - 1) + a.numPes * (a.size / a.numPes) by omega,
        Nat.add_mul_mod_self_left, Nat.mod_eq_of_lt (by omega)]
    rw [hlast] at hend
    rw [if_pos hzero, hend]
    generalize a.offset % a.numPes = s at hlt hfirst ⊢
    generalize a.size % a.numPes = m at hrest hzero ⊢
    by_cases hwrap : s + (m - 1) < a.numPes
    · rw [Nat.mod_eq_of_lt hwrap, if_pos (by omega)]
      by_cases hin : a.firstOn pe < m
      · rw [if_pos (by omega), if_pos hin]
      · rw [if_neg (by omega), if_neg hin, Nat.add_zero]
    · rw [Nat.mod_eq_sub_mod (by omega), Nat.mod_eq_of_lt (by omega), if_neg (by omega)]
      by_cases hin : a.firstOn pe < m
      · rw [if_pos (by omega), if_pos hin]
      · rw [if_neg (by omega), if_neg hin, Nat.add_zero]

/-- Position `j` on `pe` exists exactly when index `firstOn pe + j * numPes` does. -/
theorem lt_numElemsPe_cyclic (h : a.WellFormed len) (hd : a.distribution = .cyclic)
    (hs : 0 < a.size) {pe : ℕ} (hpe : pe < a.numPes) (j : ℕ) :
    j < a.numElemsPe pe ↔ a.firstOn pe + j * a.numPes < a.size := by
  have hfirst := firstOn_lt h pe
  have hdm := Nat.div_add_mod a.size a.numPes
  have hrest := Nat.mod_lt a.size h.pos
  rw [numElemsPe_cyclic h hd hs hpe]
  rw [Nat.mul_comm] at hdm
  rcases Nat.lt_trichotomy j (a.size / a.numPes) with hj | hj | hj
  · have hmul : (j + 1) * a.numPes ≤ a.size / a.numPes * a.numPes :=
      Nat.mul_le_mul_right _ hj
    rw [Nat.add_mul] at hmul
    constructor
    · intro _
      omega
    · intro _
      omega
  · subst hj
    split
    · omega
    · omega
  · have hmul : (a.size / a.numPes + 1) * a.numPes ≤ j * a.numPes :=
      Nat.mul_le_mul_right _ hj
    rw [Nat.add_mul] at hmul
    split
    · omega
    · omega

theorem peAndOffset_cyclic (hd : a.distribution = .cyclic) {i : ℕ} (hi : i < a.size) :
    a.peAndOffsetForGlobalIndex i = some ((a.offset + i) % a.numPes, i / a.numPes) := by
  simp only [peAndOffsetForGlobalIndex, peForDistIndex_cyclic hd hi, peOffsetForDistIndex, hd,
    Option.bind_eq_bind, Option.bind_some, if_true, Option.pure_def]

/-- A turn of the view is a turn of the full array, shifted by the turns before the view
begins. -/
theorem start_add_div_cyclic (h : a.WellFormed len) (i : ℕ) :
    (a.offset / a.numPes +
        if a.offset % a.numPes ≤ (a.offset + i) % a.numPes then 0 else 1) + i / a.numPes =
      (a.offset + i) / a.numPes := by
  have hP := h.pos
  have ho := Nat.div_add_mod a.offset a.numPes
  have hi := Nat.div_add_mod i a.numPes
  have hlt := Nat.mod_lt a.offset hP
  have hlt' := Nat.mod_lt i hP
  rw [Nat.add_div hP, Nat.add_mod]
  by_cases hwrap : a.numPes ≤ a.offset % a.numPes + i % a.numPes
  · rw [if_pos hwrap, Nat.mod_eq_sub_mod hwrap]
    have hlt'' : a.offset % a.numPes + i % a.numPes - a.numPes < a.numPes := by omega
    rw [Nat.mod_eq_of_lt hlt'', if_neg (by omega)]
    omega
  · rw [if_neg hwrap]
    have hlt'' : a.offset % a.numPes + i % a.numPes < a.numPes := by omega
    rw [Nat.mod_eq_of_lt hlt'', if_pos (by omega)]
    omega

theorem localAsMutSlice_cyclic (hd : a.distribution = .cyclic) (pe : ℕ) :
    (a.onPe pe).localAsMutSlice =
      some (a.offset / a.numPes + (if a.offset % a.numPes ≤ pe then 0 else 1),
        a.offset / a.numPes + (if a.offset % a.numPes ≤ pe then 0 else 1) +
          a.numElemsPe pe) := by
  unfold localAsMutSlice
  rw [onPe_distribution, hd]
  rfl

theorem physicalSlot_cyclic (h : a.WellFormed len) (hd : a.distribution = .cyclic) {i : ℕ}
    (hi : i < a.size) :
    a.physicalSlot i = some (home .cyclic len a.numPes (a.offset + i)) := by
  simp only [physicalSlot, peAndOffset_cyclic hd hi, localAsMutSlice_cyclic hd,
    Option.bind_eq_bind, Option.bind_some, Option.pure_def, home, start_add_div_cyclic h i]

/-! ## Both distributions -/

/-- Index `i` of a view is stored where the full array stores index `offset + i`. -/
theorem physicalSlot_eq_home (h : a.WellFormed len) {i : ℕ} (hi : i < a.size) :
    a.physicalSlot i = some (home a.distribution len a.numPes (a.offset + i)) := by
  cases hd : a.distribution with
  | block => exact physicalSlot_block h hd hi
  | cyclic => exact physicalSlot_cyclic h hd hi

theorem peAndOffset_block (h : a.WellFormed len) (hd : a.distribution = .block) {i : ℕ}
    (hi : i < a.size) :
    a.peAndOffsetForGlobalIndex i = some (segOf len a.numPes (a.offset + i),
      i - (cut len a.numPes (segOf len a.numPes (a.offset + i)) - a.offset)) := by
  simp only [peAndOffsetForGlobalIndex, peForDistIndex_block h hd hi,
    peOffsetForDistIndex_block h hd hi, Option.bind_eq_bind, Option.bind_some,
    Option.pure_def]

/-- The pairs of a PE and a position on it. -/
def localPositions (a : UnsafeArrayInner) : Set (ℕ × ℕ) :=
  {x | x.1 < a.numPes ∧ x.2 < a.numElemsPe x.1}

theorem peAndOffset_mapsTo (h : a.WellFormed len) (hs : 0 < a.size) {i : ℕ} (hi : i < a.size) :
    ∃ x ∈ a.localPositions, a.peAndOffsetForGlobalIndex i = some x := by
  cases hd : a.distribution with
  | block =>
    obtain ⟨h1, h2, h3⟩ := segOf_meets h hi
    refine ⟨_, ⟨h3, ?_⟩, peAndOffset_block h hd hi⟩
    rw [numElemsPe_block h hd]
    simp only
    omega
  | cyclic =>
    have hpe := Nat.mod_lt (a.offset + i) h.pos
    refine ⟨_, ⟨hpe, ?_⟩, peAndOffset_cyclic hd hi⟩
    have hfirst := (mod_eq_iff_firstOn h hpe i).mp rfl
    rw [lt_numElemsPe_cyclic h hd hs hpe, ← hfirst, Nat.mul_comm, Nat.mod_add_div]
    exact hi

theorem peAndOffset_injective (h : a.WellFormed len) {i i' : ℕ} (hi : i < a.size)
    (hi' : i' < a.size)
    (heq : a.peAndOffsetForGlobalIndex i = a.peAndOffsetForGlobalIndex i') : i = i' := by
  have hslot : a.physicalSlot i = a.physicalSlot i' := by
    unfold physicalSlot
    rw [heq]
  rw [physicalSlot_eq_home h hi, physicalSlot_eq_home h hi'] at hslot
  have := home_injective h.pos h.le (Option.some.inj hslot)
  omega

theorem peAndOffset_surjective (h : a.WellFormed len) (hs : 0 < a.size) {pe j : ℕ}
    (hpe : pe < a.numPes) (hj : j < a.numElemsPe pe) :
    ∃ i < a.size, a.peAndOffsetForGlobalIndex i = some (pe, j) := by
  cases hd : a.distribution with
  | block =>
    rw [numElemsPe_block h hd] at hj
    have hi : cut len a.numPes pe - a.offset + j < a.size := by omega
    refine ⟨_, hi, ?_⟩
    have hseg : segOf len a.numPes (a.offset + (cut len a.numPes pe - a.offset + j)) = pe :=
      segOf_eq h.pos h.le (by omega) (by omega)
    rw [peAndOffset_block h hd hi, hseg, Nat.add_sub_cancel_left]
  | cyclic =>
    have hi := (lt_numElemsPe_cyclic h hd hs hpe j).mp hj
    have hfirst := firstOn_lt h pe
    refine ⟨_, hi, ?_⟩
    rw [peAndOffset_cyclic hd hi, Nat.add_mul_div_right _ _ h.pos,
      Nat.div_eq_of_lt hfirst, Nat.zero_add]
    have hmod : (a.firstOn pe + j * a.numPes) % a.numPes = a.firstOn pe := by
      rw [Nat.add_mul_mod_self_right, Nat.mod_eq_of_lt hfirst]
    rw [(mod_eq_iff_firstOn h hpe _).mpr hmod]

theorem peAndOffset_bijOn (h : a.WellFormed len) (hs : 0 < a.size) :
    Set.BijOn a.peAndOffsetForGlobalIndex (Set.Iio a.size) (some '' a.localPositions) := by
  refine ⟨?_, ?_, ?_⟩
  · intro i hi
    obtain ⟨x, hx, heq⟩ := peAndOffset_mapsTo h hs hi
    exact ⟨x, hx, heq.symm⟩
  · intro i hi i' hi' heq
    exact peAndOffset_injective h hi hi' heq
  · rintro _ ⟨⟨pe, j⟩, ⟨hpe, hj⟩, rfl⟩
    obtain ⟨i, hi, heq⟩ := peAndOffset_surjective h hs hpe hj
    exact ⟨i, hi, heq⟩

/-- The elements of a view are divided among the PEs. -/
theorem sum_numElemsPe (h : a.WellFormed len) (hs : 0 < a.size) :
    ∑ pe ∈ Finset.range a.numPes, a.numElemsPe pe = a.size := by
  have hbij := peAndOffset_bijOn h hs
  have hset : a.localPositions =
      ((Finset.range a.numPes).sigma fun pe => Finset.range (a.numElemsPe pe)).image
        (fun x => (x.1, x.2)) := by
    ext ⟨pe, j⟩
    simp [localPositions]
  have hcard : (some '' a.localPositions).ncard = a.size := by
    rw [← hbij.image_eq, hbij.injOn.ncard_image, ← Finset.coe_range, Set.ncard_coe_finset,
      Finset.card_range]
  rw [Set.ncard_image_of_injective _ (Option.some_injective _), hset, Set.ncard_coe_finset,
    Finset.card_image_of_injective, Finset.card_sigma] at hcard
  · simpa using hcard
  · rintro ⟨pe, j⟩ ⟨pe', j'⟩ heq
    simpa using heq

end UnsafeArrayInner

open UnsafeArrayInner

/-- The index map of every non-empty view `[offset, offset + size)` of an array of `len`
elements on `numPes ≤ len` PEs: the pairs (PE, position on the PE) number its elements, the
counts add up to its size, and element `i` is stored in the slot in which the full array
stores `offset + i`, inside the memory allocated on that PE. -/
theorem index_map_correct (myPe numPes len : ℕ) (d : Distribution) (offset size : ℕ)
    (hP : 1 ≤ numPes) (hN : numPes ≤ len) (hs : 1 ≤ size) (hfit : offset + size ≤ len) :
    Set.BijOn (view myPe numPes len d offset size).peAndOffsetForGlobalIndex (Set.Iio size)
        (some '' {x | x.1 < numPes ∧
          x.2 < (view myPe numPes len d offset size).numElemsPe x.1}) ∧
      ∑ pe ∈ Finset.range numPes, (view myPe numPes len d offset size).numElemsPe pe = size ∧
      ∀ i < size, ∃ pe slot,
        (view myPe numPes len d offset size).physicalSlot i = some (pe, slot) ∧
        (view myPe numPes len d 0 len).physicalSlot (offset + i) = some (pe, slot) ∧
        pe < numPes ∧ slot < perPeSize len numPes := by
  have h : (view myPe numPes len d offset size).WellFormed len :=
    view_wellFormed hP hN hfit
  have hfull : (view myPe numPes len d 0 len).WellFormed len :=
    view_wellFormed hP hN (by omega)
  refine ⟨peAndOffset_bijOn h hs, sum_numElemsPe h hs, ?_⟩
  intro i hi
  have hg : offset + i < len := by omega
  have hslot := physicalSlot_eq_home hfull (i := offset + i) hg
  rw [show (view myPe numPes len d 0 len).offset + (offset + i) = offset + i from
    Nat.zero_add _] at hslot
  exact ⟨_, _, physicalSlot_eq_home h hi, hslot, home_fst_lt hP hN hg, home_snd_lt hP hN hg⟩

/-- Seven elements over three PEs: the blocks are `[0, 2)`, `[2, 5)` and `[5, 7)`, and the
view `[1, 6)` meets all three. -/
theorem index_map_correct_seven_on_three :
    (view 0 3 7 .block 1 5).peAndOffsetForGlobalIndex 3 = some (1, 2) ∧
      ∑ pe ∈ Finset.range 3, (view 0 3 7 .block 1 5).numElemsPe pe = 5 :=
  ⟨by decide +kernel,
    (index_map_correct 0 3 7 .block 1 5 (by decide) (by decide) (by decide) (by decide)).2.1⟩

end Lamellar.Array
