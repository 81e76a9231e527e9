import Lamellar.Array.IndexMap
import Lamellar.Array.Rdma
import Lamellar.Lib.Folds

/-!
# What one piece of a transfer touches

The strategies of `Rdma` cut a range of `n` elements, from index `g` of the full array on,
into pieces: the segments it meets, or the residues modulo the number of PEs. This file
computes the pieces (`mem_blockPieces`, `mem_cyclicTurns`) and the part of the range that the
receiver of a message finds (`localElementsForRange_block`, `localElementsForRange_cyclic`),
and shows that both name the homes of the same elements.
-/

namespace Lamellar.Array

open Segments

variable {T : Type}

/-! ## Buffers -/

theorem length_splice {buf data : List T} {start : ℕ}
    (h : start + data.length ≤ buf.length) : (splice buf start data).length = buf.length := by
  simp only [splice, List.length_append, List.length_take, List.length_drop]
  omega

theorem getElem?_splice {buf data : List T} {start : ℕ}
    (h : start + data.length ≤ buf.length) (k : ℕ) :
    (splice buf start data)[k]? =
      if start ≤ k ∧ k < start + data.length then data[k - start]? else buf[k]? := by
  have htake : (buf.take start).length = start := by
    rw [List.length_take]
    omega
  unfold splice
  by_cases hlow : k < start
  · rw [if_neg (by omega), List.append_assoc, List.getElem?_append_left (by omega),
      List.getElem?_take_of_lt hlow]
  · rw [List.append_assoc, List.getElem?_append_right (by omega), htake]
    by_cases hhigh : k < start + data.length
    · rw [if_pos ⟨by omega, hhigh⟩, List.getElem?_append_left (by omega)]
    · rw [if_neg (by omega), List.getElem?_append_right (by omega), List.getElem?_drop]
      congr 1
      omega

theorem bufPut_eq_some {buf data : List T} {start : ℕ}
    (h : start + data.length ≤ buf.length) : bufPut buf start data = some (splice buf start data) :=
  if_pos h

theorem subRegion_eq_some {buf : List T} {start n : ℕ} (h : start + n ≤ buf.length) :
    subRegion buf start n = some ((buf.drop start).take n) := if_pos h

theorem getElem?_subRegion {buf : List T} {start n k : ℕ} (hk : k < n) :
    ((buf.drop start).take n)[k]? = buf[start + k]? := by
  rw [List.getElem?_take_of_lt hk, List.getElem?_drop]

theorem length_subRegion {buf : List T} {start n : ℕ} (h : start + n ≤ buf.length) :
    ((buf.drop start).take n).length = n := by
  rw [List.length_take, List.length_drop]
  omega

theorem blockingGet_eq_some {r : MemoryRegion T} {pe index n : ℕ} (h : index + n ≤ r.perPe) :
    r.blockingGet pe index n = some ((List.range n).map fun k => r.cell pe (index + k)) :=
  if_pos h

theorem blockingPut_eq_some {r : MemoryRegion T} {pe index : ℕ} {data : List T}
    (h : index + data.length ≤ r.perPe) :
    r.blockingPut pe index data = some (r.write pe index data) := if_pos h

theorem write_cell_of_data {r : MemoryRegion T} {pe index k : ℕ} {data : List T} {v : T}
    (h : data[k]? = some v) : (r.write pe index data).cell pe (index + k) = v := by
  simp [MemoryRegion.write, h]

/-- A write leaves every cell alone that is not one of its targets. -/
theorem write_cell_of_ne {r : MemoryRegion T} {pe index p s : ℕ} {data : List T}
    (h : ∀ k < data.length, (p, s) ≠ (pe, index + k)) :
    (r.write pe index data).cell p s = r.cell p s := by
  simp only [MemoryRegion.write]
  split
  · rename_i hps
    have hout : data.length ≤ s - index := by
      by_contra hlt
      refine h (s - index) (by omega) ?_
      rw [hps.1, Nat.add_sub_cancel' hps.2]
    rw [List.getElem?_eq_none hout]
    rfl
  · rfl

theorem lt_length_stepBy {start stop step : ℕ} (hstep : 0 < step) (k : ℕ) :
    k < (stepBy start stop step).length ↔ start + k * step < stop := by
  simp only [stepBy, List.length_map, List.length_range]
  rw [Nat.lt_iff_add_one_le, Nat.le_div_iff_mul_le hstep, Nat.add_mul]
  omega

theorem getElem?_stepBy {start stop step k : ℕ} (hk : k < (stepBy start stop step).length) :
    (stepBy start stop step)[k]? = some (start + k * step) := by
  simp only [stepBy, List.length_map, List.length_range] at hk
  simp [stepBy, hk]

theorem getElem?_stepBy_eq_some {start stop step k j : ℕ} (hstep : 0 < step)
    (h : (stepBy start stop step)[k]? = some j) : j = start + k * step ∧ j < stop := by
  obtain ⟨hk, _⟩ := List.getElem?_eq_some_iff.mp h
  rw [getElem?_stepBy hk] at h
  cases h
  exact ⟨rfl, (lt_length_stepBy hstep k).mp hk⟩

/-- Every index below `n` is met by the step loop of its residue. -/
theorem getElem?_stepBy_mod {n step j : ℕ} (hstep : 0 < step) (hj : j < n) :
    (stepBy (j % step) n step)[j / step]? = some j := by
  have hsplit : j % step + j / step * step = j := by
    rw [Nat.mul_comm]
    exact Nat.mod_add_div j step
  have hk : j / step < (stepBy (j % step) n step).length := by
    rw [lt_length_stepBy hstep, hsplit]
    exact hj
  rw [getElem?_stepBy hk, hsplit]

theorem length_stepBy {start n step : ℕ} (hstep : 0 < step) (h : start < step) :
    (stepBy start n step).length = n / step + if start < n % step then 1 else 0 := by
  have hdm := Nat.div_add_mod n step
  rw [Nat.mul_comm] at hdm
  have hlt := Nat.mod_lt n hstep
  have key : ∀ k, k < (stepBy start n step).length ↔
      k < n / step + if start < n % step then 1 else 0 := by
    intro k
    rw [lt_length_stepBy hstep]
    rcases Nat.lt_trichotomy k (n / step) with hk | hk | hk
    · have hmul : (k + 1) * step ≤ n / step * step := Nat.mul_le_mul_right _ hk
      rw [Nat.add_mul] at hmul
      constructor
      · intro _
        omega
      · intro _
        omega
    · subst hk
      split
      · omega
      · omega
    · have hmul : (n / step + 1) * step ≤ k * step := Nat.mul_le_mul_right _ hk
      rw [Nat.add_mul] at hmul
      split
      · omega
      · omega
  apply Nat.le_antisymm
  · by_contra hgt
    exact absurd ((key _).mp (Nat.lt_of_not_le hgt)) (Nat.lt_irrefl _)
  · by_contra hgt
    exact absurd ((key _).mpr (Nat.lt_of_not_le hgt)) (Nat.lt_irrefl _)

namespace UnsafeArrayInner

variable {a : UnsafeArrayInner} {len index n : ℕ}

/-! ## Pieces of a block transfer -/

/-- The piece of the range of `n` elements from `g` on that lies in the segment of its PE. -/
structure BlockPiece.Exact (p : BlockPiece) (len numPes g n : ℕ) : Prop where
  lower : p.bufIndex = cut len numPes p.pe - g
  upper : p.bufIndex + p.len = min (cut len numPes (p.pe + 1) - g) n
  pos : 0 < p.len
  offset : p.offset = g + p.bufIndex - cut len numPes p.pe

theorem BlockPiece.Exact.home_eq {p : BlockPiece} {numPes g : ℕ}
    (h : p.Exact len numPes g n) (hP : 0 < numPes) (hN : numPes ≤ len) {t : ℕ}
    (ht : t < p.len) :
    home .block len numPes (g + (p.bufIndex + t)) = (p.pe, p.offset + t) := by
  obtain ⟨hlower, hupper, _, hoffset⟩ := h
  have hseg : segOf len numPes (g + (p.bufIndex + t)) = p.pe :=
    segOf_eq hP hN (by omega) (by omega)
  simp only [home, hseg, Prod.mk.injEq, true_and]
  omega

/-- The loop of `block_op`, entered at PE `pe` with `b` elements transferred. -/
theorem blockLoop_exact (h : a.WellFormed len) {g : ℕ} (m pe b : ℕ) (hm : 0 < m)
    (hlow : cut len a.numPes pe ≤ g + b) (hb : b = cut len a.numPes pe - g)
    (hhigh : g + b < cut len a.numPes (pe + 1)) (hbn : b < n)
    (hlast : segOf len a.numPes (g + n - 1) = pe + m - 1) :
    (∀ p ∈ a.blockLoop n (List.range' pe m) (g + b) b, p.Exact len a.numPes g n) ∧
      ∀ k, b ≤ k → k < n → ∃ p ∈ a.blockLoop n (List.range' pe m) (g + b) b,
        p.bufIndex ≤ k ∧ k < p.bufIndex + p.len := by
  induction m generalizing pe b with
  | zero => omega
  | succ m ih =>
    obtain ⟨hend, hend'⟩ := segOf_spec h.pos h.le (g + n - 1)
    rw [hlast] at hend hend'
    have hlt := cut_lt_succ h.pos h.le pe
    set q := min (cut len a.numPes (pe + 1) - cut len a.numPes pe -
      (g + b - cut len a.numPes pe)) (n - b) with hq
    have hpos : 0 < q := by omega
    have hexact : BlockPiece.Exact ⟨pe, g + b - cut len a.numPes pe, b, q⟩ len a.numPes g n :=
      ⟨hb, by simp only; omega, hpos, rfl⟩
    have hloop : a.blockLoop n (List.range' pe (m + 1)) (g + b) b =
        ⟨pe, g + b - cut len a.numPes pe, b, q⟩ ::
          a.blockLoop n (List.range' (pe + 1) m) (g + (b + q)) (b + q) := by
      simp only [List.range'_succ, blockLoop, h.boundary_eq, ← hq, if_pos hpos, Nat.add_assoc]
    rw [hloop]
    by_cases hmore : m = 0
    · subst hmore
      rw [Nat.add_sub_cancel, Nat.zero_add] at *
      simp only [List.range'_zero, blockLoop, List.mem_singleton, forall_eq, exists_eq_left]
      exact ⟨hexact, fun k hk hkn => ⟨hk, by omega⟩⟩
    · have hle : cut len a.numPes (pe + 1) ≤ cut len a.numPes (pe + m) :=
        (cut_strictMono h.pos h.le).monotone (by omega)
      have hnext := cut_lt_succ h.pos h.le (pe + 1)
      have hpm : pe + (m + 1) - 1 = pe + m := by omega
      rw [hpm] at hend hend'
      obtain ⟨hall, hcover⟩ := ih (pe + 1) (b + q) (by omega) (by omega)
        (by omega) (by omega) (by omega) (by omega)
      refine ⟨?_, ?_⟩
      · intro p hp
        rcases List.mem_cons.mp hp with rfl | hp
        · exact hexact
        · exact hall p hp
      · intro k hk hkn
        by_cases hkq : k < b + q
        · exact ⟨_, List.mem_cons_self, hk, hkq⟩
        · obtain ⟨p, hp, hpk⟩ := hcover k (by omega) hkn
          exact ⟨p, List.mem_cons_of_mem _ hp, hpk⟩

/-- The pieces of `block_op`: each is exact, and together they cover the range. -/
theorem mem_blockPieces (h : a.WellFormed len) (hd : a.distribution = .block) (hn : 0 < n)
    (hfit : index + n ≤ a.size) :
    ∃ pieces, a.blockPieces index n = some pieces ∧
      (∀ p ∈ pieces, p.Exact len a.numPes (a.offset + index) n) ∧
      ∀ k < n, ∃ p ∈ pieces, p.bufIndex ≤ k ∧ k < p.bufIndex + p.len := by
  have hfits := h.fits
  have hstart := peForDistIndex_block h hd (show index < a.size by omega)
  have hstop := peForDistIndex_block h hd (show index + n - 1 < a.size by omega)
  rw [show a.offset + (index + n - 1) = a.offset + index + n - 1 by omega] at hstop
  obtain ⟨h1, h2⟩ := segOf_spec h.pos h.le (a.offset + index)
  have hmono := segOf_mono h.pos h.le
    (show a.offset + index ≤ a.offset + index + n - 1 by omega)
  obtain ⟨hall, hcover⟩ := blockLoop_exact h (g := a.offset + index) (n := n)
    (segOf len a.numPes (a.offset + index + n - 1) + 1 -
      segOf len a.numPes (a.offset + index))
    (segOf len a.numPes (a.offset + index)) 0
    (by omega) (by omega) (by omega) (by omega) hn (by omega)
  refine ⟨_, ?_, hall, fun k hk => hcover k (Nat.zero_le k) hk⟩
  simp only [blockPieces, hstart, hstop, Option.bind_eq_bind, Option.bind_some,
    Nat.add_comm index a.offset, Nat.add_zero]

theorem localElementsForRange_onPe_block (hd : a.distribution = .block) (pe : ℕ) :
    (a.onPe pe).localElementsForRange index n = (do
      let startPe ← a.peForDistIndex index
      let endPe ← a.peForDistIndex (index + n - 1)
      if endPe < pe ∨ pe < startPe then some none
      else
        let subarrayStartIndex ← a.startIndexForPe pe
        let (startIndex, remElem) :=
          if pe = startPe then (index - subarrayStartIndex, n)
          else (0, n - (subarrayStartIndex - index))
        let endIndex := if pe = endPe then startIndex + remElem else a.numElemsPe pe
        let slice ← (a.onPe pe).localAsMutSlice
        let elems ← subSlice slice startIndex endIndex
        some (some (elems, (startIndex, endIndex)))) := by
  simp only [localElementsForRange, onPe_distribution, hd]
  rfl

/-- Where a piece begins and ends among the elements of the view on its PE: the range starts
on the PE or before it, and ends on it or after it. -/
theorem BlockPiece.Exact.local_bounds (h : a.WellFormed len) (hd : a.distribution = .block)
    (hn : 0 < n) (hfit : index + n ≤ a.size) {p : BlockPiece}
    (hp : p.Exact len a.numPes (a.offset + index) n) {startPe endPe : ℕ}
    (hstart : segOf len a.numPes (a.offset + index) = startPe)
    (hend : segOf len a.numPes (a.offset + index + n - 1) = endPe) :
    startPe ≤ p.pe ∧ p.pe ≤ endPe ∧
      (if p.pe = startPe then (index - (cut len a.numPes p.pe - a.offset), n)
        else (0, n - (cut len a.numPes p.pe - a.offset - index))) =
        (p.offset - (a.offset - cut len a.numPes p.pe), n - p.bufIndex) ∧
      (if p.pe = endPe then p.offset - (a.offset - cut len a.numPes p.pe) + (n - p.bufIndex)
        else a.numElemsPe p.pe) = p.offset - (a.offset - cut len a.numPes p.pe) + p.len := by
  obtain ⟨hlower, hupper, hpos, hoffset⟩ := hp
  obtain ⟨hs1, hs2⟩ := segOf_spec h.pos h.le (a.offset + index)
  obtain ⟨he1, he2⟩ := segOf_spec h.pos h.le (a.offset + index + n - 1)
  rw [hstart] at hs1 hs2
  rw [hend] at he1 he2
  have hmono := cut_strictMono h.pos h.le
  have hge : startPe < p.pe + 1 := hmono.lt_iff_lt.mp (by omega)
  have hle : p.pe < endPe + 1 := hmono.lt_iff_lt.mp (by omega)
  refine ⟨by omega, by omega, ?_, ?_⟩
  · by_cases hfirst : p.pe = startPe
    · rw [if_pos hfirst, Prod.mk.injEq]
      rw [← hfirst] at hs1
      omega
    · have hprev : cut len a.numPes (startPe + 1) ≤ cut len a.numPes p.pe :=
        hmono.monotone (by omega)
      rw [if_neg hfirst, Prod.mk.injEq]
      omega
  · by_cases hlast : p.pe = endPe
    · rw [if_pos hlast]
      rw [← hlast] at he2
      omega
    · have hnext : cut len a.numPes (p.pe + 1) ≤ cut len a.numPes endPe :=
        hmono.monotone (by omega)
      rw [if_neg hlast, numElemsPe_block h hd]
      omega

/-- The receiver of a block message finds the exact piece of its PE. -/
theorem localElementsForRange_block (h : a.WellFormed len) (hd : a.distribution = .block)
    (hn : 0 < n) (hfit : index + n ≤ a.size) {p : BlockPiece}
    (hp : p.Exact len a.numPes (a.offset + index) n) :
    ∃ bounds, (a.onPe p.pe).localElementsForRange index n =
      some (some ((p.offset, p.offset + p.len), bounds)) := by
  have hfits := h.fits
  have hstart := peForDistIndex_block h hd (show index < a.size by omega)
  have hstop := peForDistIndex_block h hd (show index + n - 1 < a.size by omega)
  rw [show a.offset + (index + n - 1) = a.offset + index + n - 1 by omega] at hstop
  obtain ⟨hge, hle, hfirst, hlast⟩ := hp.local_bounds h hd hn hfit rfl rfl
  obtain ⟨hlower, hupper, hpos, hoffset⟩ := hp
  have hslice := localAsMutSlice_block h hd (by omega)
    (show a.offset < cut len a.numPes (p.pe + 1) by omega)
  have hnum := numElemsPe_block h hd p.pe
  have hindex := startIndexForPe_block h hd p.pe
  rw [if_pos (by omega)] at hindex
  have hsub : subSlice (a.offset - cut len a.numPes p.pe,
      a.offset - cut len a.numPes p.pe + a.numElemsPe p.pe)
      (p.offset - (a.offset - cut len a.numPes p.pe))
      (p.offset - (a.offset - cut len a.numPes p.pe) + p.len) =
        some (p.offset, p.offset + p.len) := by
    have hin : a.offset - cut len a.numPes p.pe ≤ p.offset := by omega
    unfold subSlice
    rw [if_pos (by omega)]
    simp only [Option.some.injEq, Prod.mk.injEq]
    omega
  rw [localElementsForRange_onPe_block hd]
  simp only [hstart, hstop, hindex, hslice, Option.bind_eq_bind, Option.bind_some]
  rw [if_neg (by omega), hfirst]
  simp only [hlast, hsub, Option.bind_some]
  exact ⟨_, rfl⟩

/-! ## Turns of a cyclic transfer -/

/-- The turn of a cyclic transfer from index `g` of the full array on. -/
structure CyclicTurn.Exact (t : CyclicTurn) (numPes g n : ℕ) : Prop where
  lt_bufLen : t.i < n
  lt_numPes : t.i < numPes
  pe : t.pe = (g + t.i) % numPes
  offset : t.offset = (g + t.i) / numPes

theorem CyclicTurn.Exact.home_eq {t : CyclicTurn} {numPes g : ℕ} (h : t.Exact numPes g n)
    (len : ℕ) (hP : 0 < numPes) (k : ℕ) :
    home .cyclic len numPes (g + (t.i + k * numPes)) = (t.pe, t.offset + k) := by
  simp only [home, h.pe, h.offset, ← Nat.add_assoc, Nat.add_mul_mod_self_right,
    Nat.add_mul_div_right _ _ hP]

/-- Turn `i` of a range that begins at index `g` of the full array. -/
def cyclicPart (numPes g i : ℕ) : CyclicTurn := ⟨i, (g + i) % numPes, (g + i) / numPes⟩

theorem cyclicPart_exact {numPes g i : ℕ} (hi : i < min n numPes) :
    (cyclicPart numPes g i).Exact numPes g n :=
  ⟨show i < n by omega, show i < numPes by omega, rfl, rfl⟩

/-- The loop of `cyclic_op` from turn `i` on: `overflow` counts the PEs that were the last
one before. -/
theorem cyclicLoop_eq {numPes : ℕ} (hP : 0 < numPes) (g m i : ℕ) :
    cyclicLoop numPes g (List.range' i m) ((g % numPes + i) / numPes) =
      (List.range' i m).map (cyclicPart numPes g) := by
  induction m generalizing i with
  | zero => rfl
  | succ m ih =>
    have hmod : (g + i) % numPes = (g % numPes + i) % numPes := by rw [Nat.mod_add_mod]
    have hdiv : (g + i) / numPes = g / numPes + (g % numPes + i) / numPes := by
      conv_lhs => rw [← Nat.div_add_mod g numPes, Nat.add_assoc, Nat.mul_add_div hP]
    have hover : (if (g % numPes + i) % numPes + 1 = numPes then (g % numPes + i) / numPes + 1
        else (g % numPes + i) / numPes) = (g % numPes + (i + 1)) / numPes := by
      have hlt := Nat.mod_lt (g % numPes + i) hP
      rw [← Nat.add_assoc, Nat.succ_div]
      have hdvd : numPes ∣ g % numPes + i + 1 ↔ (g % numPes + i) % numPes + 1 = numPes := by
        rw [Nat.dvd_iff_mod_eq_zero, ← Nat.mod_add_mod]
        by_cases hlast : (g % numPes + i) % numPes + 1 = numPes
        · rw [hlast, Nat.mod_self]
          exact ⟨fun _ => rfl, fun _ => rfl⟩
        · rw [Nat.mod_eq_of_lt (by omega)]
          omega
      simp only [hdvd]
      split
      · rfl
      · rfl
    simp only [List.range'_succ, cyclicLoop, hover, ih, List.map_cons, cyclicPart, hmod, hdiv]

theorem cyclicTurns_eq (hP : 0 < a.numPes) (g n : ℕ) :
    cyclicLoop a.numPes g (List.range (min n a.numPes)) 0 =
      (List.range (min n a.numPes)).map (cyclicPart a.numPes g) := by
  have hloop := cyclicLoop_eq hP g (min n a.numPes) 0
  rwa [Nat.add_zero, Nat.div_eq_of_lt (Nat.mod_lt _ hP), ← List.range_eq_range'] at hloop

/-- The turns of `cyclic_op`: each is exact, and every element of the range has one. -/
theorem mem_cyclicTurns (index n : ℕ) (hP : 0 < a.numPes) :
    (∀ t ∈ a.cyclicTurns index n, t.Exact a.numPes (a.offset + index) n) ∧
      ∀ k < n, ∃ t ∈ a.cyclicTurns index n, t.i = k % a.numPes := by
  rw [cyclicTurns, cyclicTurns_eq hP, Nat.add_comm index a.offset]
  constructor
  · intro t ht
    obtain ⟨i, hi, rfl⟩ := List.mem_map.mp ht
    exact cyclicPart_exact (List.mem_range.mp hi)
  · intro k hk
    have hlt := Nat.mod_lt k hP
    have hle := Nat.mod_le k a.numPes
    have hmem : k % a.numPes ∈ List.range (min n a.numPes) := List.mem_range.mpr (by omega)
    exact ⟨_, List.mem_map_of_mem hmem, rfl⟩

/-- `local_elements_for_range` and `num_elems_pe` decide in different ways whether the last,
incomplete turn reaches `pe`. -/
theorem count_eq_nested_ite (q m s e pe : ℕ) :
    (q + if m ≠ 0 ∧ (if s ≤ e then s ≤ pe ∧ pe ≤ e else s ≤ pe ∨ pe ≤ e) then 1 else 0) =
      if m ≠ 0 then
        if s ≤ e then if s ≤ pe ∧ pe ≤ e then q + 1 else q
        else if s ≤ pe ∨ pe ≤ e then q + 1 else q
      else q := by
  by_cases hzero : m ≠ 0
  · by_cases hle : s ≤ e
    · simp only [if_pos hzero, if_pos hle, and_iff_right hzero, apply_ite (q + ·), Nat.add_zero]
    · simp only [if_pos hzero, if_neg hle, and_iff_right hzero, apply_ite (q + ·), Nat.add_zero]
  · rw [if_neg hzero, if_neg (fun hand => hzero hand.1), Nat.add_zero]

/-- The range `[index, index + n)` of a view, as a view. -/
def part (a : UnsafeArrayInner) (index n : ℕ) : UnsafeArrayInner :=
  { a with offset := a.offset + index, size := n }

theorem WellFormed.part (h : a.WellFormed len) (hfit : index + n ≤ a.size) :
    (a.part index n).WellFormed len := by
  have hfits := h.fits
  exact ⟨h.pos, h.le, h.elemPerPe, show a.offset + index + n ≤ len by omega⟩

/-- The count of `local_elements_for_range` is that of `num_elems_pe` for the range as a view. -/
theorem numElems_part (hd : a.distribution = .cyclic) (hn : 0 < n) (pe : ℕ) :
    (n / a.numPes + if n % a.numPes ≠ 0 ∧
        (if (a.offset + index) % a.numPes ≤ (a.offset + index + n - 1) % a.numPes then
          (a.offset + index) % a.numPes ≤ pe ∧ pe ≤ (a.offset + index + n - 1) % a.numPes
        else (a.offset + index) % a.numPes ≤ pe ∨
          pe ≤ (a.offset + index + n - 1) % a.numPes) then 1 else 0) =
      (a.part index n).numElemsPe pe := by
  have hdist : (a.part index n).distribution = .cyclic := hd
  rw [show a.offset + index + n - 1 = a.offset + index + (n - 1) by omega]
  simp only [numElemsPe, peForDistIndex_cyclic hdist hn, peForDistIndex_cyclic hdist
    (show (a.part index n).size - 1 < (a.part index n).size from Nat.sub_lt hn Nat.one_pos),
    Nat.add_zero, hdist]
  exact count_eq_nested_ite _ _ _ _ _

theorem numElems_cyclic (h : a.WellFormed len) (hd : a.distribution = .cyclic)
    (hn : 0 < n) (hfit : index + n ≤ a.size) {t : CyclicTurn}
    (ht : t.Exact a.numPes (a.offset + index) n) :
    (n / a.numPes + if n % a.numPes ≠ 0 ∧
        (if (a.offset + index) % a.numPes ≤ (a.offset + index + n - 1) % a.numPes then
          (a.offset + index) % a.numPes ≤ t.pe ∧ t.pe ≤ (a.offset + index + n - 1) % a.numPes
        else (a.offset + index) % a.numPes ≤ t.pe ∨
          t.pe ≤ (a.offset + index + n - 1) % a.numPes) then 1 else 0) =
      (stepBy t.i n a.numPes).length := by
  have hpart := h.part hfit
  have hpe : t.pe < a.numPes := ht.pe ▸ Nat.mod_lt _ h.pos
  have hfirst : (a.part index n).firstOn t.pe = t.i := by
    rw [← (mod_eq_iff_firstOn hpart hpe t.i).mp ht.pe.symm]
    exact Nat.mod_eq_of_lt ht.lt_numPes
  have hcount := numElemsPe_cyclic hpart hd hn hpe
  rw [hfirst] at hcount
  rw [numElems_part hd hn, hcount]
  exact (length_stepBy h.pos ht.lt_numPes).symm

theorem localElementsForRange_onPe_cyclic (hd : a.distribution = .cyclic) (pe : ℕ) :
    (a.onPe pe).localElementsForRange index n = (do
      let startPe ← a.peForDistIndex index
      let endPe ← a.peForDistIndex (index + n - 1)
      let localIndex :=
        if startPe ≤ pe then index + (pe - startPe) else index + (a.numPes - startPe + pe)
      let startIndex := localIndex / a.numPes
      let numElems := n / a.numPes + if n % a.numPes ≠ 0 ∧
        (if startPe ≤ endPe then startPe ≤ pe ∧ pe ≤ endPe
          else startPe ≤ pe ∨ pe ≤ endPe) then 1 else 0
      if 0 < numElems then
        let endIndex := startIndex + numElems
        let slice ← (a.onPe pe).localAsMutSlice
        let elems ← subSlice slice startIndex endIndex
        some (some (elems, (startIndex, endIndex)))
      else some none) := by
  simp only [localElementsForRange, onPe_distribution, hd]
  rfl

/-- The receiver of a cyclic message finds the elements of its turn. -/
theorem localElementsForRange_cyclic (h : a.WellFormed len) (hd : a.distribution = .cyclic)
    (hn : 0 < n) (hfit : index + n ≤ a.size) {t : CyclicTurn}
    (ht : t.Exact a.numPes (a.offset + index) n) :
    ∃ bounds, (a.onPe t.pe).localElementsForRange index n =
      some (some ((t.offset, t.offset + (stepBy t.i n a.numPes).length), bounds)) := by
  have hstart := peForDistIndex_cyclic hd (show index < a.size by omega)
  have hstop := peForDistIndex_cyclic hd (show index + n - 1 < a.size by omega)
  rw [show a.offset + (index + n - 1) = a.offset + index + n - 1 by omega] at hstop
  have hpe : t.pe < a.numPes := ht.pe ▸ Nat.mod_lt _ h.pos
  have hlocal : (if (a.offset + index) % a.numPes ≤ t.pe then
        index + (t.pe - (a.offset + index) % a.numPes)
      else index + (a.numPes - (a.offset + index) % a.numPes + t.pe)) = index + t.i := by
    have hlt := Nat.mod_lt (a.offset + index) h.pos
    have hi := ht.lt_numPes
    rw [ht.pe, ← Nat.mod_add_mod (a.offset + index) a.numPes t.i]
    generalize (a.offset + index) % a.numPes = s at hlt ⊢
    by_cases hwrap : s + t.i < a.numPes
    · rw [Nat.mod_eq_of_lt hwrap, if_pos (by omega)]
      omega
    · rw [Nat.mod_eq_sub_mod (by omega), Nat.mod_eq_of_lt (by omega), if_neg (by omega)]
      omega
  have hslot := start_add_div_cyclic h (index + t.i)
  rw [← Nat.add_assoc, ← ht.pe, ← ht.offset] at hslot
  -- the last element of the turn is one of the elements of the view on this PE
  have hcount : 0 < (stepBy t.i n a.numPes).length := by
    rw [lt_length_stepBy h.pos]
    have := ht.lt_bufLen
    omega
  have hroom : (index + t.i) / a.numPes + (stepBy t.i n a.numPes).length ≤ a.numElemsPe t.pe := by
    have hlast := (lt_length_stepBy h.pos _).mp (Nat.sub_lt hcount Nat.one_pos)
    obtain ⟨x, ⟨_, hx⟩, heq⟩ := peAndOffset_mapsTo h (show 0 < a.size by omega)
      (i := index + (t.i + ((stepBy t.i n a.numPes).length - 1) * a.numPes)) (by omega)
    rw [peAndOffset_cyclic hd (by omega)] at heq
    cases heq
    simp only [← Nat.add_assoc, Nat.add_mul_mod_self_right, Nat.add_mul_div_right _ _ h.pos,
      ← ht.pe] at hx
    omega
  rw [localElementsForRange_onPe_cyclic hd]
  simp only [hstart, hstop, Option.bind_eq_bind, Option.bind_some, hlocal,
    numElems_cyclic h hd hn hfit ht, if_pos hcount, localAsMutSlice_cyclic hd, subSlice]
  rw [if_pos ⟨by omega, by omega⟩, ← Nat.add_assoc, hslot]
  exact ⟨_, rfl⟩

end UnsafeArrayInner

end Lamellar.Array
