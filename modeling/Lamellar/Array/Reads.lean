import Lamellar.Array.Transfer

/-!
# The read paths

Every read path assembles the buffer from pieces, and `Right` says that a position of the
buffer holds the element it is meant for. A piece keeps what is right and makes its own
positions right, so the whole loop is an instance of `Folds.foldlM_progress`, whatever the
order of the pieces. The one path that fails is `get_unchecked` on a cyclic view that does
not start at index zero: it reads the elements from `index` on of the full array, not of
the view (`cyclicGetUnchecked_right`, `read_exact_iff`).
-/

namespace Lamellar.Array

open Segments

variable {T : Type}

/-- Position `k` of the buffer holds the value it is meant to hold. -/
def Right (val : ℕ → T) (buf : List T) (k : ℕ) : Prop := buf[k]? = some (val k)

/-- The element of a full array of `len` elements that is `k` after index `g`. -/
def MemoryRegion.valueAt (r : MemoryRegion T) (d : Distribution) (len numPes g k : ℕ) : T :=
  r.cell (home d len numPes (g + k)).1 (home d len numPes (g + k)).2

/-! ## One piece -/

theorem bufPut_right (val : ℕ → T) (buf : List T) (start : ℕ) {data : List T}
    (hfit : start + data.length ≤ buf.length)
    (hdata : ∀ t < data.length, data[t]? = some (val (start + t))) :
    ∃ buf', bufPut buf start data = some buf' ∧ buf'.length = buf.length ∧
      ∀ k, Right val buf k ∨ (start ≤ k ∧ k < start + data.length) → Right val buf' k := by
  refine ⟨_, bufPut_eq_some hfit, length_splice hfit, ?_⟩
  intro k hk
  unfold Right
  rw [getElem?_splice hfit]
  by_cases hin : start ≤ k ∧ k < start + data.length
  · rw [if_pos hin, hdata _ (by omega), Nat.add_sub_cancel' hin.1]
  · rw [if_neg hin]
    exact hk.resolve_right hin

/-- Spreading the front of `temp` over the listed positions makes these right. -/
theorem scatterLoop_right (val : ℕ → T) (temp : List T) (js : List ℕ) (k : ℕ) (buf : List T)
    (hjs : ∀ t j, js[t]? = some j → temp[k + t]? = some (val j) ∧ j < buf.length) :
    ∃ buf', UnsafeArrayInner.scatterLoop temp js k buf = some buf' ∧ buf'.length = buf.length ∧
      ∀ i, Right val buf i ∨ i ∈ js → Right val buf' i := by
  induction js generalizing k buf with
  | nil => exact ⟨buf, rfl, rfl, fun i hi => by simpa using hi⟩
  | cons j js ih =>
    obtain ⟨hval, hlt⟩ := hjs 0 j rfl
    rw [Nat.add_zero] at hval
    obtain ⟨hk, hget⟩ := List.getElem?_eq_some_iff.mp hval
    have hsub : subRegion temp k 1 = some [val j] := by
      rw [subRegion_eq_some (by omega), List.drop_eq_getElem_cons hk, hget]
      rfl
    obtain ⟨buf₁, hput, hlen₁, hright₁⟩ := bufPut_right val buf j (show j + [val j].length ≤ _
      from hlt) (by simp)
    obtain ⟨buf₂, hrest, hlen₂, hright₂⟩ := ih (k + 1) buf₁ (by
      intro t j' hj'
      rw [hlen₁, Nat.add_assoc, Nat.add_comm 1 t]
      exact hjs (t + 1) j' hj')
    refine ⟨buf₂, ?_, hlen₂.trans hlen₁, ?_⟩
    · simp only [UnsafeArrayInner.scatterLoop, hsub, hput, Option.bind_eq_bind,
        Option.bind_some, hrest]
    · intro i hi
      apply hright₂
      rcases hi with hi | hi
      · exact Or.inl (hright₁ i (Or.inl hi))
      · rcases List.mem_cons.mp hi with rfl | hi
        · exact Or.inl (hright₁ i (Or.inr (by simp)))
        · exact Or.inr hi

theorem interleaveLoop_right (val : ℕ → T) (numPes start : ℕ) (vals : List T) (i : ℕ)
    (buf : List T)
    (hvals : ∀ t v, vals[t]? = some v →
      v = val (start + (i + t) * numPes) ∧ start + (i + t) * numPes < buf.length) :
    ∃ buf', UnsafeArrayInner.interleaveLoop numPes start vals i buf = some buf' ∧
      buf'.length = buf.length ∧
      ∀ k, Right val buf k ∨ (∃ t < vals.length, k = start + (i + t) * numPes) →
        Right val buf' k := by
  induction vals generalizing i buf with
  | nil => exact ⟨buf, rfl, rfl, fun k hk => by simpa using hk⟩
  | cons v vals ih =>
    obtain ⟨hval, hlt⟩ := hvals 0 v rfl
    rw [Nat.add_zero] at hval hlt
    obtain ⟨buf₁, hput, hlen₁, hright₁⟩ := bufPut_right val buf (start + i * numPes)
      (show start + i * numPes + [v].length ≤ _ from hlt) (by simp [hval])
    obtain ⟨buf₂, hrest, hlen₂, hright₂⟩ := ih (i + 1) buf₁ (by
      intro t v' hv'
      rw [hlen₁, Nat.add_assoc, Nat.add_comm 1 t]
      exact hvals (t + 1) v' hv')
    refine ⟨buf₂, ?_, hlen₂.trans hlen₁, ?_⟩
    · simp only [UnsafeArrayInner.interleaveLoop, hput, Option.bind_eq_bind,
        Option.bind_some, hrest]
    · intro k hk
      apply hright₂
      rcases hk with hk | ⟨t, ht, hk⟩
      · exact Or.inl (hright₁ k (Or.inl hk))
      · cases t with
        | zero => exact Or.inl (hright₁ k (Or.inr (by simp [hk])))
        | succ t =>
          refine Or.inr ⟨t, by simpa using ht, ?_⟩
          rw [hk, Nat.add_assoc, Nat.add_comm 1 t]

namespace UnsafeArrayInner

variable {a : UnsafeArrayInner} {len index n : ℕ} {r : MemoryRegion T}

/-! ## Block distribution -/

/-- A block piece lies inside the memory of its PE. -/
theorem BlockPiece.Exact.fits {p : BlockPiece} (h : a.WellFormed len)
    (hfit : index + n ≤ a.size) (hp : p.Exact len a.numPes (a.offset + index) n) :
    p.offset + p.len ≤ perPeSize len a.numPes := by
  have hfits := h.fits
  have hpos := hp.pos
  have hupper := hp.upper
  have hhome := hp.home_eq h.pos h.le (t := p.len - 1) (by omega)
  have hlt := home_snd_lt (d := .block) h.pos h.le
    (show a.offset + index + (p.bufIndex + (p.len - 1)) < len by omega)
  rw [hhome] at hlt
  simp only at hlt
  omega

theorem getElem?_map_cell {r : MemoryRegion T} {pe start count t : ℕ} (ht : t < count) :
    ((List.range count).map fun k => r.cell pe (start + k))[t]? = some (r.cell pe (start + t)) := by
  simp [ht]

/-- What a block piece reads is what its part of the buffer is meant to hold. -/
theorem BlockPiece.Exact.blockingGet {p : BlockPiece} (h : a.WellFormed len)
    (hr : r.perPe = perPeSize len a.numPes) (hfit : index + n ≤ a.size)
    (hp : p.Exact len a.numPes (a.offset + index) n) :
    ∃ data, r.blockingGet p.pe p.offset p.len = some data ∧ data.length = p.len ∧
      ∀ t < p.len, data[t]? =
        some (r.valueAt .block len a.numPes (a.offset + index) (p.bufIndex + t)) := by
  refine ⟨_, blockingGet_eq_some (hr ▸ hp.fits h hfit), by simp, ?_⟩
  intro t ht
  rw [getElem?_map_cell ht, MemoryRegion.valueAt, hp.home_eq h.pos h.le ht]

theorem blockGetPiece_right {p : BlockPiece} {buf : List T} (h : a.WellFormed len)
    (hr : r.perPe = perPeSize len a.numPes) (hfit : index + n ≤ a.size)
    (hp : p.Exact len a.numPes (a.offset + index) n) (hbuf : buf.length = n) :
    ∃ buf', blockGetPiece r buf p = some buf' ∧ buf'.length = n ∧
      ∀ k, Right (r.valueAt .block len a.numPes (a.offset + index)) buf k ∨
        (p.bufIndex ≤ k ∧ k < p.bufIndex + p.len) →
        Right (r.valueAt .block len a.numPes (a.offset + index)) buf' k := by
  obtain ⟨data, hget, hlen, hdata⟩ := hp.blockingGet h hr hfit
  have hupper := hp.upper
  obtain ⟨buf', hput, hlen', hright⟩ := bufPut_right
    (r.valueAt .block len a.numPes (a.offset + index)) buf p.bufIndex
    (show p.bufIndex + data.length ≤ buf.length by omega) (fun t ht => hdata t (by omega))
  refine ⟨buf', ?_, hlen'.trans hbuf, ?_⟩
  · simp only [blockGetPiece, hget, Option.bind_eq_bind, Option.bind_some, hput]
  · rw [hlen] at hright
    exact hright

/-- The pieces of a block get, in any order. -/
theorem blockGetPieces_right {buf : List T} (h : a.WellFormed len)
    (hd : a.distribution = .block) (hr : r.perPe = perPeSize len a.numPes) (hn : 0 < n)
    (hfit : index + n ≤ a.size) (hbuf : buf.length = n) :
    ∃ pieces, a.blockPieces index n = some pieces ∧ ∀ order : List BlockPiece,
      order.Perm pieces → ∃ buf', order.foldlM (blockGetPiece r) buf = some buf' ∧
        buf'.length = n ∧
        ∀ k < n, Right (r.valueAt .block len a.numPes (a.offset + index)) buf' k := by
  obtain ⟨pieces, hpieces, hexact, hcover⟩ := mem_blockPieces h hd hn hfit
  refine ⟨pieces, hpieces, ?_⟩
  intro order hperm
  obtain ⟨buf', hfold, hlen, hright⟩ := Folds.foldlM_progress (blockGetPiece r)
    (fun buf => buf.length = n) (Right (r.valueAt .block len a.numPes (a.offset + index)))
    (fun p => p.Exact len a.numPes (a.offset + index) n)
    (fun p k => p.bufIndex ≤ k ∧ k < p.bufIndex + p.len)
    (fun buf p hbuf hp => blockGetPiece_right h hr hfit hp hbuf) order buf hbuf
    (fun p hp => hexact p (hperm.mem_iff.mp hp))
  refine ⟨buf', hfold, hlen, ?_⟩
  intro k hk
  obtain ⟨p, hp, hpk⟩ := hcover k hk
  exact hright k (Or.inr ⟨p, hperm.mem_iff.mpr hp, hpk⟩)

/-! ## Cyclic distribution -/

theorem CyclicTurn.Exact.fits {t : CyclicTurn} (h : a.WellFormed len)
    (hfit : index + n ≤ a.size) (ht : t.Exact a.numPes (a.offset + index) n) :
    t.offset + (stepBy t.i n a.numPes).length ≤ perPeSize len a.numPes := by
  have hfits := h.fits
  have hcount : 0 < (stepBy t.i n a.numPes).length := by
    rw [lt_length_stepBy h.pos]
    have := ht.lt_bufLen
    omega
  have hlast := (lt_length_stepBy h.pos _).mp (Nat.sub_lt hcount Nat.one_pos)
  have hlt := home_snd_lt (d := .cyclic) h.pos h.le
    (show a.offset + index +
      (t.i + ((stepBy t.i n a.numPes).length - 1) * a.numPes) < len by omega)
  rw [ht.home_eq len h.pos] at hlt
  simp only at hlt
  omega

theorem cyclicNumElems_eq {t : CyclicTurn} (h : a.WellFormed len) {g : ℕ}
    (ht : t.Exact a.numPes g n) :
    a.cyclicNumElems n t.i = (stepBy t.i n a.numPes).length := by
  rw [length_stepBy h.pos ht.lt_numPes, cyclicNumElems, cyclicNumElemsPe, Nat.add_sub_cancel]

theorem length_stepBy_le {t : CyclicTurn} (h : a.WellFormed len) {g : ℕ}
    (ht : t.Exact a.numPes g n) :
    (stepBy t.i n a.numPes).length ≤ a.cyclicNumElemsPe n := by
  rw [length_stepBy h.pos ht.lt_numPes, cyclicNumElemsPe]
  split
  · omega
  · omega

/-- What a turn reads is what its residue of the buffer is meant to hold. -/
theorem CyclicTurn.Exact.blockingGet {t : CyclicTurn} (h : a.WellFormed len)
    (hr : r.perPe = perPeSize len a.numPes) (hfit : index + n ≤ a.size)
    (ht : t.Exact a.numPes (a.offset + index) n) :
    ∃ data, r.blockingGet t.pe t.offset (stepBy t.i n a.numPes).length = some data ∧
      data.length = (stepBy t.i n a.numPes).length ∧
      ∀ k < (stepBy t.i n a.numPes).length, data[k]? =
        some (r.valueAt .cyclic len a.numPes (a.offset + index) (t.i + k * a.numPes)) := by
  refine ⟨_, blockingGet_eq_some (hr ▸ ht.fits h hfit), by simp, ?_⟩
  intro k hk
  rw [getElem?_map_cell hk, MemoryRegion.valueAt, ht.home_eq len h.pos]

theorem cyclicGetTurn_right {t : CyclicTurn} (temp : List T) {buf : List T}
    (h : a.WellFormed len) (hr : r.perPe = perPeSize len a.numPes) (hfit : index + n ≤ a.size)
    (ht : t.Exact a.numPes (a.offset + index) n)
    (htemp : (stepBy t.i n a.numPes).length ≤ temp.length) (hbuf : buf.length = n) :
    ∃ temp' buf', a.cyclicGetTurn r temp buf t = some (temp', buf') ∧
      temp'.length = temp.length ∧ buf'.length = n ∧
      ∀ k, Right (r.valueAt .cyclic len a.numPes (a.offset + index)) buf k ∨
        (k < n ∧ k % a.numPes = t.i) →
        Right (r.valueAt .cyclic len a.numPes (a.offset + index)) buf' k := by
  obtain ⟨data, hget, hlen, hdata⟩ := ht.blockingGet h hr hfit
  have hfitTemp : 0 + data.length ≤ temp.length := by omega
  obtain ⟨buf', hscatter, hlen', hright⟩ := scatterLoop_right
    (r.valueAt .cyclic len a.numPes (a.offset + index)) (splice temp 0 data)
    (stepBy t.i n a.numPes) 0 buf (by
      intro k j hj
      obtain ⟨hk, _⟩ := List.getElem?_eq_some_iff.mp hj
      obtain ⟨rfl, hjn⟩ := getElem?_stepBy_eq_some h.pos hj
      refine ⟨?_, by omega⟩
      rw [getElem?_splice hfitTemp, if_pos (by omega), Nat.sub_zero, Nat.zero_add, hdata k hk])
  refine ⟨splice temp 0 data, buf', ?_, length_splice hfitTemp, hlen'.trans hbuf, ?_⟩
  · simp only [cyclicGetTurn, hbuf, cyclicNumElems_eq h ht, hget, Option.bind_eq_bind,
      Option.bind_some, bufPut_eq_some hfitTemp, hscatter]
  · intro k hk
    apply hright
    rcases hk with hk | ⟨hkn, hmod⟩
    · exact Or.inl hk
    · exact Or.inr (hmod ▸ List.mem_of_getElem? (getElem?_stepBy_mod h.pos hkn))

theorem length_allocOneSidedMemRegion (junk : ℕ → T) (m : ℕ) :
    (allocOneSidedMemRegion junk m).length = m := by
  simp [allocOneSidedMemRegion]

theorem cyclicBlockingGet_right {junk : ℕ → T} {buf : List T} (h : a.WellFormed len)
    (hr : r.perPe = perPeSize len a.numPes) (hfit : index + n ≤ a.size)
    (hbuf : buf.length = n) :
    ∃ buf', a.cyclicBlockingGet junk r index buf = some buf' ∧ buf'.length = n ∧
      ∀ k < n, Right (r.valueAt .cyclic len a.numPes (a.offset + index)) buf' k := by
  obtain ⟨hexact, hcover⟩ := mem_cyclicTurns (a := a) index n h.pos
  obtain ⟨⟨temp', buf'⟩, hfold, ⟨_, hlen⟩, hright⟩ := Folds.foldlM_progress
    (fun (s : List T × List T) t => a.cyclicGetTurn r s.1 s.2 t)
    (fun s => s.1.length = a.cyclicNumElemsPe n ∧ s.2.length = n)
    (fun s => Right (r.valueAt .cyclic len a.numPes (a.offset + index)) s.2)
    (fun t => t.Exact a.numPes (a.offset + index) n)
    (fun t k => k < n ∧ k % a.numPes = t.i)
    (by
      rintro ⟨temp, buf⟩ t ⟨htemp, hbuf⟩ ht
      have hroom : (stepBy t.i n a.numPes).length ≤ temp.length := by
        rw [htemp]
        exact length_stepBy_le h ht
      obtain ⟨temp', buf', hturn, htemp', hbuf', hright⟩ :=
        cyclicGetTurn_right temp h hr hfit ht hroom hbuf
      exact ⟨(temp', buf'), hturn, ⟨htemp'.trans htemp, hbuf'⟩, hright⟩)
    (a.cyclicTurns index n)
    (allocOneSidedMemRegion junk (a.cyclicNumElemsPe n), buf)
    ⟨length_allocOneSidedMemRegion _ _, hbuf⟩ hexact
  refine ⟨buf', ?_, hlen, ?_⟩
  · simp only [cyclicBlockingGet, hbuf, hfold, Option.bind_eq_bind, Option.bind_some]
  · intro k hk
    obtain ⟨t, ht, htk⟩ := hcover k hk
    exact hright k (Or.inr ⟨t, ht, hk, htk.symm⟩)

theorem cyclicGetAm_right {sched : Schedule} {junk : ℕ → ℕ → T} {buf : List T}
    (h : a.WellFormed len) (hr : r.perPe = perPeSize len a.numPes) (hfit : index + n ≤ a.size)
    (hbuf : buf.length = n) :
    ∃ buf', a.cyclicGetAm sched junk r index buf = some buf' ∧ buf'.length = n ∧
      ∀ k < n, Right (r.valueAt .cyclic len a.numPes (a.offset + index)) buf' k := by
  obtain ⟨hexact, hcover⟩ := mem_cyclicTurns (a := a) index n h.pos
  have hperm := sched.perm (a.cyclicTurns index n)
  obtain ⟨buf', hfold, hlen, hright⟩ := Folds.foldlM_progress
    (fun (buf : List T) t => do
      let temp := allocOneSidedMemRegion (junk t.i) (a.cyclicNumElemsPe buf.length)
      let temp ← subRegion temp 0 (a.cyclicNumElems buf.length t.i)
      let turn ← a.cyclicGetTurn r temp buf t
      some turn.2)
    (fun (buf : List T) => buf.length = n)
    (Right (r.valueAt .cyclic len a.numPes (a.offset + index)))
    (fun t : CyclicTurn => t.Exact a.numPes (a.offset + index) n)
    (fun t k => k < n ∧ k % a.numPes = t.i)
    (by
      intro buf t hbuf ht
      have hroom : 0 + (stepBy t.i n a.numPes).length ≤
          (allocOneSidedMemRegion (junk t.i) (a.cyclicNumElemsPe n)).length := by
        rw [length_allocOneSidedMemRegion, Nat.zero_add]
        exact length_stepBy_le h ht
      obtain ⟨temp', buf', hturn, _, hbuf', hright⟩ := cyclicGetTurn_right _ h hr hfit ht
        (length_subRegion hroom).ge hbuf
      refine ⟨buf', ?_, hbuf', hright⟩
      simp only [hbuf, cyclicNumElems_eq h ht, subRegion_eq_some hroom, Option.bind_eq_bind,
        Option.bind_some, hturn])
    (sched.run (a.cyclicTurns index n)) buf hbuf (fun t ht => hexact t (hperm.mem_iff.mp ht))
  refine ⟨buf', ?_, hlen, ?_⟩
  · rw [cyclicGetAm, hbuf]
    exact hfold
  intro k hk
  obtain ⟨t, ht, htk⟩ := hcover k hk
  exact hright k (Or.inr ⟨t, hperm.mem_iff.mpr ht, hk, htk.symm⟩)

/-- `get_unchecked` on a cyclic view reads the elements of the full array from `index` on,
whatever the offset of the view. -/
theorem cyclicGetUnchecked_right {buf : List T} (h : a.WellFormed len)
    (hr : r.perPe = perPeSize len a.numPes) (hfit : index + n ≤ a.size)
    (hbuf : buf.length = n) :
    ∃ buf', a.cyclicGetUnchecked r index buf = some buf' ∧ buf'.length = n ∧
      ∀ k < n, Right (r.valueAt .cyclic len a.numPes index) buf' k := by
  have hfits := h.fits
  obtain ⟨buf', hfold, hlen, hright⟩ := Folds.foldlM_progress
    (fun (buf : List T) i => do
      let data ← r.blockingGet ((index + i) % a.numPes) ((index + i) / a.numPes) 1
      bufPut buf i data)
    (fun (buf : List T) => buf.length = n) (Right (r.valueAt .cyclic len a.numPes index))
    (fun i : ℕ => i < n) (fun i k => k = i)
    (by
      intro buf i hbuf hi
      have hlt := home_snd_lt (d := .cyclic) h.pos h.le (show index + i < len by omega)
      have hget : r.blockingGet ((index + i) % a.numPes) ((index + i) / a.numPes) 1 =
          some [r.valueAt .cyclic len a.numPes index i] := blockingGet_eq_some (hr ▸ hlt)
      obtain ⟨buf', hput, hlen', hright⟩ := bufPut_right
        (r.valueAt .cyclic len a.numPes index) buf i
        (show i + [r.valueAt .cyclic len a.numPes index i].length ≤ _ from hbuf ▸ hi) (by simp)
      refine ⟨buf', ?_, hlen'.trans hbuf, ?_⟩
      · simp only [hget, Option.bind_eq_bind, Option.bind_some, hput]
      · intro k hk
        apply hright
        rcases hk with hk | rfl
        · exact Or.inl hk
        · exact Or.inr (by simp))
    (List.range n) buf hbuf (fun i hi => List.mem_range.mp hi)
  refine ⟨buf', ?_, hlen, fun k hk => hright k (Or.inr ⟨k, List.mem_range.mpr hk, rfl⟩)⟩
  rw [cyclicGetUnchecked, hbuf]
  exact hfold

/-! ## The small get -/

/-- The piece of a range of `n` elements from `g` on that lies in the segment of `pe`. -/
def blockPart (len numPes g n pe : ℕ) : BlockPiece :=
  ⟨pe, g - cut len numPes pe, cut len numPes pe - g,
    min (cut len numPes (pe + 1) - g) n - (cut len numPes pe - g)⟩

theorem blockPart_exact (h : a.WellFormed len) {g pe : ℕ} (hn : 0 < n)
    (hlow : segOf len a.numPes g ≤ pe) (hhigh : pe ≤ segOf len a.numPes (g + n - 1)) :
    (blockPart len a.numPes g n pe).Exact len a.numPes g n := by
  have hmono := (cut_strictMono h.pos h.le).monotone
  have h1 := (segOf_spec h.pos h.le g).2
  have h2 := (segOf_spec h.pos h.le (g + n - 1)).1
  have h3 : cut len a.numPes (segOf len a.numPes g + 1) ≤ cut len a.numPes (pe + 1) :=
    hmono (by omega)
  have h4 := hmono hhigh
  have h5 := cut_lt_succ h.pos h.le pe
  constructor
  all_goals simp only [blockPart]
  all_goals omega

/-- The answer of a PE to a block request. -/
def blockAnswer (r : MemoryRegion T) (p : BlockPiece) : List T :=
  (List.range p.len).map fun k => r.cell p.pe (p.offset + k)

theorem remoteSmallGet_block {p : BlockPiece} (h : a.WellFormed len)
    (hd : a.distribution = .block) (hr : r.perPe = perPeSize len a.numPes) (hn : 0 < n)
    (hfit : index + n ≤ a.size) (hp : p.Exact len a.numPes (a.offset + index) n) :
    (a.onPe p.pe).remoteSmallGet r index n = some (blockAnswer r p) := by
  obtain ⟨bounds, hrange⟩ := localElementsForRange_block h hd hn hfit hp
  simp only [remoteSmallGet, hrange, Option.bind_eq_bind, Option.bind_some, onPe_myPe,
    Nat.add_sub_cancel_left]
  exact blockingGet_eq_some (hr ▸ hp.fits h hfit)

/-- The result loop of a block request: the running index is where the next piece begins. -/
theorem concatLoop_right {g : ℕ} (h : a.WellFormed len) (m pe : ℕ) (buf : List T)
    (hbuf : buf.length = n)
    (hexact : ∀ q, pe ≤ q → q < pe + m →
      (blockPart len a.numPes g n q).Exact len a.numPes g n) :
    ∃ buf', concatLoop ((List.range' pe m).map fun q =>
        blockAnswer r (blockPart len a.numPes g n q)) (cut len a.numPes pe - g) buf = some buf' ∧
      buf'.length = n ∧
      ∀ k, Right (r.valueAt .block len a.numPes g) buf k ∨
        (∃ q, pe ≤ q ∧ q < pe + m ∧ cut len a.numPes q - g ≤ k ∧
          k < min (cut len a.numPes (q + 1) - g) n) →
        Right (r.valueAt .block len a.numPes g) buf' k := by
  induction m generalizing pe buf with
  | zero =>
    refine ⟨buf, rfl, hbuf, ?_⟩
    rintro k (hk | ⟨q, h1, h2, _⟩)
    · exact hk
    · omega
  | succ m ih =>
    have hp := hexact pe (Nat.le_refl pe) (by omega)
    have hupper : cut len a.numPes pe - g + (blockPart len a.numPes g n pe).len =
        min (cut len a.numPes (pe + 1) - g) n := hp.upper
    have hlen : (blockAnswer r (blockPart len a.numPes g n pe)).length =
        (blockPart len a.numPes g n pe).len := by simp [blockAnswer]
    obtain ⟨buf₁, hput, hlen₁, hright₁⟩ := bufPut_right (r.valueAt .block len a.numPes g) buf
      (cut len a.numPes pe - g)
      (show _ + (blockAnswer r (blockPart len a.numPes g n pe)).length ≤ _ by omega)
      (fun t ht => by
        have hhome := hp.home_eq h.pos h.le (hlen ▸ ht)
        rw [blockAnswer, getElem?_map_cell (hlen ▸ ht), MemoryRegion.valueAt]
        rw [show g + (cut len a.numPes pe - g + t) =
          g + ((blockPart len a.numPes g n pe).bufIndex + t) from rfl, hhome])
    by_cases hmore : m = 0
    · subst hmore
      refine ⟨buf₁, ?_, hlen₁.trans hbuf, ?_⟩
      · simp only [List.range'_succ, List.range'_zero, List.map_cons, List.map_nil, concatLoop,
          hput, Option.bind_eq_bind, Option.bind_some]
      · rintro k (hk | ⟨q, h1, h2, h3⟩)
        · exact hright₁ k (Or.inl hk)
        · have hq : q = pe := by omega
          subst hq
          exact hright₁ k (Or.inr (by omega))
    · have hnext := hexact (pe + 1) (by omega) (by omega)
      have hlower' : (blockPart len a.numPes g n (pe + 1)).bufIndex =
          cut len a.numPes (pe + 1) - g := hnext.lower
      have hupper' := hnext.upper
      have hpos' := hnext.pos
      obtain ⟨buf₂, hrest, hlen₂, hright₂⟩ := ih (pe + 1) buf₁ (hlen₁.trans hbuf)
        (fun q h1 h2 => hexact q (by omega) (by omega))
      refine ⟨buf₂, ?_, hlen₂, ?_⟩
      · rw [List.range'_succ, List.map_cons, concatLoop, hput, hlen, hupper,
          show min (cut len a.numPes (pe + 1) - g) n = cut len a.numPes (pe + 1) - g by omega]
        exact hrest
      · rintro k (hk | ⟨q, h1, h2, h3⟩)
        · exact hright₂ k (Or.inl (hright₁ k (Or.inl hk)))
        · by_cases hq : q = pe
          · subst hq
            exact hright₂ k (Or.inl (hright₁ k (Or.inr (by omega))))
          · exact hright₂ k (Or.inr ⟨q, by omega, by omega, h3⟩)

theorem initSmallGet_block {buf : List T} (h : a.WellFormed len)
    (hd : a.distribution = .block) (hr : r.perPe = perPeSize len a.numPes) (hn : 0 < n)
    (hfit : index + n ≤ a.size) (hbuf : buf.length = n) :
    ∃ buf', a.initSmallGet r index buf = some buf' ∧ buf'.length = n ∧
      ∀ k < n, Right (r.valueAt .block len a.numPes (a.offset + index)) buf' k := by
  have hfits := h.fits
  have hstart := peForDistIndex_block h hd (show index < a.size by omega)
  have hstop := peForDistIndex_block h hd (show index + n - 1 < a.size by omega)
  rw [show a.offset + (index + n - 1) = a.offset + index + n - 1 by omega] at hstop
  have hle := segOf_mono h.pos h.le (show a.offset + index ≤ a.offset + index + n - 1 by omega)
  set startPe := segOf len a.numPes (a.offset + index) with hstartPe
  set endPe := segOf len a.numPes (a.offset + index + n - 1) with hendPe
  have hexact : ∀ q, startPe ≤ q → q < startPe + (endPe + 1 - startPe) →
      (blockPart len a.numPes (a.offset + index) n q).Exact len a.numPes
        (a.offset + index) n :=
    fun q h1 h2 => blockPart_exact h hn h1 (by omega)
  have hanswers : (List.range' startPe (endPe + 1 - startPe)).mapM
      (fun pe => (a.onPe pe).remoteSmallGet r index n) =
      some ((List.range' startPe (endPe + 1 - startPe)).map fun q =>
        blockAnswer r (blockPart len a.numPes (a.offset + index) n q)) := by
    rw [← List.map_id (List.range' startPe (endPe + 1 - startPe)), List.map_map]
    apply Folds.mapM_map_eq_some
    intro q hq
    obtain ⟨h1, h2⟩ := List.mem_range'_1.mp hq
    exact remoteSmallGet_block h hd hr hn hfit (hexact q h1 h2)
  obtain ⟨buf', hloop, hlen, hright⟩ := concatLoop_right h (r := r) _ startPe buf hbuf hexact
  have hfirst := (segOf_spec h.pos h.le (a.offset + index)).1
  rw [← hstartPe] at hfirst
  rw [Nat.sub_eq_zero_of_le hfirst] at hloop
  refine ⟨buf', ?_, hlen, ?_⟩
  · simp only [initSmallGet, pesForRange, hd, hbuf, hstart, hstop, hanswers,
      Option.bind_eq_bind, Option.bind_some, hloop]
  · intro k hk
    obtain ⟨h1, h2⟩ := segOf_spec h.pos h.le (a.offset + index + k)
    have hge := segOf_mono h.pos h.le (show a.offset + index ≤ a.offset + index + k by omega)
    have hle' := segOf_mono h.pos h.le
      (show a.offset + index + k ≤ a.offset + index + n - 1 by omega)
    exact hright k (Or.inr ⟨segOf len a.numPes (a.offset + index + k), hge, by omega, by omega,
      by omega⟩)

/-- The answer of a PE to a cyclic request. -/
def cyclicAnswer (r : MemoryRegion T) (numPes n : ℕ) (t : CyclicTurn) : List T :=
  (List.range (stepBy t.i n numPes).length).map fun k => r.cell t.pe (t.offset + k)

theorem remoteSmallGet_cyclic {t : CyclicTurn} (h : a.WellFormed len)
    (hd : a.distribution = .cyclic) (hr : r.perPe = perPeSize len a.numPes) (hn : 0 < n)
    (hfit : index + n ≤ a.size) (ht : t.Exact a.numPes (a.offset + index) n) :
    (a.onPe t.pe).remoteSmallGet r index n = some (cyclicAnswer r a.numPes n t) := by
  obtain ⟨bounds, hrange⟩ := localElementsForRange_cyclic h hd hn hfit ht
  simp only [remoteSmallGet, hrange, Option.bind_eq_bind, Option.bind_some, onPe_myPe,
    Nat.add_sub_cancel_left]
  exact blockingGet_eq_some (hr ▸ ht.fits h hfit)

theorem pesForRange_cyclic (hd : a.distribution = .cyclic) :
    a.pesForRange index n = (List.range (min n a.numPes)).map fun i =>
      (cyclicPart a.numPes (a.offset + index) i).pe := by
  simp only [pesForRange, hd, List.range'_eq_map_range, List.map_map, ← List.map_take,
    List.take_range, Nat.min_comm a.numPes n]
  rfl

/-- The interleaved positions of a turn: with fewer elements than PEs every turn has one
element, so the number of answers may stand for the number of PEs. -/
theorem interleave_position {i k P : ℕ} (hP : 0 < P)
    (hk : k < (stepBy i n P).length) : i + k * min n P = i + k * P ∧ i + k * P < n := by
  have hlt := (lt_length_stepBy hP k).mp hk
  refine ⟨?_, hlt⟩
  by_cases hle : P ≤ n
  · rw [Nat.min_eq_right hle]
  · have hk0 : k = 0 := by
      by_contra hne
      have : P ≤ k * P := Nat.le_mul_of_pos_left P (by omega)
      omega
    rw [hk0, Nat.zero_mul, Nat.zero_mul]

theorem interleaveAnswer_right {g i : ℕ} {buf : List T} (h : a.WellFormed len)
    (hi : i < min n a.numPes) (hbuf : buf.length = n) :
    ∃ buf', interleaveLoop (min n a.numPes) i
        (cyclicAnswer r a.numPes n (cyclicPart a.numPes g i)) 0 buf = some buf' ∧
      buf'.length = n ∧
      ∀ k, Right (r.valueAt .cyclic len a.numPes g) buf k ∨ (k < n ∧ k % a.numPes = i) →
        Right (r.valueAt .cyclic len a.numPes g) buf' k := by
  have ht := cyclicPart_exact (n := n) (g := g) hi
  have hlength : (cyclicAnswer r a.numPes n (cyclicPart a.numPes g i)).length =
      (stepBy i n a.numPes).length := by
    rw [cyclicAnswer, List.length_map, List.length_range]
    rfl
  obtain ⟨buf', hloop, hlen, hright⟩ := interleaveLoop_right
    (r.valueAt .cyclic len a.numPes g) (min n a.numPes) i
    (cyclicAnswer r a.numPes n (cyclicPart a.numPes g i)) 0 buf (by
      intro k v hv
      obtain ⟨hk, _⟩ := List.getElem?_eq_some_iff.mp hv
      rw [hlength] at hk
      rw [cyclicAnswer, getElem?_map_cell (show k < (stepBy (cyclicPart _ _ i).i _ _).length
        from hk)] at hv
      obtain ⟨hpos, hlt⟩ := interleave_position h.pos hk
      have hhome := ht.home_eq len h.pos k
      rw [Nat.zero_add, hpos, ← Option.some.inj hv, MemoryRegion.valueAt,
        show g + (i + k * a.numPes) = g + ((cyclicPart a.numPes g i).i + k * a.numPes) from rfl,
        hhome]
      exact ⟨rfl, hbuf ▸ hlt⟩)
  refine ⟨buf', hloop, hlen.trans hbuf, ?_⟩
  intro k hk
  apply hright
  rcases hk with hk | ⟨hkn, hmod⟩
  · exact Or.inl hk
  · have hj := getElem?_stepBy_mod h.pos hkn
    rw [hmod] at hj
    obtain ⟨hlt, _⟩ := List.getElem?_eq_some_iff.mp hj
    refine Or.inr ⟨k / a.numPes, hlength ▸ hlt, ?_⟩
    rw [Nat.zero_add, (interleave_position h.pos hlt).1]
    exact (getElem?_stepBy_eq_some h.pos hj).1

theorem initSmallGet_cyclic {buf : List T} (h : a.WellFormed len)
    (hd : a.distribution = .cyclic) (hr : r.perPe = perPeSize len a.numPes) (hn : 0 < n)
    (hfit : index + n ≤ a.size) (hbuf : buf.length = n) :
    ∃ buf', a.initSmallGet r index buf = some buf' ∧ buf'.length = n ∧
      ∀ k < n, Right (r.valueAt .cyclic len a.numPes (a.offset + index)) buf' k := by
  set g := a.offset + index with hg
  set answers := (List.range (min n a.numPes)).map fun i =>
    cyclicAnswer r a.numPes n (cyclicPart a.numPes g i) with hanswersDef
  have hanswers : (a.pesForRange index n).mapM
      (fun pe => (a.onPe pe).remoteSmallGet r index n) = some answers := by
    rw [pesForRange_cyclic hd]
    apply Folds.mapM_map_eq_some
    intro i hi
    exact remoteSmallGet_cyclic h hd hr hn hfit (cyclicPart_exact (List.mem_range.mp hi))
  have hlength : answers.length = min n a.numPes := by simp [hanswersDef]
  have hanswer : ∀ x ∈ answers.zipIdx, x.2 < min n a.numPes ∧
      x.1 = cyclicAnswer r a.numPes n (cyclicPart a.numPes g x.2) := by
    intro x hx
    rw [List.mem_zipIdx_iff_getElem?, hanswersDef, List.getElem?_map,
      Option.map_eq_some_iff] at hx
    obtain ⟨i, hi, hx⟩ := hx
    obtain ⟨hlt, heq⟩ := List.getElem?_eq_some_iff.mp hi
    rw [List.length_range] at hlt
    rw [List.getElem_range] at heq
    exact ⟨hlt, by rw [← hx, heq]⟩
  obtain ⟨buf', hfold, hlen, hright⟩ := Folds.foldlM_progress
    (fun (buf : List T) (x : List T × ℕ) => interleaveLoop answers.length x.2 x.1 0 buf)
    (fun buf => buf.length = n) (Right (r.valueAt .cyclic len a.numPes g))
    (fun x => x.2 < min n a.numPes ∧
      x.1 = cyclicAnswer r a.numPes n (cyclicPart a.numPes g x.2))
    (fun x k => k < n ∧ k % a.numPes = x.2)
    (by
      rintro buf ⟨vals, i⟩ hbuf ⟨hi, hvals⟩
      simp only at hi hvals
      subst hvals
      rw [hlength]
      exact interleaveAnswer_right h hi hbuf)
    answers.zipIdx buf hbuf hanswer
  refine ⟨buf', ?_, hlen, ?_⟩
  · simp only [initSmallGet, hd, hbuf, hanswers, Option.bind_eq_bind, Option.bind_some, hfold]
  · intro k hk
    have hlt := Nat.mod_lt k h.pos
    have hle := Nat.mod_le k a.numPes
    refine hright k (Or.inr ⟨(cyclicAnswer r a.numPes n (cyclicPart a.numPes g (k % a.numPes)),
      k % a.numPes), ?_, hk, rfl⟩)
    rw [List.mem_zipIdx_iff_getElem?, hanswersDef, List.getElem?_map,
      List.getElem?_range (by omega)]
    rfl

/-! ## All paths -/

/-- The one read path that goes wrong. -/
def MissesOffset (path : ReadPath) (a : UnsafeArrayInner) : Prop :=
  path = .getUnchecked ∧ a.distribution = .cyclic ∧ a.offset ≠ 0

theorem element_eq_valueAt (h : a.WellFormed len) {k : ℕ} (hk : index + k < a.size) :
    a.element r (index + k) =
      some (r.valueAt a.distribution len a.numPes (a.offset + index) k) := by
  simp only [element, physicalSlot_eq_home h hk, Option.bind_eq_bind, Option.bind_some,
    MemoryRegion.valueAt, ← Nat.add_assoc]

theorem read_right (env : Env T) {path : ReadPath} {buf : List T} (h : a.WellFormed len)
    (hr : r.perPe = perPeSize len a.numPes) (hn : 0 < n) (hfit : index + n ≤ a.size)
    (hbuf : buf.length = n) (hpath : ¬ MissesOffset path a) :
    ∃ buf', a.read env path r index buf = some buf' ∧ buf'.length = n ∧
      ∀ k < n, Right (r.valueAt a.distribution len a.numPes (a.offset + index)) buf' k := by
  cases hd : a.distribution with
  | block =>
    obtain ⟨pieces, hpieces, hget⟩ := blockGetPieces_right h hd hr hn hfit hbuf
    obtain ⟨buf', hfold, hright⟩ := hget pieces (List.Perm.refl pieces)
    obtain ⟨bufAm, hfoldAm, hrightAm⟩ := hget _ (env.sched.perm pieces)
    have hblockGet : a.blockGet r index buf = some buf' := by
      simp only [blockGet, hbuf, hpieces, Option.bind_eq_bind, Option.bind_some, hfold]
    have hblockGetAm : a.blockGetAm env.sched r index buf = some bufAm := by
      simp only [blockGetAm, hbuf, hpieces, Option.bind_eq_bind, Option.bind_some, hfoldAm]
    cases path with
    | getUnchecked => exact ⟨buf', by simp only [read, hd, hblockGet], hright⟩
    | blockingGet => exact ⟨buf', by simp only [read, hd, hblockGet], hright⟩
    | get =>
      simp only [read, hd]
      split
      · exact ⟨bufAm, hblockGetAm, hrightAm⟩
      · exact initSmallGet_block h hd hr hn hfit hbuf
  | cyclic =>
    cases path with
    | getUnchecked =>
      have hoff : a.offset = 0 := by
        by_contra hne
        exact hpath ⟨rfl, hd, hne⟩
      simp only [read, hd, hoff, Nat.zero_add]
      exact cyclicGetUnchecked_right h hr hfit hbuf
    | blockingGet =>
      simp only [read, hd]
      exact cyclicBlockingGet_right h hr hfit hbuf
    | get =>
      simp only [read, hd]
      split
      · exact cyclicGetAm_right h hr hfit hbuf
      · exact initSmallGet_cyclic h hd hr hn hfit hbuf

/-- With a nonzero offset, `get_unchecked` on a cyclic view reads its first element from a
slot that is not the slot of that element. -/
theorem read_wrong (env : Env T) (buf : List T) {x y : T} (hxy : x ≠ y) (h : a.WellFormed len)
    (hn : 0 < n) (hfit : index + n ≤ a.size) (hbuf : buf.length = n)
    (hd : a.distribution = .cyclic) (hoff : a.offset ≠ 0) :
    ∃ r : MemoryRegion T, r.perPe = perPeSize len a.numPes ∧ ∃ buf',
      a.read env .getUnchecked r index buf = some buf' ∧ buf'[0]? ≠ a.element r index := by
  let r : MemoryRegion T :=
    ⟨perPeSize len a.numPes, fun p s => if (p, s) = home .cyclic len a.numPes index then x else y⟩
  obtain ⟨buf', hread, _, hright⟩ := cyclicGetUnchecked_right (r := r) h rfl hfit hbuf
  refine ⟨r, rfl, buf', by simp only [read, hd, hread], ?_⟩
  have hzero : buf'[0]? = some x := by
    rw [hright 0 hn]
    simp [r, MemoryRegion.valueAt]
  have helement : a.element r index = some y := by
    have hne : home .cyclic len a.numPes (a.offset + index) ≠ home .cyclic len a.numPes index := by
      intro heq
      have := home_injective h.pos h.le heq
      omega
    rw [show index = index + 0 from rfl, element_eq_valueAt h (by omega), hd]
    simp [r, MemoryRegion.valueAt, hne]
  rw [hzero, helement]
  simpa using hxy

end UnsafeArrayInner

open UnsafeArrayInner

/-- A read of `n` elements from `index` of a view on fills the buffer with these elements,
whatever the memory and the buffer hold before, exactly when it is not a `get_unchecked` on
a cyclic view that begins after index zero of the full array. -/
theorem read_exact_iff [Nontrivial T] (env : Env T) (path : ReadPath)
    (myPe numPes len : ℕ) (d : Distribution) (offset size index n : ℕ) (hP : 1 ≤ numPes)
    (hN : numPes ≤ len) (hfit : offset + size ≤ len) (hn : 1 ≤ n) (hrange : index + n ≤ size) :
    (∀ (r : MemoryRegion T) (buf : List T), r.perPe = perPeSize len numPes → buf.length = n →
      ∃ buf', (view myPe numPes len d offset size).read env path r index buf = some buf' ∧
        buf'.length = n ∧
        ∀ k < n, buf'[k]? = (view myPe numPes len d offset size).element r (index + k) ∧
          buf'[k]?.isSome) ↔
      ¬ (path = .getUnchecked ∧ d = .cyclic ∧ offset ≠ 0) := by
  have h : (view myPe numPes len d offset size).WellFormed len := view_wellFormed hP hN hfit
  constructor
  · rintro hread ⟨rfl, rfl, hoff⟩
    obtain ⟨x, y, hxy⟩ := exists_pair_ne T
    obtain ⟨r, hr, buf', hwrong, hne⟩ := read_wrong env (List.replicate n x) hxy h hn
      hrange List.length_replicate rfl hoff
    obtain ⟨buf'', hbuf'', _, hright⟩ := hread r _ hr List.length_replicate
    rw [hwrong] at hbuf''
    cases hbuf''
    exact hne (hright 0 hn).1
  · intro hpath r buf hr hbuf
    obtain ⟨buf', hread, hlen, hright⟩ := read_right env h hr hn hrange hbuf hpath
    refine ⟨buf', hread, hlen, ?_⟩
    intro k hk
    rw [element_eq_valueAt h (show index + k < size by omega), hright k hk]
    exact ⟨rfl, rfl⟩

/-- Two PEs hold the numbers `0, 1, 2, 3` in turn, and the view is `[1, 4)`. -/
theorem read_exact_iff_two_pes :
    ∃ buf', (view 0 2 4 .cyclic 1 3).read ⟨8, fun _ _ => 0, .inOrder⟩ .get
        ⟨2, fun p s => 2 * s + p⟩ 0 [9, 9] = some buf' ∧ buf'.length = 2 ∧
      ∀ k < 2, buf'[k]? = (view 0 2 4 .cyclic 1 3).element ⟨2, fun p s => 2 * s + p⟩ (0 + k) ∧
        buf'[k]?.isSome :=
  (read_exact_iff ⟨8, fun _ _ => 0, .inOrder⟩ .get 0 2 4 .cyclic 1 3 0 2 (by decide) (by decide)
    (by decide) (by decide) (by decide)).mpr (by decide) ⟨2, fun p s => 2 * s + p⟩ [9, 9]
    (by decide +kernel) rfl

/-- There, `get_unchecked` of the first element of the view returns `0`, not `1`. -/
theorem getUnchecked_cyclic_misses_offset :
    ¬ ∃ buf', (view 0 2 4 .cyclic 1 3).read ⟨8, fun _ _ => 0, .inOrder⟩ .getUnchecked
        ⟨2, fun p s => 2 * s + p⟩ 0 [9] = some buf' ∧ buf'.length = 1 ∧
      ∀ k < 1, buf'[k]? = (view 0 2 4 .cyclic 1 3).element ⟨2, fun p s => 2 * s + p⟩ (0 + k) := by
  rintro ⟨buf', hread, _, hright⟩
  have hzero : (view 0 2 4 .cyclic 1 3).read ⟨8, fun _ _ => 0, .inOrder⟩ .getUnchecked
      ⟨2, fun p s => 2 * s + p⟩ 0 [9] = some [0] := by decide +kernel
  have hone : (view 0 2 4 .cyclic 1 3).element ⟨2, fun p s => 2 * s + p⟩ (0 + 0) = some 1 := by
    decide +kernel
  rw [hzero] at hread
  cases hread
  have := hright 0 (by decide)
  rw [hone] at this
  exact absurd this (by decide)

end Lamellar.Array
