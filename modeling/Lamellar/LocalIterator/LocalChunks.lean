import Lamellar.Lib.Word
import Lamellar.LocalIterator.Chains

/-!
# Chunks of the local data: `src/array/unsafe/local_chunks.rs`

`local_chunks` shares out the elements on the calling PE as slices of `chunk_size` elements. Its
positions are chunks, its indices are elements; the last chunk is cut off at the end of the
data. It obeys the laws of a chain (`LocalChunks.laws`), so that adaptors can stand on it.

With a `chunk_size` of 0 `elems` divides by zero; there is no such iterator here.
-/

namespace Lamellar.LocalIterator

open Lamellar.Array Lamellar.Draining Lamellar.StandardIter

variable {T : Type}

/-- The fields of both iterators; the elements `[index, end_index)` are to come. -/
structure LocalChunks (T : Type) where
  chunkSize : ℕ
  chunkSize_pos : 0 < chunkSize
  index : ℕ
  endIndex : ℕ
  array : UnsafeArrayInner
  mem : MemoryRegion T

/-- `slice::from_raw_parts_mut` at the element `start` of the local data -/
def localPart (a : UnsafeArrayInner) (r : MemoryRegion T) (start len : ℕ) : List T :=
  (List.range len).map fun j => r.cell a.myPe (a.localAsMutPtr + (start + j))

/-- The code of `UnsafeLocalChunks` and of `UnsafeLocalChunksMut` -/
instance : IndexedLocalIterator (LocalChunks T) (List T) where
  init it startI cnt :=
    let endI := min ((startI + cnt) * it.chunkSize) it.array.numElemsLocal
    { it with index := startI * it.chunkSize, endIndex := endI }
  next it :=
    if it.index < it.endIndex then
      let startI := it.index
      let index := it.index + it.chunkSize
      let endI := min index it.endIndex
      (some (localPart it.array it.mem startI (endI - startI)), { it with index })
    else (none, it)
  elems it inElems :=
    some (inElems / it.chunkSize + if inElems % it.chunkSize ≠ 0 then 1 else 0)
  advanceIndex it count := { it with index := min (it.index + count * it.chunkSize) it.endIndex }
  size it := it.endIndex - it.index
  len it := it.array.size
  iteratorIndex it index :=
    if index * it.chunkSize < it.array.size then some index else none
  initFits it startI cnt :=
    decide (startI + cnt < word) && decide ((startI + cnt) * it.chunkSize < word)
  nextFits it := decide (it.endIndex ≤ it.index) || decide (it.index + it.chunkSize < word)
  advanceFits it count := decide (it.index + count * it.chunkSize < word)
  indexFits it index := decide (index * it.chunkSize < word)

/-- Hands out `&[T]` -/
abbrev UnsafeLocalChunks (T : Type) : Type := LocalChunks T

/-- Hands out `&mut [T]` -/
abbrev UnsafeLocalChunksMut (T : Type) : Type := LocalChunks T

def localChunks (array : UnsafeArrayInner) (mem : MemoryRegion T) {chunkSize : ℕ}
    (chunkSize_pos : 0 < chunkSize) : UnsafeLocalChunks T :=
  { chunkSize, chunkSize_pos, index := 0, endIndex := 0, array, mem }

def localChunksMut (array : UnsafeArrayInner) (mem : MemoryRegion T) {chunkSize : ℕ}
    (chunkSize_pos : 0 < chunkSize) : UnsafeLocalChunksMut T :=
  { chunkSize, chunkSize_pos, index := 0, endIndex := 0, array, mem }

theorem localPart_eq {a : UnsafeArrayInner} (r : MemoryRegion T) {start len : ℕ}
    (h : start + len ≤ a.numElemsLocal) :
    localPart a r start len = ((localSlice a r).drop start).take len := by
  apply List.ext_getElem
  · rw [localPart, List.length_map, List.length_range, List.length_take, List.length_drop,
      length_localSlice]
    omega
  · intro j hj hj'
    simp only [localPart, localSlice, List.getElem_map, List.getElem_range, List.getElem_take,
      List.getElem_drop]

theorem LocalChunks.next_of_lt {st : LocalChunks T} (h : st.index < st.endIndex) :
    next st = (some (localPart st.array st.mem st.index
      (min (st.index + st.chunkSize) st.endIndex - st.index)),
      { st with index := st.index + st.chunkSize }) := if_pos h

theorem LocalChunks.next_of_le {st : LocalChunks T} (h : st.endIndex ≤ st.index) :
    next st = (none, st) := if_neg (Nat.not_lt.mpr h)

/-- The next chunk is `p`, and the chunks from `e` on are not part of the range. An index past the
end stands for any position there. -/
structure LocalChunks.Ready (a : UnsafeArrayInner) (r : MemoryRegion T) (c : ℕ)
    (st : LocalChunks T) (p e : ℕ) : Prop where
  chunkSize : st.chunkSize = c
  array : st.array = a
  mem : st.mem = r
  le : p ≤ e
  endIndex : st.endIndex = min (e * c) a.numElemsLocal
  index : min st.index st.endIndex = min (p * c) st.endIndex

namespace LocalChunks

variable {a : UnsafeArrayInner} {r : MemoryRegion T} {c : ℕ} {st : LocalChunks T} {p e : ℕ}

theorem restarts : Restarts (LocalChunks T) where
  init_init _ _ _ _ _ := rfl
  init_next st start cnt := by
    simp only [next]
    split <;> rfl
  init_advance _ _ _ _ := rfl
  size_next st x st' h := by
    have hpos := st.chunkSize_pos
    simp only [next] at h
    split at h
    · cases h
      simp only [size]
      omega
    · cases h
  size_advance st t := by
    simp only [size, advanceIndex]
    omega

theorem ready_init (hc : 0 < c) (start cnt : ℕ) :
    Ready a r c (init (localChunks a r hc) start cnt) start (start + cnt) where
  chunkSize := rfl
  array := rfl
  mem := rfl
  le := Nat.le_add_right _ _
  endIndex := rfl
  index := rfl

theorem length_chunks_localSlice (a : UnsafeArrayInner) (r : MemoryRegion T) (c : ℕ) :
    (chunks c (localSlice a r)).length = steps c a.numElemsLocal := by
  rw [length_chunks, length_localSlice]

/-- Inside the range and the data, the index is where the chunk begins. -/
theorem Ready.index_eq (h : Ready a r c st p e) (hlt : p < e)
    (hp : p < steps c a.numElemsLocal) : st.index = p * c ∧ st.index < st.endIndex := by
  have hc : 0 < c := h.chunkSize ▸ st.chunkSize_pos
  have hindex := h.index
  have hend := h.endIndex
  have hdata := (lt_steps_iff hc p a.numElemsLocal).mp hp
  have hrange : p * c < e * c := Nat.mul_lt_mul_of_pos_right hlt hc
  omega

theorem Ready.next_some (h : Ready a r c st p e) (hlt : p < e)
    (hp : p < (chunks c (localSlice a r)).length) :
    ∃ x st', (chunks c (localSlice a r))[p]? = some x ∧ next st = (some x, st') ∧
      Ready a r c st' (p + 1) e := by
  rw [length_chunks_localSlice] at hp
  obtain ⟨hindex, hinside⟩ := h.index_eq hlt hp
  have hmul : (p + 1) * c = p * c + c := Nat.succ_mul p c
  have hrange : (p + 1) * c ≤ e * c := Nat.mul_le_mul_right c hlt
  have hend := h.endIndex
  have hchunkSize := h.chunkSize
  obtain rfl := h.array
  obtain rfl := h.mem
  refine ⟨_, { st with index := st.index + st.chunkSize }, ?_, next_of_lt hinside, ?_⟩
  · rw [getElem?_chunks (by rwa [length_localSlice]), localPart_eq st.mem (by omega), hindex,
      Option.some.injEq, List.take_eq_take_iff, List.length_drop, length_localSlice]
    omega
  · refine { h with le := hlt, index := ?_ }
    simp only [hindex, hmul, hchunkSize]

theorem Ready.next_none (h : Ready a r c st p e)
    (hp : p = e ∨ (chunks c (localSlice a r)).length ≤ p) : (next st).1 = none := by
  have hc : 0 < c := h.chunkSize ▸ st.chunkSize_pos
  rw [length_chunks_localSlice] at hp
  have hindex := h.index
  have hend := h.endIndex
  have hle : st.endIndex ≤ p * c := by
    rcases hp with rfl | hp
    · omega
    · have hdata := (lt_steps_iff hc p a.numElemsLocal).not.mp (Nat.not_lt.mpr hp)
      omega
  rw [next_of_le (by omega)]

/-- The state after `advance_index`, which does not go past the end. -/
theorem Ready.advance (h : Ready a r c st p e) (t : ℕ) :
    Ready a r c (advanceIndex st t) (min (p + t) e) e where
  chunkSize := h.chunkSize
  array := h.array
  mem := h.mem
  le := Nat.min_le_right _ _
  endIndex := h.endIndex
  index := by
    have hindex := h.index
    have hend := h.endIndex
    have hchunkSize := h.chunkSize
    have hadd : (p + t) * c = p * c + t * c := Nat.add_mul p t c
    simp only [advanceIndex, hchunkSize]
    rcases Nat.le_total (p + t) e with hle | hle
    · rw [Nat.min_eq_left hle]
      omega
    · have hmul : e * c ≤ (p + t) * c := Nat.mul_le_mul_right c hle
      rw [Nat.min_eq_right hle]
      omega

theorem elems_eq (hc : 0 < c) :
    elems (localChunks a r hc) a.numElemsLocal = some (chunks c (localSlice a r)).length := by
  rw [length_chunks_localSlice, steps_eq hc]
  simp only [elems, localChunks]
  by_cases hrest : a.numElemsLocal % c = 0
  · simp [hrest]
  · simp [hrest, Nat.pos_of_ne_zero hrest, Nat.add_comm]

/-- A range of chunks, past the last one too -/
theorem drains (hc : 0 < c) (start cnt : ℕ) :
    Drains next size (init (localChunks a r hc) start cnt)
      (((chunks c (localSlice a r)).drop start).take cnt) :=
  @drains_ready (LocalChunks T) (List T) next size (chunks c (localSlice a r)) (Ready a r c)
    (fun _ _ _ h => h.le) (fun _ _ _ h => h.next_some) (fun _ _ h => h.next_none (.inl rfl))
    restarts.size_next _ _ _ _ (Nat.add_sub_cancel_left start cnt) (ready_init hc start cnt)
    (.inl fun _ _ h hp => h.next_none (.inr hp))

/-- The iterator is a chain over the local elements, on which adaptors may stand. -/
theorem laws (hc : 0 < c) (hlen : a.numElemsLocal ≤ a.size) (hsize : a.size ≤ 2 ^ 63) :
    Laws a.numElemsLocal (localChunks a r hc) (chunks c (localSlice a r)) True True
      (Ready a r c) where
  restarts := restarts
  length_le := by
    have hle := steps_le hc a.numElemsLocal
    rw [length_chunks_localSlice]
    omega
  elems := elems_eq hc
  init start cnt _ := ready_init hc start cnt
  le h := h.le
  next_some h := h.next_some
  next_none h := h.next_none (.inl rfl)
  next_past _ h hp := h.next_none (.inr hp)
  index h _ _ hk := by
    rw [length_chunks_localSlice, lt_steps_iff hc] at hk
    simp only [iteratorIndex, h.chunkSize, h.array]
    rw [if_pos (by omega)]
  index_next st := by
    simp only [next]
    split <;> rfl
  index_advance _ _ := rfl
  advance t _ h := h.advance t
  advance_zero h := by
    have hzero := h.advance 0
    rwa [Nat.add_zero, Nat.min_eq_left h.le] at hzero
  advance_end t h := by
    have hend := h.advance t
    rwa [Nat.min_eq_right (Nat.le_add_right _ _)] at hend

/-- The products of `init` are words, as far as the data is no longer than half the words. -/
theorem range_lt_word (hc : 0 < c) (hword : c < word) (hdata : 2 * a.numElemsLocal ≤ word)
    {parts : List ℕ} (hparts : elems (localChunks a r hc) a.numElemsLocal = some parts.sum)
    {rng : ℕ × ℕ} (hrng : rng ∈ rangesFrom 0 parts) : (rng.1 + rng.2) * c < word := by
  rw [elems_eq hc, length_chunks_localSlice, Option.some.injEq] at hparts
  have hle : (rng.1 + rng.2) * c ≤ steps c a.numElemsLocal * c := by
    apply Nat.mul_le_mul_right
    have hrange := rangesFrom_le hrng
    omega
  have hsteps : steps c a.numElemsLocal * c ≤ a.numElemsLocal + c - 1 := Nat.div_mul_le_self _ _
  rcases Nat.lt_or_ge c a.numElemsLocal with hlt | hge
  · omega
  · -- one chunk at most
    have hone : steps c a.numElemsLocal ≤ 1 := by
      by_contra hmore
      have hmul := (lt_steps_iff hc 1 a.numElemsLocal).mp (by omega)
      omega
    have hmul := Nat.mul_le_mul_right c hone
    omega

/-- The ranges that the chunks are shared out in compute in the range of their types. -/
theorem range_fits (hc : 0 < c) (hword : c < word) (hdata : 2 * a.numElemsLocal ≤ word)
    {parts : List ℕ} (hparts : elems (localChunks a r hc) a.numElemsLocal = some parts.sum)
    {rng : ℕ × ℕ} (hrng : rng ∈ rangesFrom 0 parts) :
    rangeFits (localChunks a r hc) rng.1 rng.2 := by
  have hlt := range_lt_word hc hword hdata hparts hrng
  have hle := Nat.le_mul_of_pos_right (rng.1 + rng.2) hc
  rw [rangeFits, Bool.and_eq_true]
  constructor
  · simp only [initFits, Bool.and_eq_true, decide_eq_true_eq]
    exact ⟨by omega, hlt⟩
  · refine along_of_invariant (fun st : LocalChunks T => st.chunkSize = c ∧
      st.endIndex ≤ a.numElemsLocal ∧ (st.index < st.endIndex → st.index + c < word))
      (fun st hst => ?_) (fun st x st' hst hnext => ?_) _ ⟨rfl, Nat.min_le_right _ _, fun hin => ?_⟩
    · obtain ⟨rfl, _, hindex⟩ := hst
      simp only [nextFits, Bool.or_eq_true, decide_eq_true_eq]
      by_cases hin : st.index < st.endIndex
      · exact Or.inr (hindex hin)
      · exact Or.inl (Nat.not_lt.mp hin)
    · obtain ⟨rfl, hend, hindex⟩ := hst
      simp only [next] at hnext
      split at hnext
      · cases hnext
        exact ⟨rfl, hend, fun hin => by dsimp only at hin ⊢; omega⟩
      · cases hnext
    · simp only [init, localChunks] at hin ⊢
      -- the range is not empty
      have hcnt : rng.1 + 1 ≤ rng.1 + rng.2 := by
        by_contra hzero
        rw [show rng.2 = 0 by omega, Nat.add_zero] at hin
        omega
      have hmul := Nat.mul_le_mul_right c hcnt
      rw [Nat.succ_mul] at hmul
      omega

theorem chunks_partition (a : UnsafeArrayInner) (r : MemoryRegion T) (hc : 0 < c) :
    ∃ m, elems (localChunks a r hc) a.numElemsLocal = some m ∧
      ∀ parts : List ℕ, parts.sum = m → ∃ out : List (List T),
        Exact (localChunks a r hc) parts out ∧ out.flatten = localSlice a r ∧
          (∀ chunk ∈ out, chunk.length ≤ c) ∧
          ∀ k chunk, k + 1 < out.length → out[k]? = some chunk → chunk.length = c := by
  refine ⟨_, elems_eq hc, fun parts hparts => ⟨chunks c (localSlice a r), ?_,
    flatten_chunks hc _, fun _ => length_chunk_le, fun _ _ => length_chunk_eq hc⟩⟩
  refine ⟨fun rng => ((chunks c (localSlice a r)).drop rng.1).take rng.2,
    fun rng _ => drains hc rng.1 rng.2, ?_⟩
  rw [flatMap_rangesFrom_take, hparts, List.drop_zero, List.take_length]

/-- Seven elements on one PE, in chunks of three -/
theorem chunks_partition_seven :
    0 < 3 ∧ ∃ m, elems (localChunks (view 0 1 7 .cyclic 0 7) ⟨7, fun _ i => i⟩
        (show 0 < 3 by decide)) (view 0 1 7 .cyclic 0 7).numElemsLocal = some m ∧
      ∀ parts : List ℕ, parts.sum = m → ∃ out : List (List ℕ),
        Exact (localChunks (view 0 1 7 .cyclic 0 7) ⟨7, fun _ i => i⟩
          (show 0 < 3 by decide)) parts out ∧
          out.flatten = localSlice (view 0 1 7 .cyclic 0 7) ⟨7, fun _ i => i⟩ ∧
          (∀ chunk ∈ out, chunk.length ≤ 3) ∧
          ∀ k chunk, k + 1 < out.length → out[k]? = some chunk → chunk.length = 3 :=
  ⟨by decide, chunks_partition _ _ (by decide)⟩

end LocalChunks

end Lamellar.LocalIterator
