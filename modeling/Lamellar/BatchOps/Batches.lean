import Lamellar.BatchOps.IndexSize
import Mathlib.Logic.Function.Basic

/-!
# The messages of a batch

A task of `multi_val_multi_index` or `one_val_multi_indices` finds the PE and the local index of
each of its indices, appends the entry to the buffer of this PE and sends a buffer that has
become long enough; what is left is sent at the end. Whatever the length is, the messages to a
PE together hold the entries for this PE, in order (`exec_multiValMultiIndex`,
`exec_oneValMultiIndices`).
-/

namespace Lamellar.BatchOps

open Lamellar.Array

variable {T α : Type}

/-- The buffers of the PEs, and the buffers sent so far -/
structure Buffs where
  buffs : ℕ → List UInt8
  sent : List (ℕ × List UInt8)

namespace Buffs

def new : Buffs := ⟨fun _ => [], []⟩

/-- An entry for `pe`; a buffer of at least `perBatch` bytes is sent. -/
def push (perBatch : ℕ) (st : Buffs) (pe : ℕ) (bytes : List UInt8) : Buffs :=
  let buff := st.buffs pe ++ bytes
  if perBatch ≤ buff.length then
    { buffs := Function.update st.buffs pe [], sent := st.sent ++ [(pe, buff)] }
  else { st with buffs := Function.update st.buffs pe buff }

/-- The buffers that are left are sent, PE after PE. -/
def finish (st : Buffs) (numPes : ℕ) : List (ℕ × List UInt8) :=
  st.sent ++ (List.range numPes).filterMap fun pe =>
    if 0 < (st.buffs pe).length then some (pe, st.buffs pe) else none

end Buffs

/-- The buffers of a task, in the order in which they are sent -/
def batches (perBatch numPes : ℕ) (entries : List (ℕ × List UInt8)) : List (ℕ × List UInt8) :=
  (entries.foldl (fun (st : Buffs) x => st.push perBatch x.1 x.2) Buffs.new).finish numPes

/-- What is for a PE -/
def sentTo {β : Type} (pe : ℕ) (xs : List (ℕ × β)) : List β :=
  xs.filterMap fun x => if x.1 = pe then some x.2 else none

theorem sentTo_append {β : Type} (pe : ℕ) (xs ys : List (ℕ × β)) :
    sentTo pe (xs ++ ys) = sentTo pe xs ++ sentTo pe ys := List.filterMap_append

theorem sentTo_cons {β : Type} (pe : ℕ) (x : ℕ × β) (xs : List (ℕ × β)) :
    sentTo pe (x :: xs) = (if x.1 = pe then [x.2] else []) ++ sentTo pe xs := by
  by_cases hpe : x.1 = pe <;> simp [sentTo, hpe]

theorem sentTo_map {β γ : Type} (pe : ℕ) (f : β → γ) (xs : List (ℕ × β)) :
    sentTo pe (xs.map fun x => (x.1, f x.2)) = (sentTo pe xs).map f := by
  rw [sentTo, sentTo, List.filterMap_map, List.map_filterMap]
  congr 1
  funext x
  by_cases hpe : x.1 = pe <;> simp [hpe]

/-- The buffers sent to a PE, and the one that is left, are slices of its entries so far. -/
def Buffs.Holds (A : MemLayout α) (st : Buffs) (pe : ℕ) (entries : List ((ℕ → UInt8) × α)) :
    Prop :=
  ∃ (parts : List (List ((ℕ → UInt8) × α))) (rest : List ((ℕ → UInt8) × α)),
    sentTo pe st.sent = parts.map A.slice ∧ st.buffs pe = A.slice rest ∧
      parts.flatten ++ rest = entries

theorem Buffs.Holds.push {A : MemLayout α} {st : Buffs} {pe : ℕ}
    {entries : List ((ℕ → UInt8) × α)} (h : st.Holds A pe entries) (perBatch pe' : ℕ)
    (x : (ℕ → UInt8) × α) :
    (st.push perBatch pe' (A.bytes x.1 x.2)).Holds A pe
      (entries ++ if pe' = pe then [x] else []) := by
  obtain ⟨parts, rest, hsent, hbuff, rfl⟩ := h
  by_cases hpe : pe' = pe
  · subst hpe
    have hslice : A.slice rest ++ A.bytes x.1 x.2 = A.slice (rest ++ [x]) := by
      rw [A.slice_append]
      simp [MemLayout.slice]
    simp only [if_true, Buffs.push, hbuff, hslice]
    split_ifs with hfull
    · refine ⟨parts ++ [rest ++ [x]], [], ?_, by simp [MemLayout.slice], by simp⟩
      rw [List.map_append, ← hsent]
      simp [sentTo]
    · exact ⟨parts, rest ++ [x], hsent, by simp, by simp⟩
  · simp only [if_neg hpe, List.append_nil, Buffs.push]
    split_ifs with hfull
    · refine ⟨parts, rest, ?_, ?_, rfl⟩
      · rw [← hsent]
        simp [sentTo, hpe]
      · rw [← hbuff]
        exact Function.update_of_ne (Ne.symm hpe) _ _
    · refine ⟨parts, rest, hsent, ?_, rfl⟩
      rw [← hbuff]
      exact Function.update_of_ne (Ne.symm hpe) _ _

/-- All entries of a task -/
theorem Buffs.Holds.foldl {A : MemLayout α} {pe : ℕ} (perBatch : ℕ)
    (xs : List (ℕ × (ℕ → UInt8) × α)) {st : Buffs} {entries : List ((ℕ → UInt8) × α)}
    (h : st.Holds A pe entries) :
    ((xs.map fun x => (x.1, A.bytes x.2.1 x.2.2)).foldl
      (fun (st : Buffs) x => st.push perBatch x.1 x.2) st).Holds A pe
        (entries ++ sentTo pe xs) := by
  induction xs generalizing st entries with
  | nil => rwa [show sentTo pe ([] : List (ℕ × (ℕ → UInt8) × α)) = [] from rfl, List.append_nil]
  | cons x xs ih =>
    have hrest := ih (h.push perBatch x.1 x.2)
    rwa [List.append_assoc, ← sentTo_cons] at hrest

/-- The last round sends one buffer to a PE, or none if it is empty. -/
theorem sentTo_left (st : Buffs) {pe numPes : ℕ} (hpe : pe < numPes) :
    sentTo pe ((List.range numPes).filterMap fun q =>
        if 0 < (st.buffs q).length then some (q, st.buffs q) else none) =
      if 0 < (st.buffs pe).length then [st.buffs pe] else [] := by
  have hnone {n : ℕ} (hn : n ≤ pe) : sentTo pe ((List.range n).filterMap fun q =>
      if 0 < (st.buffs q).length then some (q, st.buffs q) else none) = [] := by
    rw [sentTo, List.filterMap_filterMap, List.filterMap_eq_nil_iff]
    intro q hq
    have hne : q ≠ pe := by
      rw [List.mem_range] at hq
      omega
    split_ifs <;> simp [hne]
  induction numPes with
  | zero => exact absurd hpe (Nat.not_lt_zero _)
  | succ n ih =>
    rw [List.range_succ, List.filterMap_append, sentTo, List.filterMap_append]
    rcases Nat.lt_succ_iff_lt_or_eq.mp hpe with hlt | rfl
    · have hlast : n ≠ pe := by omega
      rw [show List.filterMap _ (List.filterMap _ (List.range n)) = _ from ih hlt]
      split_ifs <;> simp [hlast]
    · rw [show List.filterMap _ (List.filterMap _ (List.range pe)) = _ from hnone (Nat.le_refl _)]
      split_ifs with h <;> simp [h]

/-- The messages to a PE are slices of its entries, which together are all of them. -/
theorem sentTo_batches (A : MemLayout α) (hsize : 0 < A.size) (perBatch : ℕ) {numPes pe : ℕ}
    (hpe : pe < numPes) (xs : List (ℕ × (ℕ → UInt8) × α)) :
    ∃ parts : List (List ((ℕ → UInt8) × α)),
      sentTo pe (batches perBatch numPes (xs.map fun x => (x.1, A.bytes x.2.1 x.2.2))) =
        parts.map A.slice ∧ parts.flatten = sentTo pe xs := by
  have hnew : Buffs.new.Holds A pe [] := ⟨[], [], rfl, rfl, rfl⟩
  obtain ⟨parts, rest, hsent, hbuff, hall⟩ := hnew.foldl perBatch xs
  rw [List.nil_append] at hall
  rw [batches, Buffs.finish, sentTo_append, hsent, sentTo_left _ hpe, hbuff]
  split_ifs with hleft
  · exact ⟨parts ++ [rest], by rw [List.map_append]; rfl, by rw [← hall]; simp⟩
  · have hrest : rest = [] := by
      rw [A.length_slice] at hleft
      rcases Nat.eq_zero_of_not_pos hleft |> Nat.mul_eq_zero.mp with hzero | hzero
      · exact List.length_eq_zero_iff.mp hzero
      · omega
    exact ⟨parts, List.append_nil _, by rw [← hall, hrest, List.append_nil]⟩

/-! ## The tasks -/

section Tasks

variable {a : UnsafeArrayInner} {len size pe : ℕ} (s : IndexSize) (elem : MemLayout T)

/-- The PEs and local indices of the indices of a task; an index out of bounds panics. -/
def locate (a : UnsafeArrayInner) {β : Type} (idxs : List (ℕ × β)) : Option (List (ℕ × ℕ × β)) :=
  idxs.mapM fun x => (a.peAndOffsetForGlobalIndex x.1).map fun p => (p.1, p.2, x.2)

/-- A task of `multi_val_multi_index`; the value of an index comes with the padding that its
record gets. -/
def multiValMultiIndex (a : UnsafeArrayInner) (numPerBatch : ℕ)
    (idxVals : List (ℕ × (ℕ → UInt8) × T)) : Option (List (ℕ × MultiValMultiIdxAm)) := do
  let located ← locate a idxVals
  let bytesPerBatch := numPerBatch * (idxVal s.len s.len_pos elem).size
  let entries := located.map fun x => (x.1, idxValBytes s elem x.2.2.1 x.2.1 x.2.2.2)
  some ((batches bytesPerBatch a.numPes entries).map fun x => (x.1, ⟨x.2, s.len⟩))

/-- A task of `one_val_multi_indices`, which compares a number of bytes with the number of
entries. -/
def oneValMultiIndices (a : UnsafeArrayInner) (numPerBatch : ℕ) (pad : ℕ → UInt8) (val : T)
    (indices : List ℕ) : Option (List (ℕ × SingleValMultiIdxAm)) := do
  let located ← locate a (indices.map fun i => (i, ()))
  let entries := located.map fun x => (x.1, s.asBytes x.2.1)
  some ((batches numPerBatch a.numPes entries).map fun x => (x.1, ⟨elem.bytes pad val, x.2, s.len⟩))

variable {s elem}

/-- The indices of an array are located, below its largest number of elements on a PE. -/
theorem exists_locate {β : Type} (h : a.WellFormed len) (hsize : maxLocalSize a = some size)
    {idxs : List (ℕ × β)} (hin : ∀ x ∈ idxs, x.1 < a.size) :
    ∃ located, locate a idxs = some located ∧ ∀ x ∈ located, x.2.1 < size := by
  have hlocal (x : ℕ × β) (hx : x ∈ idxs) :
      ∃ p, a.peAndOffsetForGlobalIndex x.1 = some p ∧ p.2 < size := by
    obtain ⟨⟨pe, j⟩, -, hp⟩ := UnsafeArrayInner.peAndOffset_mapsTo h
      (Nat.zero_lt_of_lt (hin x hx)) (hin x hx)
    obtain ⟨size', hmax, hlt, -⟩ := localIndex_lt h hp
    rw [hsize] at hmax
    cases hmax
    exact ⟨_, hp, hlt⟩
  induction idxs with
  | nil => exact ⟨[], rfl, fun x hx => (nomatch hx)⟩
  | cons x idxs ih =>
    obtain ⟨p, hp, hlt⟩ := hlocal x List.mem_cons_self
    obtain ⟨located, hrest, hall⟩ := ih (fun y hy => hin y (List.mem_cons_of_mem _ hy))
      fun y hy => hlocal y (List.mem_cons_of_mem _ hy)
    refine ⟨(p.1, p.2, x.2) :: located, ?_, ?_⟩
    · rw [locate] at hrest ⊢
      rw [List.mapM_cons, hp, hrest]
      rfl
    · intro y hy
      rcases List.mem_cons.mp hy with rfl | hy
      · exact hlt
      · exact hall y hy

/-- The messages of a task to a PE, one for each part of its entries -/
theorem sentTo_messages {β M : Type} (A : MemLayout α) (hsize : 0 < A.size) (perBatch : ℕ)
    {numPes : ℕ} (hpe : pe < numPes) (mk : List UInt8 → M) (located : List (ℕ × β))
    (bytes : β → List UInt8) (record : β → (ℕ → UInt8) × α)
    (hbytes : ∀ x ∈ located, bytes x.2 = A.bytes (record x.2).1 (record x.2).2) :
    ∃ parts : List (List ((ℕ → UInt8) × α)),
      sentTo pe ((batches perBatch numPes (located.map fun x => (x.1, bytes x.2))).map
        fun x => (x.1, mk x.2)) = parts.map (fun part => mk (A.slice part)) ∧
      parts.flatten = (sentTo pe located).map record := by
  obtain ⟨parts, hparts, hflat⟩ := sentTo_batches A hsize perBatch hpe
    (located.map fun x => (x.1, record x.2))
  rw [sentTo_map] at hflat
  refine ⟨parts, ?_, hflat⟩
  have hentries : located.map (fun x => (x.1, bytes x.2)) =
      (located.map fun x => (x.1, record x.2)).map fun x => (x.1, A.bytes x.2.1 x.2.2) := by
    rw [List.map_map]
    apply List.map_congr_left
    intro x hx
    rw [hbytes x hx]
    rfl
  rw [sentTo_map, hentries, hparts, List.map_map]
  rfl

/-- What is for a PE is part of what is there for all. -/
theorem mem_of_mem_sentTo {β : Type} {x : β} {xs : List (ℕ × β)} (hx : x ∈ sentTo pe xs) :
    (pe, x) ∈ xs := by
  obtain ⟨y, hy, hsent⟩ := List.mem_filterMap.mp hx
  split_ifs at hsent with hpe
  cases hsent
  rwa [← hpe]

/-- The messages of a task of `multi_val_multi_index` to a PE, executed, give the local indices
and values for this PE in order, for any size of a batch. -/
theorem exec_multiValMultiIndex (h : a.WellFormed len) (hsize : maxLocalSize a = some size)
    (hword : size < 2 ^ 64) (numPerBatch : ℕ) {idxVals : List (ℕ × (ℕ → UInt8) × T)}
    (hin : ∀ x ∈ idxVals, x.1 < a.size) (hpe : pe < a.numPes) :
    ∃ located msgs, locate a idxVals = some located ∧
      multiValMultiIndex (.ofUsize size) elem a numPerBatch idxVals = some msgs ∧
      (sentTo pe msgs).flatMap (MultiValMultiIdxAm.exec elem) =
        (sentTo pe located).map fun x => (x.1, x.2.2) := by
  obtain ⟨located, hlocate, hlt⟩ := exists_locate h hsize hin
  refine ⟨located, _, hlocate, by rw [multiValMultiIndex, hlocate]; rfl, ?_⟩
  have hfit (x) (hx : x ∈ located) : x.2.1 < 256 ^ (IndexSize.ofUsize size).len :=
    Nat.lt_trans (hlt x hx) (IndexSize.le_ofUsize hword)
  generalize IndexSize.ofUsize size = s at hfit
  let A := idxVal s.len s.len_pos elem
  have hpos : 0 < A.size := MemLayout.reprC_size_pos _ elem s.len_pos
  obtain ⟨parts, hparts, hflat⟩ := sentTo_messages A hpos (numPerBatch * A.size) hpe
    (fun bs => MultiValMultiIdxAm.mk bs s.len) located
    (fun x => idxValBytes s elem x.2.1 x.1 x.2.2)
    (fun x => (x.2.1, BitVec.ofNat (8 * s.len) x.1, x.2.2)) fun x _ => rfl
  rw [hparts, List.flatMap_map]
  have hexec (part : List ((ℕ → UInt8) × BitVec (8 * s.len) × T)) :
      MultiValMultiIdxAm.exec elem ⟨A.slice part, s.len⟩ =
        part.map fun x => (x.2.1.toNat, x.2.2) := MultiValMultiIdxAm.exec_slice part
  simp only [hexec]
  rw [List.flatMap_def, ← List.map_flatten, hflat, List.map_map]
  apply List.map_congr_left
  intro x hx
  rw [Function.comp_apply, IndexSize.toNat_ofNat (hfit _ (mem_of_mem_sentTo hx))]

/-- The messages of a task of `one_val_multi_indices` to a PE each bring the value, and together
the local indices for this PE in order. -/
theorem exec_oneValMultiIndices (h : a.WellFormed len) (hsize : maxLocalSize a = some size)
    (hword : size < 2 ^ 64) (numPerBatch : ℕ) (pad : ℕ → UInt8) (val : T) {indices : List ℕ}
    (hin : ∀ i ∈ indices, i < a.size) (hpe : pe < a.numPes) :
    ∃ located msgs, locate a (indices.map fun i => (i, ())) = some located ∧
      oneValMultiIndices (.ofUsize size) elem a numPerBatch pad val indices = some msgs ∧
      (∀ am ∈ sentTo pe msgs, (SingleValMultiIdxAm.exec elem am).1 = val) ∧
      (sentTo pe msgs).flatMap (fun am => (SingleValMultiIdxAm.exec elem am).2) =
        (sentTo pe located).map Prod.fst := by
  have hin' : ∀ x ∈ indices.map fun i => (i, ()), x.1 < a.size := by
    intro x hx
    obtain ⟨i, hi, rfl⟩ := List.mem_map.mp hx
    exact hin i hi
  obtain ⟨located, hlocate, hlt⟩ := exists_locate h hsize hin'
  refine ⟨located, _, hlocate, by rw [oneValMultiIndices, hlocate]; rfl, ?_⟩
  have hfit (x) (hx : x ∈ located) : x.2.1 < 256 ^ (IndexSize.ofUsize size).len :=
    Nat.lt_trans (hlt x hx) (IndexSize.le_ofUsize hword)
  generalize IndexSize.ofUsize size = s at hfit
  let A := MemLayout.uint s.len s.len_pos
  obtain ⟨parts, hparts, hflat⟩ := sentTo_messages A s.len_pos numPerBatch hpe
    (fun bs => SingleValMultiIdxAm.mk (elem.bytes pad val) bs s.len) located
    (fun x => s.asBytes x.1) (fun x => (pad, BitVec.ofNat (8 * s.len) x.1))
    fun x hx => IndexSize.asBytes_eq (hfit x hx) pad
  have hexec (part : List ((ℕ → UInt8) × BitVec (8 * s.len))) :
      SingleValMultiIdxAm.exec elem ⟨elem.bytes pad val, A.slice part, s.len⟩ =
        (val, part.map fun x => x.2.toNat) := SingleValMultiIdxAm.exec_slice pad val part
  rw [hparts, List.flatMap_map]
  constructor
  · intro am ham
    obtain ⟨part, -, rfl⟩ := List.mem_map.mp ham
    rw [hexec]
  · simp only [hexec]
    rw [List.flatMap_def, ← List.map_flatten, hflat, List.map_map]
    apply List.map_congr_left
    intro x hx
    exact IndexSize.toNat_ofNat (hfit _ (mem_of_mem_sentTo hx))

end Tasks

end Lamellar.BatchOps
