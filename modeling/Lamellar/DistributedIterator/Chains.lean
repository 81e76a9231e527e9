import Lamellar.DistributedIterator.AdaptorLaws
import Lamellar.Lib.StandardIter

/-!
# Chains of distributed adaptors

`IndexedChain` and `Chain` list the iterators that `dist_iter` and the adaptors build, one
copy for each PE, together with the items that the standard adaptors make of the elements of
the view. Any chain runs on any consecutive ranges of the positions of each PE, and hands out
these items, each once, as long as no `skip` count is so large that its conversion to `isize` is
negative, or there is nothing to skip. The first count for which neither holds hands out items that
the standard adaptor drops (`dist_iter_exact`).
-/

namespace Lamellar.DistributedIterator

open Lamellar.Array Lamellar.Draining

variable {T I α β : Type}

/-- The iterators with an index that can be built on the view `a`: the copy of every PE, what
the standard adaptors give, the counts that are skipped, each with the number of items below, and
the window `[lower, upper)` of indices that is kept. -/
inductive IndexedChain (a : UnsafeArrayInner) (r : MemoryRegion T) : {I α : Type} →
    [IndexedDistributedIterator I α] → (ℕ → I) → List α → List (ℕ × ℕ) → ℕ → ℕ → Prop where
  | distIter : IndexedChain a r (fun pe => DistIter.new (a.onPe pe) r 0 0)
      ((List.range a.size).filterMap (a.element r)) [] 0 a.size
  | enumerate {I α : Type} [IndexedDistributedIterator I α] {it : ℕ → I} {items : List α}
      {skips : List (ℕ × ℕ)} {lower upper : ℕ} : IndexedChain a r it items skips lower upper →
      IndexedChain a r (fun pe => Enumerate.new (it pe) 0) (items.zipIdx.map Prod.swap) skips
        lower upper
  | skip {I α : Type} [IndexedDistributedIterator I α] {it : ℕ → I} {items : List α}
      {skips : List (ℕ × ℕ)} {lower upper : ℕ} (n : ℕ) :
      IndexedChain a r it items skips lower upper →
      IndexedChain a r (fun pe => Skip.new (it pe) n 0) (items.drop n)
        ((n, items.length) :: skips) (lower + n) upper
  | take {I α : Type} [IndexedDistributedIterator I α] {it : ℕ → I} {items : List α}
      {skips : List (ℕ × ℕ)} {lower upper : ℕ} (n : ℕ) :
      IndexedChain a r it items skips lower upper →
      IndexedChain a r (fun pe => Take.new (it pe) n 0) (items.take n) skips
        lower (min upper (lower + n))

/-- The iterators of `map`, `filter`, `filter_map`, `enumerate`, `skip` and `take` that can be
built on the view `a`. -/
inductive Chain (a : UnsafeArrayInner) (r : MemoryRegion T) : {I α : Type} →
    [DistributedIterator I α] → (ℕ → I) → List α → List (ℕ × ℕ) → Prop where
  | indexed {I α : Type} [IndexedDistributedIterator I α] {it : ℕ → I} {items : List α}
      {skips : List (ℕ × ℕ)} {lower upper : ℕ} : IndexedChain a r it items skips lower upper →
      Chain a r it items skips
  | map {I α β : Type} [DistributedIterator I α] {it : ℕ → I} {items : List α}
      {skips : List (ℕ × ℕ)} (f : α → β) : Chain a r it items skips →
      Chain a r (fun pe => Map.mk (it pe) f) (items.map f) skips
  | filter {I α : Type} [DistributedIterator I α] {it : ℕ → I} {items : List α}
      {skips : List (ℕ × ℕ)} (f : α → Bool) : Chain a r it items skips →
      Chain a r (fun pe => Filter.mk (it pe) f) (items.filter f) skips
  | filterMap {I α β : Type} [DistributedIterator I α] {it : ℕ → I} {items : List α}
      {skips : List (ℕ × ℕ)} (f : α → Option β) : Chain a r it items skips →
      Chain a r (fun pe => FilterMap.mk (it pe) f) (items.filterMap f) skips

/-- Every count that is skipped keeps its value as an `isize`, or there is nothing to skip. -/
def CountsFit (skips : List (ℕ × ℕ)) : Prop := ∀ x ∈ skips, x.1 < 2 ^ 63 ∨ x.2 = 0

instance : DecidablePred CountsFit := fun skips =>
  inferInstanceAs (Decidable (∀ x ∈ skips, x.1 < 2 ^ 63 ∨ x.2 = 0))

/-- On `numPes` PEs, PE `pe` runs the ranges of lengths `parts pe` one after the other, each to
its end, and all the items handed out together are `items`. -/
def Exact [DistributedIterator I α] (numPes : ℕ) (it : ℕ → I) (parts : ℕ → List ℕ)
    (items : List α) : Prop :=
  ∃ out : ℕ → ℕ × ℕ → List α,
    (∀ pe < numPes, ∀ rng ∈ rangesFrom 0 (parts pe),
      Drains next size (init (it pe) rng.1 rng.2) (out pe rng)) ∧
    ((List.range numPes).flatMap fun pe => (rangesFrom 0 (parts pe)).flatMap (out pe)).Perm items

/-- Every range computes with numbers in the range of their type: no build panics, and no number
wraps around. -/
def Fits [DistributedIterator I α] (numPes : ℕ) (it : ℕ → I) (parts : ℕ → List ℕ) : Prop :=
  ∀ pe < numPes, ∀ rng ∈ rangesFrom 0 (parts pe), rangeFits (it pe) rng.1 rng.2

instance [DistributedIterator I α] (numPes : ℕ) (it : ℕ → I) (parts : ℕ → List ℕ) :
    Decidable (Fits numPes it parts) :=
  inferInstanceAs (Decidable (∀ pe < numPes, ∀ rng ∈ rangesFrom 0 (parts pe),
    rangeFits (it pe) rng.1 rng.2 = true))

/-! ## The window of a chain -/

/-- `N` numbers the positions of `pe`. -/
structure Numbers (a : UnsafeArrayInner) (pe : ℕ) (N : Numbering) : Prop where
  count : N.count = a.numElemsPe pe
  size : N.size = a.size
  index (j : ℕ) : (a.onPe pe).subarrayIndexFromLocal j =
    if N.glob j < N.size then some (N.glob j) else none

theorem exists_numbers {a : UnsafeArrayInner} {len : ℕ} (h : a.WellFormed len) {pe : ℕ}
    (hpe : pe < a.numPes) : ∃ N : Numbering, N.stride = a.stride ∧ Numbers a pe N := by
  obtain ⟨first, hindex, hlt⟩ := UnsafeArrayInner.exists_first h hpe
  exact ⟨⟨first, a.stride, a.numElemsPe pe, a.size, UnsafeArrayInner.stride_pos h, hlt⟩, rfl, rfl,
    rfl, hindex⟩

/-- `items` are the values of the indices in `[lower, upper)`. -/
structure Values (lower upper : ℕ) (value : ℕ → Option α) (items : List α) : Prop where
  some (g : ℕ) : lower ≤ g → g < upper → ∃ x, value g = some x
  get (k : ℕ) : items[k]? = if lower + k < upper then value (lower + k) else none

theorem Values.enumerate {lower upper : ℕ} {value : ℕ → Option α} {items : List α}
    (h : Values lower upper value items) :
    Values lower upper (fun g => (value g).map fun x => (g - lower, x))
      (items.zipIdx.map Prod.swap) where
  some g hlow hup := by
    obtain ⟨x, hx⟩ := h.some g hlow hup
    exact ⟨(g - lower, x), by rw [hx, Option.map_some]⟩
  get k := by
    rw [List.getElem?_map, List.getElem?_zipIdx, h.get, Nat.add_sub_cancel_left, Nat.zero_add]
    split
    · cases value (lower + k) <;> rfl
    · rfl

theorem Values.skip {lower upper : ℕ} {value : ℕ → Option α} {items : List α}
    (h : Values lower upper value items) (n : ℕ) :
    Values (lower + n) upper value (items.drop n) where
  some g hlow hup := h.some g (by omega) hup
  get k := by
    rw [List.getElem?_drop, h.get, Nat.add_assoc]

theorem Values.take {lower upper : ℕ} {value : ℕ → Option α} {items : List α}
    (h : Values lower upper value items) (n : ℕ) :
    Values lower (min upper (lower + n)) value (items.take n) where
  some g hlow hup := h.some g hlow (by omega)
  get k := by
    rw [List.getElem?_take, h.get]
    by_cases hk : k < n
    · rw [if_pos hk]
      by_cases hup : lower + k < upper
      · rw [if_pos hup, if_pos (by omega)]
      · rw [if_neg hup, if_neg (by omega)]
    · rw [if_neg hk, if_neg (by omega)]

theorem Values.length {lower upper : ℕ} {value : ℕ → Option α} {items : List α}
    (h : Values lower upper value items) : items.length = upper - lower := by
  apply Nat.le_antisymm
  · by_contra hlt
    have hnone := h.get (upper - lower)
    rw [if_neg (by omega), List.getElem?_eq_none_iff] at hnone
    omega
  · by_contra hlt
    obtain ⟨x, hx⟩ := h.some (lower + items.length) (by omega) (by omega)
    have hsome := h.get items.length
    rw [if_pos (by omega), hx, List.getElem?_eq_none (Nat.le_refl _)] at hsome
    cases hsome

theorem Values.eq_filterMap {lower upper n : ℕ} {value : ℕ → Option α} {items : List α}
    (h : Values lower upper value items) (hn : upper - lower = n) :
    items = (List.range' lower n).filterMap value := by
  induction n generalizing lower items with
  | zero =>
    have hnone := h.get 0
    rw [if_neg (by omega)] at hnone
    exact List.eq_nil_of_length_eq_zero (Nat.le_zero.mp (List.getElem?_eq_none_iff.mp hnone))
  | succ n ih =>
    obtain ⟨x, hx⟩ := h.some lower (Nat.le_refl _) (by omega)
    have hfirst := h.get 0
    rw [if_pos (by omega), Nat.add_zero, hx] at hfirst
    cases items with
    | nil => cases hfirst
    | cons y items =>
      cases hfirst
      rw [List.range'_succ, List.filterMap_cons_some hx]
      congr 1
      refine ih ⟨fun g hlow hup => h.some g (by omega) hup, fun k => ?_⟩ (by omega)
      have hget := h.get (k + 1)
      rw [List.getElem?_cons_succ] at hget
      rw [hget, show lower + (k + 1) = lower + 1 + k by omega]

/-- The values, collected over any range of indices that contains the window. -/
theorem Values.collect {lower upper size : ℕ} {value : ℕ → Option α} {items : List α}
    (h : Values lower upper value items) (hle : upper ≤ size) :
    items = (List.range size).filterMap
      fun g => if lower ≤ g ∧ g < upper then value g else none := by
  by_cases hlt : lower < upper
  · rw [h.eq_filterMap rfl, List.range_eq_range',
      filterMap_range'_window (p := lower) (m := upper - lower) (by omega) (by omega)
        (fun g _ hg => if_neg (by omega)) (fun g hg _ => if_neg (by omega))]
    refine List.filterMap_congr ?_
    intro g hg
    have hin := List.mem_range'_1.mp hg
    rw [if_pos (by omega)]
  · rw [h.eq_filterMap (n := 0) (by omega), List.range_eq_range',
      filterMap_range'_eq_nil fun g _ _ => if_neg (by omega)]
    rfl

theorem values_of_some {n : ℕ} {f : ℕ → Option α} (h : ∀ k < n, ∃ x, f k = some x) :
    Values 0 n f ((List.range n).filterMap f) := by
  have hget := StandardIter.getElem?_filterMap_range h
  refine ⟨fun g _ hg => h g hg, fun k => ?_⟩
  rw [Nat.zero_add]
  by_cases hk : k < n
  · rw [if_pos hk, hget.2 k hk]
  · rw [if_neg hk, List.getElem?_eq_none (by omega)]

theorem values_element {a : UnsafeArrayInner} {len : ℕ} (h : a.WellFormed len)
    (r : MemoryRegion T) :
    Values 0 a.size (a.element r) ((List.range a.size).filterMap (a.element r)) := by
  refine values_of_some fun g hg => ?_
  simp only [UnsafeArrayInner.element, UnsafeArrayInner.physicalSlot_eq_home h hg,
    Option.bind_eq_bind, Option.bind_some]
  exact ⟨_, rfl⟩

/-! ## Every chain has the laws -/

section Chains

variable {a : UnsafeArrayInner} {r : MemoryRegion T} {len : ℕ} {N : ℕ → Numbering}

theorem DistIter.laws_new (h : a.WellFormed len) (r : MemoryRegion T) {pe : ℕ} {N : Numbering}
    (hpe : pe < a.numPes) (hN : Numbers a pe N) :
    Laws N (DistIter.new (a.onPe pe) r 0 0) 0 a.size (a.element r)
      ((DistIter.new (a.onPe pe) r 0 0).Ready N) := by
  have helement : ∀ j < N.count, a.element r (N.glob j) =
      some (r.cell (a.onPe pe).myPe ((a.onPe pe).localAsMutPtr + j)) := by
    intro j hj
    have hglob := N.glob_lt_size hj
    have hposition : j < a.numElemsPe pe := by
      rw [← hN.count]
      exact hj
    exact UnsafeArrayInner.element_of_local r h hpe hposition ((hN.index j).trans (if_pos hglob))
  have hlaws := DistIter.laws (DistIter.new (a.onPe pe) r 0 0) hN.count hN.size hN.index helement
  rw [hN.size] at hlaws
  exact hlaws

/-- The item of an index is made of the element with that index. -/
def ElementOf (a : UnsafeArrayInner) (r : MemoryRegion T) (value : ℕ → Option α) : Prop :=
  ∃ element : α → T, ∀ g x, value g = some x → a.element r g = some (element x)

theorem IndexedChain.laws [IndexedDistributedIterator I α] {it : ℕ → I} {items : List α}
    {skips : List (ℕ × ℕ)} {lower upper : ℕ} (h : a.WellFormed len) (hsize : a.size ≤ 2 ^ 63)
    (hN : ∀ pe < a.numPes, Numbers a pe (N pe))
    (hit : IndexedChain a r it items skips lower upper) (hskips : CountsFit skips) :
    ∃ value, upper ≤ a.size ∧ Values lower upper value items ∧ ElementOf a r value ∧
      ∀ pe < a.numPes, ∃ Ready, Laws (N pe) (it pe) lower upper value Ready := by
  induction hit with
  | distIter =>
    exact ⟨a.element r, Nat.le_refl _, values_element h r, ⟨id, fun _ _ hx => hx⟩,
      fun pe hpe => ⟨_, DistIter.laws_new h r hpe (hN pe hpe)⟩⟩
  | enumerate _ ih =>
    obtain ⟨value, hle, hvalues, ⟨element, helement⟩, hlaws⟩ := ih hskips
    refine ⟨_, hle, hvalues.enumerate, ⟨fun x => element x.2, ?_⟩, fun pe hpe => ?_⟩
    · intro g x hx
      obtain ⟨y, hy, rfl⟩ := Option.map_eq_some_iff.mp hx
      exact helement g y hy
    · obtain ⟨Ready, hready⟩ := hlaws pe hpe
      exact ⟨_, hready.enumerate 0⟩
  | skip n _ ih =>
    rw [CountsFit, List.forall_mem_cons] at hskips
    obtain ⟨value, hle, hvalues, helement, hlaws⟩ := ih hskips.2
    refine ⟨value, hle, hvalues.skip n, helement, fun pe hpe => ?_⟩
    obtain ⟨Ready, hready⟩ := hlaws pe hpe
    have hsizePe := (hN pe hpe).size
    have hlength := hvalues.length
    exact ⟨_, hready.skip (by omega) (hskips.1.imp_right (by omega)) 0⟩
  | take n _ ih =>
    obtain ⟨value, hle, hvalues, helement, hlaws⟩ := ih hskips
    refine ⟨value, Nat.le_trans (Nat.min_le_left _ _) hle, hvalues.take n, helement,
      fun pe hpe => ?_⟩
    obtain ⟨Ready, hready⟩ := hlaws pe hpe
    exact ⟨_, hready.take n 0⟩

theorem ite_none_bind (c : Prop) [Decidable c] (o : Option α) (f : α → Option β) :
    (if c then o else none).bind f = if c then o.bind f else none := by
  split <;> rfl

/-- Any chain hands out, for position `j` of a PE, what it makes of the index of `j`. -/
theorem Chain.drains [DistributedIterator I α] {it : ℕ → I} {items : List α}
    {skips : List (ℕ × ℕ)} (h : a.WellFormed len) (hsize : a.size ≤ 2 ^ 63)
    (hN : ∀ pe < a.numPes, Numbers a pe (N pe)) (hit : Chain a r it items skips)
    (hskips : CountsFit skips) :
    ∃ G : ℕ → Option α, items = (List.range a.size).filterMap G ∧
      ∀ pe < a.numPes, (∀ n, elems (it pe) n = n) ∧
        ∀ start cnt, Drains next size (init (it pe) start cnt) ((List.range' start cnt).filterMap
          fun j => if j < (N pe).count then G ((N pe).glob j) else none) := by
  induction hit with
  | @indexed _ _ _ _ _ _ lower upper hit =>
    obtain ⟨value, hle, hvalues, _, hlaws⟩ := hit.laws h hsize hN hskips
    refine ⟨_, hvalues.collect hle, fun pe hpe => ?_⟩
    obtain ⟨Ready, hready⟩ := hlaws pe hpe
    refine ⟨hready.elems, fun start cnt => ?_⟩
    have hdrains := hready.drains start cnt
    have hitem : itemAt (N pe) lower upper value = fun j => if j < (N pe).count then
        if lower ≤ (N pe).glob j ∧ (N pe).glob j < upper then value ((N pe).glob j) else none
        else none := by
      funext j
      unfold itemAt
      rw [ite_and]
    rw [hitem] at hdrains
    exact hdrains
  | @map _ _ _ _ it _ _ f _ ih =>
    obtain ⟨G, hitems, hrun⟩ := ih hskips
    refine ⟨fun g => (G g).map f, ?_, fun pe hpe => ⟨(hrun pe hpe).1, fun start cnt => ?_⟩⟩
    · rw [hitems, List.map_filterMap]
    · have hdrains : Drains next size (Map.mk (init (it pe) start cnt) f) _ :=
        Drains.map ((hrun pe hpe).2 start cnt) f (fun s => Map.mk s f) (fun _ => rfl)
          (fun _ => rfl)
      rw [List.map_filterMap] at hdrains
      simp only [apply_ite (Option.map f), Option.map_none] at hdrains
      exact hdrains
  | @filter _ _ _ it _ _ f _ ih =>
    obtain ⟨G, hitems, hrun⟩ := ih hskips
    refine ⟨fun g => (G g).bind fun x => if f x then some x else none, ?_,
      fun pe hpe => ⟨(hrun pe hpe).1, fun start cnt => ?_⟩⟩
    · rw [hitems, ← List.filterMap_eq_filter, List.filterMap_filterMap]
      rfl
    · have hdrains : Drains next size (Filter.mk (init (it pe) start cnt) f) _ :=
        Drains.filterMap ((hrun pe hpe).2 start cnt) (fun x => if f x then some x else none)
          (fun s => Filter.mk s f) (fun _ => rfl) (fun _ => rfl)
      rw [List.filterMap_filterMap] at hdrains
      simp only [ite_none_bind] at hdrains
      exact hdrains
  | @filterMap _ _ _ _ it _ _ f _ ih =>
    obtain ⟨G, hitems, hrun⟩ := ih hskips
    refine ⟨fun g => (G g).bind f, ?_, fun pe hpe => ⟨(hrun pe hpe).1, fun start cnt => ?_⟩⟩
    · rw [hitems, List.filterMap_filterMap]
    · have hdrains : Drains next size (FilterMap.mk (init (it pe) start cnt) f) _ :=
        Drains.filterMap ((hrun pe hpe).2 start cnt) f (fun s => FilterMap.mk s f)
          (fun _ => rfl) (fun _ => rfl)
      rw [List.filterMap_filterMap] at hdrains
      simp only [ite_none_bind] at hdrains
      exact hdrains

end Chains

/-- What depends on the index alone, collected over the positions of every PE. -/
theorem perm_positions {a : UnsafeArrayInner} {len : ℕ} (h : a.WellFormed len)
    {N : ℕ → Numbering} (hN : ∀ pe < a.numPes, Numbers a pe (N pe)) (G : ℕ → Option α)
    {n : ℕ → ℕ} (hn : ∀ pe < a.numPes, a.numElemsPe pe ≤ n pe) :
    ((List.range a.numPes).flatMap fun pe => (List.range (n pe)).filterMap
      fun j => if j < (N pe).count then G ((N pe).glob j) else none).Perm
        ((List.range a.size).filterMap G) := by
  have hpe (pe : ℕ) (hlt : pe < a.numPes) :
      ((List.range (n pe)).filterMap fun j =>
        if j < (N pe).count then G ((N pe).glob j) else none) =
      ((List.range (a.numElemsPe pe)).filterMap
        (a.onPe pe).subarrayIndexFromLocal).filterMap G := by
    have hcount := (hN pe hlt).count
    have hle := hn pe hlt
    rw [List.range_eq_range', filterMap_range'_window (p := 0) (m := a.numElemsPe pe)
      (Nat.le_refl _) (by omega) (fun j _ hj => absurd hj (Nat.not_lt_zero j))
      fun j hge _ => if_neg (by omega), ← List.range_eq_range', List.filterMap_filterMap]
    refine List.filterMap_congr fun j hj => ?_
    have hj := List.mem_range.mp hj
    rw [if_pos (by omega), (hN pe hlt).index, if_pos ((N pe).glob_lt_size (by omega))]
    rfl
  have hall : ((List.range a.numPes).flatMap fun pe => (List.range (n pe)).filterMap
      fun j => if j < (N pe).count then G ((N pe).glob j) else none) =
      ((List.range a.numPes).flatMap fun pe =>
        (List.range (a.numElemsPe pe)).filterMap
          (a.onPe pe).subarrayIndexFromLocal).filterMap G := by
    rw [List.filterMap_flatMap]
    exact List.flatMap_congr fun pe hlt => hpe pe (List.mem_range.mp hlt)
  rw [hall]
  exact (UnsafeArrayInner.localIndices_perm h).filterMap G

theorem choose_numbers {a : UnsafeArrayInner} {len : ℕ} (h : a.WellFormed len) :
    ∃ N : ℕ → Numbering, ∀ pe < a.numPes, Numbers a pe (N pe) := by
  have hN (pe : ℕ) : ∃ N : Numbering, pe < a.numPes → Numbers a pe N := by
    by_cases hpe : pe < a.numPes
    · obtain ⟨N, _, hN⟩ := exists_numbers h hpe
      exact ⟨N, fun _ => hN⟩
    · exact ⟨⟨0, 1, 0, 0, Nat.one_pos, fun j hj => absurd hj (Nat.not_lt_zero j)⟩,
        fun hlt => absurd hlt hpe⟩
  choose N hN using hN
  exact ⟨N, hN⟩

/-- Some PE has the element with index `g` in one of its ranges. -/
theorem exists_range {a : UnsafeArrayInner} {len : ℕ} (h : a.WellFormed len) {N : ℕ → Numbering}
    (hN : ∀ pe < a.numPes, Numbers a pe (N pe)) {parts : ℕ → List ℕ}
    (hparts : ∀ pe < a.numPes, (parts pe).sum = a.numElemsPe pe) {g : ℕ} (hg : g < a.size) :
    ∃ pe < a.numPes, ∃ rng ∈ rangesFrom 0 (parts pe), ∃ j, rng.1 ≤ j ∧ j < rng.1 + rng.2 ∧
      j < (N pe).count ∧ (N pe).glob j = g := by
  have hmem := (UnsafeArrayInner.localIndices_perm h).mem_iff.mpr (List.mem_range.mpr hg)
  obtain ⟨pe, hpe, hin⟩ := List.mem_flatMap.mp hmem
  obtain ⟨j, hj, hindex⟩ := List.mem_filterMap.mp hin
  rw [List.mem_range] at hpe hj
  have hcount := (hN pe hpe).count
  rw [(hN pe hpe).index, if_pos ((N pe).glob_lt_size (by omega))] at hindex
  have hsum := hparts pe hpe
  have hlast : j < 0 + (parts pe).sum := by omega
  obtain ⟨rng, hrng, hge, hlt⟩ := exists_mem_rangesFrom (Nat.zero_le j) hlast
  exact ⟨pe, hpe, rng, hrng, j, hge, hlt, by omega, Option.some.inj hindex⟩

/-- Every chain of `map`, `filter`, `filter_map`, `enumerate`, `skip` and `take` on a view, cut
into consecutive ranges in any way on each PE, hands out exactly the items of the standard
chain on the elements of the view, if its counts fit. -/
theorem Chain.exact {a : UnsafeArrayInner} {len : ℕ} (h : a.WellFormed len)
    {r : MemoryRegion T} [DistributedIterator I α] {it : ℕ → I} {items : List α}
    {skips : List (ℕ × ℕ)} (hit : Chain a r it items skips) (hsize : a.size ≤ 2 ^ 63)
    (hskips : CountsFit skips) {parts : ℕ → List ℕ}
    (hparts : ∀ pe < a.numPes, (parts pe).sum = elems (it pe) (a.numElemsPe pe)) :
    Exact a.numPes it parts items := by
  obtain ⟨N, hN⟩ := choose_numbers h
  obtain ⟨G, hitems, hrun⟩ := hit.drains h hsize hN hskips
  refine ⟨fun pe rng => (List.range' rng.1 rng.2).filterMap
    fun j => if j < (N pe).count then G ((N pe).glob j) else none,
    fun pe hpe rng _ => (hrun pe hpe).2 rng.1 rng.2, ?_⟩
  simp only [flatMap_rangesFrom]
  rw [hitems]
  simp only [← List.range_eq_range']
  refine perm_positions h hN G fun pe hpe => ?_
  rw [hparts pe hpe, (hrun pe hpe).1]

/-- Where all items of a chain are to be skipped with a count from `2 ^ 63` on, the first one is
handed out. -/
theorem IndexedChain.not_exact_skip {a : UnsafeArrayInner} {len : ℕ} (h : a.WellFormed len)
    {r : MemoryRegion T} [IndexedDistributedIterator I α] {it : ℕ → I} {items : List α}
    {skips : List (ℕ × ℕ)} {lower upper : ℕ} (hit : IndexedChain a r it items skips lower upper)
    (hsize : a.size ≤ 2 ^ 63) (hskips : CountsFit skips) {parts : ℕ → List ℕ}
    (hparts : ∀ pe < a.numPes, (parts pe).sum = elems (it pe) (a.numElemsPe pe)) {n : ℕ}
    (hword : n < 2 ^ 64) (hn : 2 ^ 63 ≤ n) (hitems : items ≠ [])
    (hfits : Fits a.numPes (fun pe => Skip.new (it pe) n 0) parts) :
    ¬ Exact a.numPes (fun pe => Skip.new (it pe) n 0) parts (items.drop n) := by
  rintro ⟨out, hout, hperm⟩
  obtain ⟨N, hN⟩ := choose_numbers h
  obtain ⟨value, hupper, hvalues, -, hlaws⟩ := hit.laws h hsize hN hskips
  have hlength := hvalues.length
  have hpos := List.length_pos_iff.mpr hitems
  rw [List.drop_eq_nil_of_le (by omega)] at hperm
  have hall (pe : ℕ) (hpe : pe < a.numPes) : (parts pe).sum = a.numElemsPe pe := by
    obtain ⟨Ready, hready⟩ := hlaws pe hpe
    rw [hparts pe hpe, hready.elems]
  obtain ⟨pe, hpe, rng, hrng, j, hge, hlt, hcount, hglob⟩ :=
    exists_range h hN hall (show lower < a.size by omega)
  obtain ⟨Ready, hready⟩ := hlaws pe hpe
  obtain ⟨x, hx⟩ := hready.skip_first hn hword hge hlt hcount hglob (by omega)
    (hfits pe hpe rng hrng)
  have hnil : out pe rng = [] := by
    have hnone := List.flatMap_eq_nil_iff.mp (List.Perm.eq_nil hperm) pe (List.mem_range.mpr hpe)
    exact List.flatMap_eq_nil_iff.mp hnone rng hrng
  have hdrains := (hout pe hpe rng hrng).fst_eq
  rw [hnil, List.head?_nil] at hdrains
  exact absurd (hx.symm.trans hdrains) (by simp)

/-- Every chain of `map`, `filter`, `filter_map`, `enumerate`, `skip` and `take` on a view of at
most `2 ^ 63` elements, cut into consecutive ranges in any way on each PE, hands out exactly the
items of the standard chain on the elements of the view, if its counts fit and the ranges compute
in the range of their types. No other count will do: put on a chain whose counts fit, `skip` is
right exactly if its own count does. -/
theorem dist_iter_exact {a : UnsafeArrayInner} {len : ℕ} (h : a.WellFormed len)
    (hsize : a.size ≤ 2 ^ 63) (r : MemoryRegion T) (parts : ℕ → List ℕ) :
    (∀ {I α : Type} [DistributedIterator I α] {it : ℕ → I} {items : List α}
      {skips : List (ℕ × ℕ)}, Chain a r it items skips → CountsFit skips →
      (∀ pe < a.numPes, (parts pe).sum = elems (it pe) (a.numElemsPe pe)) →
      Fits a.numPes it parts → Exact a.numPes it parts items) ∧
    ∀ {I α : Type} [IndexedDistributedIterator I α] {it : ℕ → I} {items : List α}
      {skips : List (ℕ × ℕ)} {lower upper n : ℕ}, IndexedChain a r it items skips lower upper →
      CountsFit skips → n < 2 ^ 64 →
      (∀ pe < a.numPes, (parts pe).sum = elems (it pe) (a.numElemsPe pe)) →
      ((Fits a.numPes (fun pe => Skip.new (it pe) n 0) parts ∧
          Exact a.numPes (fun pe => Skip.new (it pe) n 0) parts (items.drop n)) ↔
        Fits a.numPes (fun pe => Skip.new (it pe) n 0) parts ∧ (n < 2 ^ 63 ∨ items = [])) := by
  refine ⟨fun hit hskips hparts _ => hit.exact h hsize hskips hparts, ?_⟩
  intro I α _ it items skips lower upper n hit hskips hword hparts
  refine and_congr_right fun hfits => ⟨fun hexact => ?_, fun hcount => ?_⟩
  · by_contra hlarge
    push Not at hlarge
    exact hit.not_exact_skip h hsize hskips hparts hword hlarge.1 hlarge.2 hfits hexact
  · have hchain := hit.skip n
    refine (Chain.indexed hchain).exact h hsize (List.forall_mem_cons.mpr ⟨?_, hskips⟩)
      fun pe hpe => (hparts pe hpe).trans (Nat.zero_max _).symm
    exact hcount.imp_right fun hnil => by rw [hnil, List.length_nil]

/-- The copies of three elements on two PEs, the first one skipped and the others numbered -/
def skipped (pe : ℕ) : Enumerate (Skip (DistIter ℕ)) :=
  Enumerate.new (Skip.new (DistIter.new ((view 0 2 5 .cyclic 1 3).onPe pe)
    ⟨3, fun p s => 2 * s + p⟩ 0 0) 1 0) 0

/-- The one element of an array on one PE, with `2 ^ 64 - 1` elements skipped. -/
def skipAll (pe : ℕ) : Skip (DistIter ℕ) :=
  Skip.new (DistIter.new ((view 0 1 1 .cyclic 0 1).onPe pe) ⟨1, fun _ _ => 5⟩ 0 0) (2 ^ 64 - 1) 0

theorem dist_iter_exact_skip_enumerate :
    Exact 2 skipped (fun pe => [(view 0 2 5 .cyclic 1 3).numElemsPe pe]) [(0, 2), (1, 3)] ∧
      (Fits 1 skipAll (fun _ => [1]) ∧
        ¬ Exact 1 skipAll (fun _ => [1]) ([5].drop (2 ^ 64 - 1))) := by
  have hview : (view 0 2 5 .cyclic 1 3).WellFormed 5 :=
    UnsafeArrayInner.view_wellFormed (by decide) (by decide) (by decide)
  have hexact := (dist_iter_exact hview (by decide) ⟨3, fun p s => 2 * s + p⟩
    fun pe => [(view 0 2 5 .cyclic 1 3).numElemsPe pe]).1
    (.indexed (.enumerate (.skip 1 .distIter))) (by decide) (fun pe _ => (Nat.zero_max _).symm)
    (by decide +kernel)
  have hone : (view 0 1 1 .cyclic 0 1).WellFormed 1 :=
    UnsafeArrayInner.view_wellFormed (by decide) (by decide) (by decide)
  have hiff := (dist_iter_exact hone (by decide) ⟨1, fun _ _ => 5⟩ fun _ => [1]).2
    (n := 2 ^ 64 - 1) .distIter (by decide) (by decide) (by decide +kernel)
  have hfits : Fits 1 skipAll (fun _ => [1]) := by decide +kernel
  refine ⟨hexact, hfits, fun hskip => ?_⟩
  rcases (hiff.mp ⟨hfits, hskip⟩).2 with hlt | hnil
  · exact absurd hlt (by decide)
  · exact absurd hnil (by decide)

/-- A count of `2 ^ 64 - 1` is `-1` as an `isize`, and nothing is skipped. -/
theorem skip_negative_count :
    Chain (view 0 1 1 .cyclic 0 1) ⟨1, fun _ _ => 5⟩ skipAll ([5].drop (2 ^ 64 - 1))
        [(2 ^ 64 - 1, 1)] ∧
      [1].sum = elems (skipAll 0) ((view 0 1 1 .cyclic 0 1).numElemsPe 0) ∧
      ¬ Exact 1 skipAll (fun _ => [1]) ([5].drop (2 ^ 64 - 1)) := by
  refine ⟨.indexed (.skip _ .distIter), rfl, ?_⟩
  rintro ⟨out, hout, hperm⟩
  have hdrains := hout 0 Nat.one_pos (0, 1) List.mem_cons_self
  have hfive : out 0 (0, 1) = [5] := hdrains.unique (.item rfl (by decide) (.done rfl))
  have hlength := hperm.length_eq
  simp [rangesFrom, hfive] at hlength

end Lamellar.DistributedIterator
