import Lamellar.LocalIterator.AdaptorLaws

/-!
# Chains of local adaptors

`IndexedChain` and `Chain` list the iterators that `local_iter` and the adaptors build over
slices of `n` elements, together with the items of the standard adaptors and the
condition under which the chain means the same (`local_iter_exact`). Apart from numbers that leave
the range of their type (`Fits`), the condition follows the four places where the adaptors disagree
on what a position is:

* `skip` shares out as many positions fewer as it skips, but takes its ranges in the numbering
  of the chain below, so that the last items are lost (`skip_loses_last`);
* `step_by` passes `advance_index` on without multiplying by its step, so that no `step_by`
  moves over another one by the right amount;
* `chunks` hands out a chunk for every position of a range, also past its last item, where the
  chunks of a chain above it ask for that;
* the number of items of `step_by` is computed in `f32`.
-/

namespace Lamellar.LocalIterator

open Lamellar.Array Lamellar.Draining Lamellar.StandardIter

variable {I J α β : Type}

/-- The indexed iterators over `n` local elements: what the standard adaptors give, the
condition under which the chain gives the same, and whether it clips and advances. -/
inductive IndexedChain (n : ℕ) : {I α : Type} → [IndexedLocalIterator I α] → I → List α →
    Prop → Prop → Prop → Prop where
  | localIter {T : Type} {a : UnsafeArrayInner} {len : ℕ} (r : MemoryRegion T) :
      a.WellFormed len → a.myPe < a.numPes → a.size ≤ 2 ^ 63 → a.numElemsLocal = n →
      IndexedChain n (LocalIter.new a r 0 0) (localSlice a r) True True True
  | enumerate {I α : Type} [IndexedLocalIterator I α] {it : I} {items : List α}
      {sound clips advances : Prop} : IndexedChain n it items sound clips advances →
      IndexedChain n (Enumerate.new it 0) (items.zipIdx.map Prod.swap) sound clips advances
  | skip {I α : Type} [IndexedLocalIterator I α] {it : I} {items : List α}
      {sound clips advances : Prop} (m : ℕ) : IndexedChain n it items sound clips advances →
      IndexedChain n (Skip.new it m 0) (items.drop m) (sound ∧ (m = 0 ∨ m = items.length))
        (clips ∧ m = 0) advances
  | take {I α : Type} [IndexedLocalIterator I α] {it : I} {items : List α}
      {sound clips advances : Prop} (m : ℕ) : IndexedChain n it items sound clips advances →
      IndexedChain n (Take.new it m) (items.take m) sound (clips ∨ m ≤ items.length) advances
  | stepBy {I α : Type} [IndexedLocalIterator I α] {it : I} {items : List α}
      {sound clips advances : Prop} (s : ℕ) (hs : 0 < s) :
      IndexedChain n it items sound clips advances →
      IndexedChain n (StepBy.new it s 0) (stepBy s items)
        (sound ∧ (s = 1 ∨ advances) ∧ Binary32.ceilDiv items.length s = steps s items.length)
        clips (advances ∧ s = 1)
  | zip {I α J β : Type} [IndexedLocalIterator I α] [IndexedLocalIterator J β] {it : I}
      {items : List α} {sound clips advances : Prop} {it' : J} {items' : List β}
      {sound' clips' advances' : Prop} : IndexedChain n it items sound clips advances →
      IndexedChain n it' items' sound' clips' advances' →
      IndexedChain n (Zip.new it it') (items.zip items') (sound ∧ sound')
        (clips ∧ items.length ≤ items'.length ∨ clips' ∧ items'.length ≤ items.length)
        (advances ∧ advances')
  | chunks {I α : Type} [IndexedLocalIterator I α] {it : I} {items : List α}
      {sound clips advances : Prop} (c : ℕ) (hc : 0 < c) :
      IndexedChain n it items sound clips advances →
      IndexedChain n (Chunks.new it 0 0 c) (chunks c items)
        (sound ∧ (clips ∨ c ∣ items.length)) False True

/-- The iterators over `n` local elements, with `map`, `filter` and `filter_map`. -/
inductive Chain (n : ℕ) : {I α : Type} → [LocalIterator I α] → I → List α → Prop → Prop where
  | indexed {I α : Type} [IndexedLocalIterator I α] {it : I} {items : List α}
      {sound clips advances : Prop} : IndexedChain n it items sound clips advances →
      Chain n it items sound
  | map {I α β : Type} [LocalIterator I α] {it : I} {items : List α} {sound : Prop}
      (f : α → β) : Chain n it items sound → Chain n (Map.mk it f) (items.map f) sound
  | filter {I α : Type} [LocalIterator I α] {it : I} {items : List α} {sound : Prop}
      (f : α → Bool) : Chain n it items sound → Chain n (Filter.mk it f) (items.filter f) sound
  | filterMap {I α β : Type} [LocalIterator I α] {it : I} {items : List α} {sound : Prop}
      (f : α → Option β) : Chain n it items sound →
      Chain n (FilterMap.mk it f) (items.filterMap f) sound

/-- The ranges of the given lengths, one after the other and each run to its end, hand out
`items`, in this order. -/
def Exact [LocalIterator I α] (it : I) (parts : List ℕ) (items : List α) : Prop :=
  ∃ out : ℕ × ℕ → List α,
    (∀ rng ∈ rangesFrom 0 parts, Drains next size (init it rng.1 rng.2) (out rng)) ∧
      (rangesFrom 0 parts).flatMap out = items

/-- Every range computes with numbers in the range of their type: no build panics, and no number
wraps around. -/
def Fits [LocalIterator I α] (it : I) (parts : List ℕ) : Prop :=
  ∀ rng ∈ rangesFrom 0 parts, rangeFits it rng.1 rng.2

instance [LocalIterator I α] (it : I) (parts : List ℕ) : Decidable (Fits it parts) :=
  inferInstanceAs (Decidable (∀ rng ∈ rangesFrom 0 parts, rangeFits it rng.1 rng.2 = true))

variable {n : ℕ}

theorem IndexedChain.laws [IndexedLocalIterator I α] {it : I} {items : List α}
    {sound clips advances : Prop} (hit : IndexedChain n it items sound clips advances)
    (hsound : sound) : ∃ Ready, Laws n it items clips advances Ready := by
  induction hit with
  | localIter r h hpe hsize hn =>
    subst hn
    exact ⟨_, LocalIter.laws _ r (UnsafeArrayInner.numElemsPe_le _ _) hsize⟩
  | enumerate _ ih =>
    obtain ⟨Ready, h⟩ := ih hsound
    exact ⟨_, h.enumerate 0⟩
  | skip m _ ih =>
    obtain ⟨Ready, h⟩ := ih hsound.1
    exact ⟨_, h.skip hsound.2 0⟩
  | take m _ ih =>
    obtain ⟨Ready, h⟩ := ih hsound
    exact ⟨_, h.take m⟩
  | stepBy s hs _ ih =>
    obtain ⟨Ready, h⟩ := ih hsound.1
    exact ⟨_, h.stepBy hs hsound.2.1 hsound.2.2 0⟩
  | zip _ _ ih ih' =>
    obtain ⟨Ready, h⟩ := ih hsound.1
    obtain ⟨Ready', h'⟩ := ih' hsound.2
    exact ⟨_, h.zip h'⟩
  | chunks c hc _ ih =>
    obtain ⟨Ready, h⟩ := ih hsound.1
    exact ⟨_, h.chunks hc hsound.2 0 0⟩

theorem IndexedChain.restarts [IndexedLocalIterator I α] {it : I} {items : List α}
    {sound clips advances : Prop} (hit : IndexedChain n it items sound clips advances) :
    Restarts I := by
  induction hit with
  | localIter r h hpe hsize hn => exact LocalIter.restarts
  | enumerate _ ih => exact ih.enumerate
  | skip m _ ih => exact ih.skip
  | take m _ ih => exact ih.take
  | stepBy s hs _ ih => exact ih.stepBy
  | zip _ _ ih ih' => exact ih.zip ih'
  | chunks c hc _ ih => exact ih.chunks

theorem Chain.restarts [LocalIterator I α] {it : I} {items : List α} {sound : Prop}
    (hit : Chain n it items sound) : Restarts I := by
  induction hit with
  | indexed hit => exact hit.restarts
  | map f _ ih => exact ih.map
  | filter f _ ih => exact ih.filter
  | filterMap f _ ih => exact ih.filterMap

/-- A chain hands out what it makes of the items of the indexed chain below. -/
theorem Chain.drains [LocalIterator I α] {it : I} {items : List α} {sound : Prop}
    (hit : Chain n it items sound) (hsound : sound) :
    ∃ (γ : Type) (base : List γ) (G : γ → Option α), items = base.filterMap G ∧
      elems it n = some base.length ∧ ∀ start cnt, start + cnt ≤ base.length →
        Drains next size (init it start cnt) (((base.drop start).take cnt).filterMap G) := by
  induction hit with
  | @indexed _ α _ it items _ _ _ hit =>
    obtain ⟨Ready, h⟩ := hit.laws hsound
    refine ⟨α, items, some, List.filterMap_some.symm, h.elems, fun start cnt hle => ?_⟩
    rw [List.filterMap_some]
    exact h.drains (by omega) (Or.inr hle)
  | map f _ ih =>
    obtain ⟨γ, base, G, hitems, helems, hdrains⟩ := ih hsound
    refine ⟨γ, base, fun x => (G x).map f, ?_, helems, fun start cnt hle => ?_⟩
    · rw [hitems, List.map_filterMap]
    · have hmap : Drains next size (Map.mk (init _ start cnt) f) _ :=
        Drains.map (hdrains start cnt hle) f (fun s => Map.mk s f) (fun _ => rfl) (fun _ => rfl)
      rw [List.map_filterMap] at hmap
      exact hmap
  | filter f _ ih =>
    obtain ⟨γ, base, G, hitems, helems, hdrains⟩ := ih hsound
    refine ⟨γ, base, fun x => (G x).bind fun y => if f y then some y else none, ?_, helems,
      fun start cnt hle => ?_⟩
    · rw [hitems, ← List.filterMap_eq_filter, List.filterMap_filterMap]
      rfl
    · have hfilter : Drains next size (Filter.mk (init _ start cnt) f) _ :=
        Drains.filterMap (hdrains start cnt hle) (fun x => if f x then some x else none)
          (fun s => Filter.mk s f) (fun _ => rfl) (fun _ => rfl)
      rw [List.filterMap_filterMap] at hfilter
      exact hfilter
  | filterMap f _ ih =>
    obtain ⟨γ, base, G, hitems, helems, hdrains⟩ := ih hsound
    refine ⟨γ, base, fun x => (G x).bind f, ?_, helems, fun start cnt hle => ?_⟩
    · rw [hitems, List.filterMap_filterMap]
    · have hfilter : Drains next size (FilterMap.mk (init _ start cnt) f) _ :=
        Drains.filterMap (hdrains start cnt hle) f (fun s => FilterMap.mk s f) (fun _ => rfl)
          (fun _ => rfl)
      rw [List.filterMap_filterMap] at hfilter
      exact hfilter

end Lamellar.LocalIterator
