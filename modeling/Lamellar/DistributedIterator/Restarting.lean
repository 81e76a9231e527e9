import Lamellar.DistributedIterator.Adaptors

/-!
# Taking a range again

Workers go on to their next range with `init` on the iterator they have just used. No adaptor
keeps anything of the old range, whatever the chain is built of (`Built.restarts`).
-/

namespace Lamellar.DistributedIterator

open Lamellar.Array Lamellar.Draining

variable {T I α β : Type}

structure Restarts (I : Type) [DistributedIterator I α] : Prop where
  init_init (st : I) (start cnt start' cnt' : ℕ) :
    init (init st start cnt) start' cnt' = init st start' cnt'
  init_next (st : I) (start cnt : ℕ) : init (next st).2 start cnt = init st start cnt
  init_advance (st : I) (t start cnt : ℕ) : init (advanceIndex st t) start cnt = init st start cnt

theorem DistIter.restarts : Restarts (DistIter T) where
  init_init _ _ _ _ _ := rfl
  init_next st start cnt := by
    simp only [next]
    split <;> rfl
  init_advance _ _ _ _ := rfl

/-! ## Adaptors that keep the index -/

section Indexed

variable [IndexedDistributedIterator I α]

theorem Enumerate.next_iter (st : Enumerate I) : (next st).2.iter = (next st.iter).2 := by
  rcases hnext : next st.iter with ⟨_ | a, iter⟩
  · simp only [next] at hnext ⊢
    simp only [hnext]
  · simp only [next] at hnext ⊢
    simp only [hnext]
    split <;> rfl

theorem Restarts.enumerate (h : Restarts I) : Restarts (Enumerate I) where
  init_init st start cnt start' cnt' := by
    simp only [init, Enumerate.new, h.init_init]
  init_next st start cnt := by
    have hiter := Enumerate.next_iter st
    simp only [init, Enumerate.new] at hiter ⊢
    rw [hiter, h.init_next]
  init_advance st t start cnt := by
    simp only [init, advanceIndex, Enumerate.new, h.init_advance]

/-- `init` of `skip` depends on the ranges below and on the count. -/
theorem Skip.init_congr (st st' : Skip I) (hcount : st'.count = st.count)
    (hiter : ∀ start cnt, init st'.iter start cnt = init st.iter start cnt) (start cnt : ℕ) :
    init st' start cnt = init st start cnt := by
  simp only [init] at hiter ⊢
  rw [hcount, hiter]

theorem Skip.init_eq (st : Skip I) (start cnt : ℕ) :
    ∃ t index, init st start cnt = ⟨advanceIndex (init st.iter start cnt) t, st.count, index⟩ := by
  simp only [init, Skip.new]
  split
  · exact ⟨_, _, rfl⟩
  · exact ⟨_, _, rfl⟩

theorem Restarts.skip (h : Restarts I) : Restarts (Skip I) where
  init_init st start cnt start' cnt' := by
    obtain ⟨t, index, heq⟩ := Skip.init_eq st start cnt
    rw [heq]
    refine Skip.init_congr st _ ?_ (fun _ _ => ?_) _ _
    · rfl
    · rw [h.init_advance, h.init_init]
  init_next st start cnt := by
    refine Skip.init_congr st _ ?_ (fun _ _ => ?_) _ _
    · rfl
    · exact h.init_next _ _ _
  init_advance st t start cnt := by
    refine Skip.init_congr st _ ?_ (fun _ _ => ?_) _ _
    · rfl
    · exact h.init_advance _ _ _ _

theorem Take.next_iter (st : Take I) (start cnt : ℕ) (h : Restarts I) :
    init (next st).2.iter start cnt = init st.iter start cnt ∧ (next st).2.count = st.count := by
  simp only [next]
  split
  · split
    · exact ⟨h.init_next _ _ _, rfl⟩
    · exact ⟨rfl, rfl⟩
  · exact ⟨rfl, rfl⟩

theorem Restarts.take (h : Restarts I) : Restarts (Take I) where
  init_init st start cnt start' cnt' := by
    simp only [init, Take.new, h.init_init]
  init_next st start cnt := by
    obtain ⟨hiter, hcount⟩ := Take.next_iter st start cnt h
    simp only [init, Take.new] at hiter hcount ⊢
    rw [hiter, hcount]
  init_advance st t start cnt := by
    simp only [init, advanceIndex, Take.new, h.init_advance]

theorem StepBy.init_congr (st st' : StepBy I) (hsize : st'.stepSize = st.stepSize)
    (hiter : ∀ start cnt, init st'.iter start cnt = init st.iter start cnt) (start cnt : ℕ) :
    init st' start cnt = init st start cnt := by
  simp only [init] at hiter ⊢
  rw [hsize, hiter]

theorem StepBy.init_eq (st : StepBy I) (start cnt : ℕ) :
    ∃ t add, init st start cnt =
      ⟨advanceIndex (init st.iter (start * st.stepSize) (cnt * st.stepSize)) t, st.stepSize,
        add⟩ := by
  simp only [init, StepBy.new]
  split
  · exact ⟨_, _, rfl⟩
  · exact ⟨_, _, rfl⟩

theorem StepBy.next_iter (st : StepBy I) (start cnt : ℕ) (h : Restarts I) :
    init (next st).2.iter start cnt = init st.iter start cnt ∧
      (next st).2.stepSize = st.stepSize := by
  have hnext := h.init_next st.iter start cnt
  rcases hcase : next st.iter with ⟨_ | x, iter⟩
  · rw [hcase] at hnext
    simp only [next] at hcase ⊢
    simp only [hcase]
    exact ⟨hnext, trivial⟩
  · rw [hcase] at hnext
    simp only [next] at hcase ⊢
    simp only [hcase]
    exact ⟨(h.init_advance _ _ _ _).trans hnext, trivial⟩

theorem Restarts.stepBy (h : Restarts I) : Restarts (StepBy I) where
  init_init st start cnt start' cnt' := by
    obtain ⟨t, add, heq⟩ := StepBy.init_eq st start cnt
    rw [heq]
    refine StepBy.init_congr st _ ?_ (fun _ _ => ?_) _ _
    · rfl
    · rw [h.init_advance, h.init_init]
  init_next st start cnt :=
    StepBy.init_congr st _ (StepBy.next_iter st 0 0 h).2
      (fun start cnt => (StepBy.next_iter st start cnt h).1) _ _
  init_advance st t start cnt := by
    refine StepBy.init_congr st _ ?_ (fun _ _ => ?_) _ _
    · rfl
    · exact h.init_advance _ _ _ _

end Indexed

/-! ## Adaptors that lose the index -/

section Unindexed

variable [DistributedIterator I α]

theorem Restarts.map (h : Restarts I) : Restarts (Map I α β) where
  init_init st start cnt start' cnt' := by
    simp only [init, h.init_init]
  init_next st start cnt := by
    simp only [init, next, h.init_next]
  init_advance st t start cnt := by
    simp only [init, advanceIndex, h.init_advance]

theorem Restarts.nextSome (h : Restarts I) (f : α → Option β) (fuel : ℕ) (st : I)
    (start cnt : ℕ) : init (nextSome next f fuel st).2 start cnt = init st start cnt :=
  nextSome_invariant (P := fun st' => init st' start cnt = init st start cnt)
    (fun st' hst' => (h.init_next st' start cnt).trans hst') f fuel rfl

theorem Restarts.filter (h : Restarts I) : Restarts (Filter I α) where
  init_init st start cnt start' cnt' := by
    simp only [init, h.init_init]
  init_next st start cnt := by
    simp only [init, next]
    rw [h.nextSome]
  init_advance st t start cnt := by
    simp only [init, advanceIndex, h.init_advance]

theorem Restarts.filterMap (h : Restarts I) : Restarts (FilterMap I α β) where
  init_init st start cnt start' cnt' := by
    simp only [init, h.init_init]
  init_next st start cnt := by
    simp only [init, next]
    rw [h.nextSome]
  init_advance st t start cnt := by
    simp only [init, advanceIndex, h.init_advance]

end Unindexed

/-! ## Items to come -/

/-- `left` bounds the items to come: each of them leaves fewer, and a range begins with `size` of
them at most. -/
structure Shrinks (I : Type) [DistributedIterator I α] (left : I → ℕ) : Prop where
  next (st : I) (x : α) (st' : I) : next st = (some x, st') → left st' < left st
  advance (st : I) (t : ℕ) : left (advanceIndex st t) ≤ left st
  init (st : I) (start cnt : ℕ) : left (init st start cnt) ≤ size (init st start cnt)
  size_next (st : I) : size (DistributedIterator.next st).2 = size st
  size_advance (st : I) (t : ℕ) : size (advanceIndex st t) = size st

/-- An iterator that shrinks ends. -/
theorem Shrinks.exists_drains [DistributedIterator I α] {left : I → ℕ} (h : Shrinks I left) (st : I)
    (hle : left st ≤ size st) :
    ∃ l, Drains DistributedIterator.next size st l ∧ l.length ≤ left st := by
  induction hn : left st using Nat.strongRecOn generalizing st with
  | ind n ih =>
    subst hn
    rcases hnext : DistributedIterator.next st with ⟨_ | x, st'⟩
    · exact ⟨[], .done (by rw [hnext]), Nat.zero_le _⟩
    · have hlt := h.next st x st' hnext
      have hsize : size st' = size st := by
        rw [← h.size_next st, hnext]
      obtain ⟨l, hl, hlength⟩ := ih _ hlt st' (by omega) rfl
      exact ⟨x :: l, .item hnext (by omega) hl, by rw [List.length_cons]; omega⟩

theorem DistIter.shrinks : Shrinks (DistIter T) fun st => st.endI - st.curI where
  next st x st' h := by
    simp only [DistributedIterator.next] at h
    split at h
    · cases h
      dsimp only
      omega
    · cases h
  advance st t := by
    simp only [advanceIndex]
    omega
  init st start cnt := by
    have hle := st.data.numElemsPe_le st.data.myPe
    simp only [DistributedIterator.init, size, UnsafeArrayInner.numElemsLocal]
    omega
  size_next st := by
    simp only [DistributedIterator.next]
    split <;> rfl
  size_advance _ _ := rfl

section Indexed

variable [IndexedDistributedIterator I α] {left : I → ℕ}

theorem Shrinks.enumerate (h : Shrinks I left) :
    Shrinks (Enumerate I) fun st => left st.iter where
  next st x st' hnext := by
    have hiter := Enumerate.next_iter st
    simp only [DistributedIterator.next] at hnext hiter
    rcases hcase : DistributedIterator.next st.iter with ⟨_ | a, iter⟩
    · simp only [hcase, Prod.mk.injEq, reduceCtorEq, false_and] at hnext
    · rw [hnext, hcase] at hiter
      rw [hiter]
      exact h.next _ a _ hcase
  advance st t := h.advance st.iter t
  init st start cnt := h.init st.iter start cnt
  size_next st := (congrArg size (Enumerate.next_iter st)).trans (h.size_next st.iter)
  size_advance st t := h.size_advance st.iter t

theorem Shrinks.skip (h : Shrinks I left) : Shrinks (Skip I) fun st => left st.iter where
  next st x st' hnext := by
    simp only [DistributedIterator.next, Prod.mk.injEq] at hnext
    rw [← hnext.2]
    exact h.next _ x _ (Prod.ext hnext.1 rfl)
  advance st t := h.advance st.iter t
  init st start cnt := by
    obtain ⟨t, index, heq⟩ := Skip.init_eq st start cnt
    rw [heq]
    have hsize := h.size_advance (DistributedIterator.init st.iter start cnt) t
    exact ((h.advance _ t).trans (h.init st.iter start cnt)).trans hsize.ge
  size_next st := h.size_next st.iter
  size_advance st t := h.size_advance st.iter t

theorem Shrinks.take (h : Shrinks I left) : Shrinks (Take I) fun st => left st.iter where
  next st x st' hnext := by
    simp only [DistributedIterator.next] at hnext
    split at hnext
    · split at hnext
      · rw [Prod.mk.injEq] at hnext
        rw [← hnext.2]
        exact h.next _ x _ (Prod.ext hnext.1 rfl)
      · cases hnext
    · cases hnext
  advance st t := h.advance st.iter t
  init st start cnt := h.init st.iter start cnt
  size_next st := by
    simp only [DistributedIterator.next]
    split
    · split
      · exact h.size_next st.iter
      · rfl
    · rfl
  size_advance st t := h.size_advance st.iter t

theorem Shrinks.stepBy (h : Shrinks I left) : Shrinks (StepBy I) fun st => left st.iter where
  next st x st' hnext := by
    simp only [DistributedIterator.next] at hnext
    rcases hcase : DistributedIterator.next st.iter with ⟨_ | a, iter⟩
    · simp only [hcase, Prod.mk.injEq, reduceCtorEq, false_and] at hnext
    · simp only [hcase, Prod.mk.injEq] at hnext
      rw [← hnext.2]
      exact Nat.lt_of_le_of_lt (h.advance _ _) (h.next _ a _ hcase)
  advance st t := h.advance st.iter _
  init st start cnt := by
    obtain ⟨t, add, heq⟩ := StepBy.init_eq st start cnt
    rw [heq]
    have hsize := h.size_advance
      (DistributedIterator.init st.iter (start * st.stepSize) (cnt * st.stepSize)) t
    exact ((h.advance _ t).trans (h.init st.iter _ _)).trans hsize.ge
  size_next st := by
    have hsize := h.size_next st.iter
    simp only [DistributedIterator.next]
    rcases hcase : DistributedIterator.next st.iter with ⟨_ | a, iter⟩
    · rw [hcase] at hsize
      exact hsize
    · rw [hcase] at hsize
      exact (h.size_advance _ _).trans hsize
  size_advance st t := h.size_advance st.iter _

end Indexed

section Unindexed

variable [DistributedIterator I α] {left : I → ℕ}

theorem Shrinks.map (h : Shrinks I left) : Shrinks (Map I α β) fun st => left st.iter where
  next st x st' hnext := by
    simp only [DistributedIterator.next, Prod.mk.injEq] at hnext
    obtain ⟨y, hy, _⟩ := Option.map_eq_some_iff.mp hnext.1
    rw [← hnext.2]
    exact h.next _ y _ (Prod.ext hy rfl)
  advance st t := h.advance st.iter t
  init st start cnt := h.init st.iter start cnt
  size_next st := h.size_next st.iter
  size_advance st t := h.size_advance st.iter t

theorem Shrinks.size_nextSome (h : Shrinks I left) (f : α → Option β) (fuel : ℕ) (st : I) :
    size (nextSome DistributedIterator.next f fuel st).2 = size st :=
  nextSome_invariant (P := fun st' => size st' = size st)
    (fun st' hst' => (h.size_next st').trans hst') f fuel rfl

theorem Shrinks.filter (h : Shrinks I left) : Shrinks (Filter I α) fun st => left st.iter where
  next st x st' hnext := by
    simp only [DistributedIterator.next, Prod.mk.injEq] at hnext
    rw [← hnext.2]
    exact nextSome_room h.next _ (Prod.ext hnext.1 rfl)
  advance st t := h.advance st.iter t
  init st start cnt := h.init st.iter start cnt
  size_next st := h.size_nextSome _ _ st.iter
  size_advance st t := h.size_advance st.iter t

theorem Shrinks.filterMap (h : Shrinks I left) :
    Shrinks (FilterMap I α β) fun st => left st.iter where
  next st x st' hnext := by
    simp only [DistributedIterator.next, Prod.mk.injEq] at hnext
    rw [← hnext.2]
    exact nextSome_room h.next _ (Prod.ext hnext.1 rfl)
  advance st t := h.advance st.iter t
  init st start cnt := h.init st.iter start cnt
  size_next st := h.size_nextSome _ _ st.iter
  size_advance st t := h.size_advance st.iter t

end Unindexed

/-! ## Whatever is built -/

/-- The iterators that `dist_iter` and the adaptors that keep the index build -/
inductive IndexedBuilt : {I α : Type} → [IndexedDistributedIterator I α] → I → Prop where
  | distIter {T : Type} (a : UnsafeArrayInner) (r : MemoryRegion T) :
      IndexedBuilt (DistIter.new a r 0 0)
  | enumerate {I α : Type} [IndexedDistributedIterator I α] {it : I} :
      IndexedBuilt it → IndexedBuilt (Enumerate.new it 0)
  | skip {I α : Type} [IndexedDistributedIterator I α] {it : I} (n : ℕ) :
      IndexedBuilt it → IndexedBuilt (Skip.new it n 0)
  | take {I α : Type} [IndexedDistributedIterator I α] {it : I} (n : ℕ) :
      IndexedBuilt it → IndexedBuilt (Take.new it n 0)
  | stepBy {I α : Type} [IndexedDistributedIterator I α] {it : I} (s : ℕ) :
      IndexedBuilt it → IndexedBuilt (StepBy.new it s 0)

inductive Built : {I α : Type} → [DistributedIterator I α] → I → Prop where
  | indexed {I α : Type} [IndexedDistributedIterator I α] {it : I} : IndexedBuilt it → Built it
  | map {I α β : Type} [DistributedIterator I α] {it : I} (f : α → β) :
      Built it → Built (Map.mk it f)
  | filter {I α : Type} [DistributedIterator I α] {it : I} (f : α → Bool) :
      Built it → Built (Filter.mk it f)
  | filterMap {I α β : Type} [DistributedIterator I α] {it : I} (f : α → Option β) :
      Built it → Built (FilterMap.mk it f)

theorem IndexedBuilt.restarts [IndexedDistributedIterator I α] {it : I} (h : IndexedBuilt it) :
    Restarts I := by
  induction h with
  | distIter a r => exact DistIter.restarts
  | enumerate _ ih => exact ih.enumerate
  | skip n _ ih => exact ih.skip
  | take n _ ih => exact ih.take
  | stepBy s _ ih => exact ih.stepBy

theorem Built.restarts [DistributedIterator I α] {it : I} (h : Built it) : Restarts I := by
  induction h with
  | indexed h => exact h.restarts
  | map f _ ih => exact ih.map
  | filter f _ ih => exact ih.filter
  | filterMap f _ ih => exact ih.filterMap

theorem IndexedBuilt.shrinks [IndexedDistributedIterator I α] {it : I} (h : IndexedBuilt it) :
    ∃ left, Shrinks I left := by
  induction h with
  | distIter a r => exact ⟨_, DistIter.shrinks⟩
  | enumerate _ ih =>
    obtain ⟨left, hleft⟩ := ih
    exact ⟨_, hleft.enumerate⟩
  | skip n _ ih =>
    obtain ⟨left, hleft⟩ := ih
    exact ⟨_, hleft.skip⟩
  | take n _ ih =>
    obtain ⟨left, hleft⟩ := ih
    exact ⟨_, hleft.take⟩
  | stepBy s _ ih =>
    obtain ⟨left, hleft⟩ := ih
    exact ⟨_, hleft.stepBy⟩

theorem Built.shrinks [DistributedIterator I α] {it : I} (h : Built it) :
    ∃ left, Shrinks I left := by
  induction h with
  | indexed h => exact h.shrinks
  | map f _ ih =>
    obtain ⟨left, hleft⟩ := ih
    exact ⟨_, hleft.map⟩
  | filter f _ ih =>
    obtain ⟨left, hleft⟩ := ih
    exact ⟨_, hleft.filter⟩
  | filterMap f _ ih =>
    obtain ⟨left, hleft⟩ := ih
    exact ⟨_, hleft.filterMap⟩

/-- Every range ends. -/
theorem Built.exists_drains [DistributedIterator I α] {it : I} (h : Built it) (start cnt : ℕ) :
    ∃ l, Drains next size (init it start cnt) l := by
  obtain ⟨left, hleft⟩ := h.shrinks
  obtain ⟨l, hl, -⟩ := hleft.exists_drains _ (hleft.init it start cnt)
  exact ⟨l, hl⟩

end Lamellar.DistributedIterator
