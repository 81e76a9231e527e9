import Lamellar.LocalIterator.Adaptors

/-!
# Taking a range again

Workers go on to their next range with `init` on the iterator they have just used. No adaptor
keeps anything of the old range (`Restarts`), and every item leaves fewer to come, so that
every iterator ends.
-/

namespace Lamellar.LocalIterator

open Lamellar.Array Lamellar.Draining

variable {T I J α β : Type}

structure Restarts (I : Type) [LocalIterator I α] : Prop where
  init_init (st : I) (start cnt start' cnt' : ℕ) :
    init (init st start cnt) start' cnt' = init st start' cnt'
  init_next (st : I) (start cnt : ℕ) : init (next st).2 start cnt = init st start cnt
  init_advance (st : I) (t start cnt : ℕ) : init (advanceIndex st t) start cnt = init st start cnt
  size_next (st : I) (x : α) (st' : I) : next st = (some x, st') → size st' < size st
  size_advance (st : I) (t : ℕ) : size (advanceIndex st t) ≤ size st

theorem Restarts.exists_drains [LocalIterator I α] (h : Restarts I) (st : I) :
    ∃ l, Drains next size st l :=
  Draining.exists_drains h.size_next st

theorem LocalIter.restarts : Restarts (LocalIter T) where
  init_init _ _ _ _ _ := rfl
  init_next st start cnt := by
    simp only [next]
    split <;> rfl
  init_advance _ _ _ _ := rfl
  size_next st x st' h := by
    simp only [next] at h
    split at h
    · cases h
      simp only [size]
      omega
    · cases h
  size_advance st t := by
    simp only [size, advanceIndex]
    omega

section Adaptors

variable [IndexedLocalIterator I α] [IndexedLocalIterator J β]

/-! ## Adaptors that keep the index -/

theorem Enumerate.next_iter (st : Enumerate I) : (next st).2.iter = (next st.iter).2 := by
  simp only [next]
  rcases LocalIterator.next st.iter with ⟨_ | a, iter⟩
  · rfl
  · cases hindex : iteratorIndex iter st.curIndex with
    | none => simp only [hindex]
    | some i => simp only [hindex]

theorem Enumerate.next_of_none {st : Enumerate I} (hnone : (next st.iter).1 = none) :
    (next st).1 = none := by
  rcases hcase : next st.iter with ⟨x, iter⟩
  rw [hcase] at hnone
  cases hnone
  simp only [next] at hcase ⊢
  simp only [hcase]

theorem Restarts.enumerate (h : Restarts I) : Restarts (Enumerate I) where
  init_init st start cnt start' cnt' := by
    simp only [init, Enumerate.new, h.init_init]
  init_next st start cnt := by
    have hiter := Enumerate.next_iter st
    simp only [init, Enumerate.new] at hiter ⊢
    rw [hiter, h.init_next]
  init_advance st t start cnt := by
    simp only [init, advanceIndex, Enumerate.new, h.init_advance]
  size_next st x st' hnext := by
    simp only [next] at hnext
    rcases hcase : LocalIterator.next st.iter with ⟨_ | a, iter⟩
    · simp only [hcase, Prod.mk.injEq, reduceCtorEq, false_and] at hnext
    · have hlt := h.size_next _ _ _ hcase
      cases hindex : iteratorIndex iter st.curIndex with
      | none => simp only [hcase, hindex, Prod.mk.injEq, reduceCtorEq, false_and] at hnext
      | some i =>
        simp only [hcase, hindex, Prod.mk.injEq] at hnext
        rw [← hnext.2]
        exact hlt
  size_advance st t := h.size_advance st.iter t

theorem Restarts.skip (h : Restarts I) : Restarts (Skip I) where
  init_init st start cnt start' cnt' := by
    simp only [init, Skip.new, h.init_advance, h.init_init]
  init_next st start cnt := by
    simp only [init, next, Skip.new, h.init_next]
  init_advance st t start cnt := by
    simp only [init, advanceIndex, Skip.new, h.init_advance]
  size_next st x st' hnext := by
    simp only [next, Prod.mk.injEq] at hnext
    rw [← hnext.2]
    exact h.size_next _ x _ (Prod.ext hnext.1 rfl)
  size_advance st t := h.size_advance st.iter t

theorem Restarts.take (h : Restarts I) : Restarts (Take I) where
  init_init st start cnt start' cnt' := by
    simp only [init, Take.new, h.init_init]
  init_next st start cnt := by
    simp only [init, next, Take.new, h.init_next]
  init_advance st t start cnt := by
    simp only [init, advanceIndex, Take.new, h.init_advance]
  size_next st x st' hnext := by
    simp only [next, Prod.mk.injEq] at hnext
    rw [← hnext.2]
    exact h.size_next _ x _ (Prod.ext hnext.1 rfl)
  size_advance st t := h.size_advance st.iter t

/-- `init` of `step_by` in terms of the range below. -/
theorem StepBy.init_eq (st : StepBy I) (start cnt : ℕ) :
    ∃ t add, init st start cnt =
      ⟨advanceIndex (init st.iter (start * st.stepSize) (cnt * st.stepSize)) t, st.stepSize,
        add⟩ := by
  simp only [init, StepBy.new]
  split
  · exact ⟨_, _, rfl⟩
  · exact ⟨_, _, rfl⟩

theorem StepBy.init_congr (st st' : StepBy I) (hsize : st'.stepSize = st.stepSize)
    (hiter : ∀ start cnt, init st'.iter start cnt = init st.iter start cnt) (start cnt : ℕ) :
    init st' start cnt = init st start cnt := by
  simp only [init] at hiter ⊢
  rw [hsize, hiter]

theorem Restarts.stepBy (h : Restarts I) : Restarts (StepBy I) where
  init_init st start cnt start' cnt' := by
    obtain ⟨t, add, heq⟩ := StepBy.init_eq st start cnt
    rw [heq]
    refine StepBy.init_congr st _ ?_ (fun _ _ => ?_) _ _
    · rfl
    · rw [h.init_advance, h.init_init]
  init_next st start cnt := by
    refine StepBy.init_congr st _ ?_ (fun _ _ => ?_) _ _
    · rfl
    · exact (h.init_advance _ _ _ _).trans (h.init_next _ _ _)
  init_advance st t start cnt := by
    refine StepBy.init_congr st _ ?_ (fun _ _ => ?_) _ _
    · rfl
    · exact h.init_advance _ _ _ _
  size_next st x st' hnext := by
    simp only [next, Prod.mk.injEq] at hnext
    rw [← hnext.2]
    exact Nat.lt_of_le_of_lt (h.size_advance _ _) (h.size_next _ x _ (Prod.ext hnext.1 rfl))
  size_advance st t := h.size_advance st.iter t

theorem Zip.next_of_none {st : Zip I J} (ha : (next st.a).1 = none) : (next st).1 = none := by
  rcases hcase : next st.a with ⟨x, a⟩
  rw [hcase] at ha
  cases ha
  simp only [next] at hcase ⊢
  simp only [hcase]

theorem Zip.next_of_some {st : Zip I J} {x : α} {a : I} (ha : next st.a = (some x, a)) :
    next st = ((next st.b).1.map fun y => (x, y), ⟨a, (next st.b).2⟩) := by
  rcases hcase : next st.b with ⟨_ | y, b⟩
  · simp only [next] at ha hcase ⊢
    simp only [ha, hcase, Option.map_none]
  · simp only [next] at ha hcase ⊢
    simp only [ha, hcase, Option.map_some]

theorem Restarts.zip (h : Restarts I) (h' : Restarts J) : Restarts (Zip I J) where
  init_init st start cnt start' cnt' := by
    simp only [init, Zip.new, h.init_init, h'.init_init]
  init_next st start cnt := by
    rcases hcase : next st.a with ⟨_ | x, a⟩
    · have ha := h.init_next st.a start cnt
      rw [hcase] at ha
      simp only [init, next, Zip.new] at hcase ha ⊢
      simp only [hcase, ha]
    · have ha := h.init_next st.a start cnt
      have hb := h'.init_next st.b start cnt
      rw [Zip.next_of_some hcase]
      rw [hcase] at ha
      simp only [init, Zip.new] at ha hb ⊢
      rw [ha, hb]
  init_advance st t start cnt := by
    simp only [init, advanceIndex, Zip.new, h.init_advance, h'.init_advance]
  size_next st x st' hnext := by
    rcases hcase : next st.a with ⟨_ | y, a⟩
    · have hnone : (next st).1 = none := Zip.next_of_none (by rw [hcase])
      rw [hnext] at hnone
      cases hnone
    · rw [Zip.next_of_some hcase, Prod.mk.injEq] at hnext
      rw [← hnext.2]
      exact h.size_next _ _ _ hcase
  size_advance st t := h.size_advance st.a t

theorem Restarts.chunks (h : Restarts I) : Restarts (Chunks I) where
  init_init st start cnt start' cnt' := by
    simp only [init, Chunks.new, h.init_init]
  init_next st start cnt := by
    simp only [next]
    split <;> rfl
  init_advance _ _ _ _ := rfl
  size_next st x st' hnext := by
    simp only [next] at hnext
    split at hnext
    · cases hnext
      simp only [size]
      omega
    · cases hnext
  size_advance st t := by
    simp only [size, advanceIndex]
    omega

end Adaptors

/-! ## Adaptors that lose the index -/

section Adaptors

variable [LocalIterator I α]

theorem Restarts.map (h : Restarts I) : Restarts (Map I α β) where
  init_init st start cnt start' cnt' := by
    simp only [init, h.init_init]
  init_next st start cnt := by
    simp only [init, next, h.init_next]
  init_advance st t start cnt := by
    simp only [init, advanceIndex, h.init_advance]
  size_next st x st' hnext := by
    simp only [next, Prod.mk.injEq] at hnext
    obtain ⟨y, hy, _⟩ := Option.map_eq_some_iff.mp hnext.1
    rw [← hnext.2]
    exact h.size_next _ y _ (Prod.ext hy rfl)
  size_advance st t := h.size_advance st.iter t

theorem Restarts.nextSome (h : Restarts I) (f : α → Option β) (fuel : ℕ) (st : I)
    (start cnt : ℕ) : init (nextSome next f fuel st).2 start cnt = init st start cnt :=
  nextSome_invariant (P := fun st' => init st' start cnt = init st start cnt)
    (fun st' hst' => (h.init_next st' start cnt).trans hst') f fuel rfl

theorem Restarts.filter (h : Restarts I) : Restarts (Filter I α) where
  init_init st start cnt start' cnt' := by
    simp only [init, h.init_init]
  init_next st start cnt := by
    simp only [init, next]
    rw [h.nextSome]
  init_advance st t start cnt := by
    simp only [init, advanceIndex, h.init_advance]
  size_next st x st' hnext := by
    simp only [next, Prod.mk.injEq] at hnext
    rw [← hnext.2]
    exact nextSome_room h.size_next _ (Prod.ext hnext.1 rfl)
  size_advance st t := h.size_advance st.iter t

theorem Restarts.filterMap (h : Restarts I) : Restarts (FilterMap I α β) where
  init_init st start cnt start' cnt' := by
    simp only [init, h.init_init]
  init_next st start cnt := by
    simp only [init, next]
    rw [h.nextSome]
  init_advance st t start cnt := by
    simp only [init, advanceIndex, h.init_advance]
  size_next st x st' hnext := by
    simp only [next, Prod.mk.injEq] at hnext
    rw [← hnext.2]
    exact nextSome_room h.size_next _ (Prod.ext hnext.1 rfl)
  size_advance st t := h.size_advance st.iter t

end Adaptors

end Lamellar.LocalIterator
