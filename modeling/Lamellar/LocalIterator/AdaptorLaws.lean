import Lamellar.LocalIterator.Restarting

/-!
# What a chain of local adaptors does to a range

`Laws n it items clips advances Ready` says that a chain over `n` local elements hands out,
for position `p`, the item `items[p]`. Its iterators are described by `Ready st p e`: the next
position is `p`, and positions from `e` on are not part of the range. Two properties hold for
some chains only: `clips` (a range may go past the last item and ends there all the same) and
`advances` (`advance_index` moves by the given number of positions). `chunks` loses the first
one, because it hands out a chunk for every position of its range; `step_by` loses the second
one, because it passes the count on without multiplying it by the step.
-/

namespace Lamellar.LocalIterator

open Lamellar.Array Lamellar.Draining Lamellar.StandardIter

variable {T I J α β : Type} {n : ℕ}

structure Laws [IndexedLocalIterator I α] (n : ℕ) (it : I) (items : List α)
    (clips advances : Prop) (Ready : I → ℕ → ℕ → Prop) : Prop where
  restarts : Restarts I
  /-- `skip` computes with `isize`. -/
  length_le : items.length ≤ 2 ^ 63
  elems : elems it n = some items.length
  init (start cnt : ℕ) : start < items.length ∨ cnt = 0 →
    Ready (init it start cnt) start (start + cnt)
  le {st : I} {p e : ℕ} : Ready st p e → p ≤ e
  next_some {st : I} {p e : ℕ} : Ready st p e → p < e → p < items.length →
    ∃ x st', items[p]? = some x ∧ next st = (some x, st') ∧ Ready st' (p + 1) e
  next_none {st : I} {e : ℕ} : Ready st e e → (next st).1 = none
  next_past {st : I} {p e : ℕ} : clips → Ready st p e → items.length ≤ p → (next st).1 = none
  index {st : I} {p e k : ℕ} : Ready st p e → p < e → p < items.length → k < items.length →
    iteratorIndex st k = some k
  index_next (st : I) : iteratorIndex (next st).2 = iteratorIndex st
  index_advance (st : I) (t : ℕ) : iteratorIndex (advanceIndex st t) = iteratorIndex st
  advance {st : I} {p e : ℕ} (t : ℕ) : advances → Ready st p e →
    Ready (advanceIndex st t) (min (p + t) e) e
  advance_zero {st : I} {p e : ℕ} : Ready st p e → Ready (advanceIndex st 0) p e
  advance_end {st : I} {e : ℕ} (t : ℕ) : Ready st e e → Ready (advanceIndex st t) e e

namespace Laws

variable [IndexedLocalIterator I α] {it : I} {items : List α} {clips advances : Prop}
  {Ready : I → ℕ → ℕ → Prop}

theorem drains_from (h : Laws n it items clips advances Ready) {st : I} {p e m : ℕ}
    (hm : e - p = m) (hst : Ready st p e) (hend : clips ∨ e ≤ items.length) :
    Drains next size st ((items.drop p).take m) :=
  @drains_ready I α next size items Ready (fun _ _ _ => h.le) (fun _ _ _ => h.next_some)
    (fun _ _ => h.next_none) h.restarts.size_next st p e m hm hst
    (hend.imp_left fun hclips _ _ => h.next_past hclips)

/-- A range hands out the items of its positions, in order. -/
theorem drains (h : Laws n it items clips advances Ready) {start cnt : ℕ}
    (hstart : start < items.length ∨ cnt = 0) (hend : clips ∨ start + cnt ≤ items.length) :
    Drains next size (LocalIterator.init it start cnt) ((items.drop start).take cnt) :=
  h.drains_from (Nat.add_sub_cancel_left start cnt) (h.init start cnt hstart) hend

end Laws

/-! ## The array -/

/-- The elements of a view on the calling PE. -/
def localSlice (a : UnsafeArrayInner) (r : MemoryRegion T) : List T :=
  (List.range a.numElemsLocal).map fun j => r.cell a.myPe (a.localAsMutPtr + j)

theorem length_localSlice (a : UnsafeArrayInner) (r : MemoryRegion T) :
    (localSlice a r).length = a.numElemsLocal := by
  rw [localSlice, List.length_map, List.length_range]

theorem LocalIter.laws (a : UnsafeArrayInner) (r : MemoryRegion T)
    (hlen : a.numElemsLocal ≤ a.size) (hsize : a.size ≤ 2 ^ 63) :
    Laws a.numElemsLocal (LocalIter.new a r 0 0) (localSlice a r) True True fun st p e =>
      st = ⟨a, r, min p a.numElemsLocal, min e a.numElemsLocal⟩ ∧ p ≤ e := by
  have hlength := length_localSlice a r
  refine ⟨restarts, by omega, by rw [hlength]; rfl, fun start cnt _ => ⟨rfl, by omega⟩,
    fun hst => hst.2, ?_, ?_, ?_, ?_, ?_, fun _ _ => rfl, ?_, ?_, ?_⟩
  · rintro st p e ⟨rfl, _⟩ hlt hp
    refine ⟨r.cell a.myPe (a.localAsMutPtr + p), ⟨a, r, min (p + 1) a.numElemsLocal, _⟩, ?_, ?_,
      rfl, hlt⟩
    · rw [localSlice, List.getElem?_map, List.getElem?_range (by omega), Option.map_some]
    · simp only [next]
      rw [if_pos (by omega), Nat.min_eq_left (show p ≤ a.numElemsLocal by omega),
        Nat.min_eq_left (show p + 1 ≤ a.numElemsLocal by omega)]
  · rintro st e ⟨rfl, _⟩
    simp only [next]
    rw [if_neg (Nat.lt_irrefl _)]
  · rintro st p e _ ⟨rfl, _⟩ hp
    simp only [next]
    rw [if_neg (by omega)]
  · rintro st p e k ⟨rfl, _⟩ _ _ hk
    simp only [iteratorIndex]
    rw [if_pos (by omega)]
  · intro st
    simp only [next]
    split <;> rfl
  · rintro st p e t _ ⟨rfl, _⟩
    refine ⟨?_, by omega⟩
    simp only [advanceIndex, LocalIter.mk.injEq, true_and, and_true]
    omega
  · rintro st p e ⟨rfl, _⟩
    refine ⟨?_, by omega⟩
    simp only [advanceIndex, LocalIter.mk.injEq, true_and, and_true]
    omega
  · rintro st e t ⟨rfl, _⟩
    refine ⟨?_, by omega⟩
    simp only [advanceIndex, LocalIter.mk.injEq, true_and, and_true]
    omega

/-! ## The adaptors -/

section Adaptors

variable [IndexedLocalIterator I α] [IndexedLocalIterator J β] {it : I} {items : List α}
  {clips advances : Prop} {Ready : I → ℕ → ℕ → Prop}

theorem Laws.enumerate (h : Laws n it items clips advances Ready) (x : ℕ) :
    Laws n (Enumerate.new it x) (items.zipIdx.map Prod.swap) clips advances fun st p e =>
      Ready st.iter p e ∧ (p < e → st.curIndex = p) := by
  have hlength : (items.zipIdx.map Prod.swap).length = items.length := by
    rw [List.length_map, List.length_zipIdx]
  refine ⟨h.restarts.enumerate, hlength ▸ h.length_le, hlength ▸ h.elems, fun start cnt hs => ?_,
    fun hst => h.le hst.1, ?_, ?_, ?_, ?_, ?_, fun st t => h.index_advance st.iter t, ?_, ?_, ?_⟩
  · rw [hlength] at hs
    exact ⟨h.init start cnt hs, fun _ => rfl⟩
  · rintro st p e ⟨hst, hcur⟩ hlt hp
    rw [hlength] at hp
    obtain ⟨y, iter, hy, hnext, hst'⟩ := h.next_some hst hlt hp
    have hindex : iteratorIndex iter st.curIndex = some p := by
      have hkeep := h.index_next st.iter
      rw [hnext] at hkeep
      rw [hcur hlt, hkeep]
      exact h.index hst hlt hp hp
    refine ⟨(p, y), ⟨iter, st.curIndex + 1⟩, ?_, ?_, hst', fun _ => congrArg (· + 1) (hcur hlt)⟩
    · rw [List.getElem?_map, List.getElem?_zipIdx, hy, Nat.zero_add]
      rfl
    · simp only [next] at hnext ⊢
      simp only [hnext, hindex]
  · rintro st e ⟨hst, _⟩
    exact Enumerate.next_of_none (h.next_none hst)
  · rintro st p e hclips ⟨hst, _⟩ hp
    rw [hlength] at hp
    exact Enumerate.next_of_none (h.next_past hclips hst hp)
  · rintro st p e k ⟨hst, _⟩ hlt hp hk
    rw [hlength] at hp hk
    exact h.index hst hlt hp hk
  · intro st
    have hiter := Enumerate.next_iter st
    simp only [iteratorIndex]
    rw [hiter]
    exact h.index_next st.iter
  · rintro st p e t hadv ⟨hst, hcur⟩
    refine ⟨h.advance t hadv hst, fun hlt => ?_⟩
    have hp : p + t < e := by omega
    rw [Nat.min_eq_left hp.le]
    exact congrArg (· + t) (hcur (by omega))
  · rintro st p e ⟨hst, hcur⟩
    exact ⟨h.advance_zero hst, hcur⟩
  · rintro st e t ⟨hst, _⟩
    exact ⟨h.advance_end t hst, fun hlt => absurd hlt (Nat.lt_irrefl e)⟩

/-- A count that is `0`, or passes over everything. With any other count `elems` leaves out as
many positions at the end as `init` passes over at the start. -/
theorem Laws.skip (h : Laws n it items clips advances Ready) {m : ℕ}
    (hm : m = 0 ∨ m = items.length) (x : ℕ) :
    Laws n (Skip.new it m x) (items.drop m) (clips ∧ m = 0) advances fun st p e =>
      Ready st.iter p e ∧ st.skipCount = m ∧ st.skipOffset = 0 := by
  have hlength := List.length_drop (i := m) (l := items)
  have hle := h.length_le
  refine ⟨h.restarts.skip, by omega, ?_, fun start cnt hs => ?_, fun hst => h.le hst.1, ?_, ?_,
    ?_, ?_, ?_, fun st t => ?_, ?_, ?_, ?_⟩
  · have helems := h.elems
    simp only [LocalIterator.elems, Skip.new] at helems ⊢
    rw [helems, hlength]
    refine (if_pos (show m ≤ items.length by omega)).trans ?_
    rw [Nat.zero_max]
  · rw [hlength] at hs
    have hst := h.init start cnt (by omega)
    have hadv : min (max start m - start) cnt = 0 := by omega
    refine ⟨?_, rfl, hadv⟩
    simp only [LocalIterator.init, Skip.new, hadv] at hst ⊢
    exact h.advance_zero hst
  · rintro st p e ⟨hst, hcount, hoffset⟩ hlt hp
    rw [hlength] at hp
    obtain ⟨y, iter, hy, hnext, hst'⟩ := h.next_some hst hlt (by omega)
    refine ⟨y, { st with iter }, ?_, ?_, hst', hcount, hoffset⟩
    · rw [List.getElem?_drop, show m + p = p by omega, hy]
    · simp only [next] at hnext ⊢
      rw [hnext]
  · rintro st e ⟨hst, _⟩
    exact h.next_none hst
  · rintro st p e ⟨hclips, rfl⟩ ⟨hst, _⟩ hp
    exact h.next_past hclips hst hp
  · rintro st p e k ⟨hst, hcount, hoffset⟩ hlt hp hk
    rw [hlength] at hp hk
    have hindex := h.index hst hlt (show p < items.length by omega) (show k < items.length by omega)
    obtain rfl : m = 0 := by omega
    simp only [iteratorIndex] at hindex ⊢
    rw [hoffset, Nat.add_zero, hindex, hcount]
    dsimp only
    rw [isizeSub_of_lt (show k < 2 ^ 63 by omega) (by norm_num),
      if_neg (Nat.not_lt.mpr (Nat.zero_le (k + 2 ^ 63)))]
    simp only [Nat.cast_zero, sub_zero, Nat.cast_nonneg, if_true, Int.toNat_natCast]
  · intro st
    have hkeep := h.index_next st.iter
    simp only [iteratorIndex, next] at hkeep ⊢
    rw [hkeep]
  · have hkeep := h.index_advance st.iter t
    simp only [iteratorIndex, advanceIndex] at hkeep ⊢
    rw [hkeep]
  · rintro st p e t hadv ⟨hst, hrest⟩
    exact ⟨h.advance t hadv hst, hrest⟩
  · rintro st p e ⟨hst, hrest⟩
    exact ⟨h.advance_zero hst, hrest⟩
  · rintro st e t ⟨hst, hrest⟩
    exact ⟨h.advance_end t hst, hrest⟩

/-- `init` of `take` cuts the range at `m`; past that, the range below is used up. -/
theorem Laws.take (h : Laws n it items clips advances Ready) (m : ℕ) :
    Laws n (Take.new it m) (items.take m) (clips ∨ m ≤ items.length) advances fun st p e =>
      p ≤ e ∧ ∃ q e', Ready st.iter q e' ∧ (p < min e m → q = p ∧ e' = min e m) ∧
        (min e m ≤ p → q = e') := by
  have hlength := List.length_take (i := m) (l := items)
  have hle := h.length_le
  have hused {st : I} {q e' : ℕ} (hst : Ready st q e') (heq : q = e') : (next st).1 = none := by
    subst heq
    exact h.next_none hst
  refine ⟨h.restarts.take, by omega, ?_, fun start cnt hs => ?_, fun hst => hst.1, ?_, ?_, ?_,
    ?_, fun st => h.index_next st.iter, fun st t => h.index_advance st.iter t, ?_, ?_, ?_⟩
  · have helems := h.elems
    simp only [LocalIterator.elems, Take.new] at helems ⊢
    rw [helems, hlength, Nat.min_comm m]
    rfl
  · rw [hlength] at hs
    have hst := h.init (min start m) (min (min start m + cnt) m - min start m) (by omega)
    refine ⟨by omega, _, _, hst, fun hlt => ?_, fun hge => ?_⟩
    · omega
    · omega
  · rintro st p e ⟨_, q, e', hst, hin, _⟩ hlt hp
    rw [hlength] at hp
    obtain ⟨rfl, rfl⟩ := hin (by omega)
    obtain ⟨y, iter, hy, hnext, hst'⟩ := h.next_some hst (by omega) (by omega)
    refine ⟨y, { st with iter }, ?_, ?_, by omega, _, _, hst', fun _ => ⟨rfl, rfl⟩, fun _ => ?_⟩
    · rw [List.getElem?_take, if_pos (by omega), hy]
    · simp only [next] at hnext ⊢
      rw [hnext]
    · omega
  · rintro st e ⟨_, q, e', hst, _, hout⟩
    exact hused hst (hout (Nat.min_le_left e m))
  · rintro st p e hclips ⟨_, q, e', hst, hin, hout⟩ hp
    rw [hlength] at hp
    by_cases hlt : p < min e m
    · obtain ⟨rfl, rfl⟩ := hin hlt
      rcases hclips with hclips | hfit
      · exact h.next_past hclips hst (by omega)
      · omega
    · exact hused hst (hout (by omega))
  · rintro st p e k ⟨_, q, e', hst, hin, _⟩ hlt hp hk
    rw [hlength] at hp hk
    obtain ⟨rfl, rfl⟩ := hin (by omega)
    exact h.index hst (by omega) (by omega) (by omega)
  · rintro st p e t hadv ⟨hpe, q, e', hst, hin, hout⟩
    have hle := h.le hst
    refine ⟨by omega, _, _, h.advance t hadv hst, fun hlt => ?_, fun hge => ?_⟩
    · obtain ⟨rfl, rfl⟩ := hin (by omega)
      exact ⟨by omega, rfl⟩
    · by_cases hlt : p < min e m
      · obtain ⟨rfl, rfl⟩ := hin hlt
        omega
      · have heq := hout (by omega)
        omega
  · rintro st p e ⟨hpe, q, e', hst, hrest⟩
    exact ⟨hpe, q, e', h.advance_zero hst, hrest⟩
  · rintro st e t ⟨_, q, e', hst, _, hout⟩
    have heq := hout (Nat.min_le_left e m)
    subst heq
    exact ⟨Nat.le_refl e, q, q, h.advance_end t hst, fun hlt => absurd hlt (by omega),
      fun _ => rfl⟩

/-- Every range begins at a multiple of the step, so that `init` has nothing to pass over. -/
theorem StepBy.init_aligned (st : StepBy I) {start cnt : ℕ}
    (hindex : iteratorIndex (init st.iter (start * st.stepSize) (cnt * st.stepSize))
      (start * st.stepSize) = some (start * st.stepSize)) :
    init st start cnt = ⟨advanceIndex (init st.iter (start * st.stepSize) (cnt * st.stepSize)) 0,
      st.stepSize, 0⟩ := by
  have hstop : decide (start * st.stepSize % st.stepSize = 0) = true := by
    rw [decide_eq_true_eq, Nat.mul_mod_left]
  have hscan : scan _ (fun i => i % st.stepSize = 0) _ _ = _ := scan_found
    (len (init st.iter (start * st.stepSize) (cnt * st.stepSize))) hindex hstop
  simp only [init, StepBy.new] at hscan ⊢
  simp only [hscan, Nat.sub_self, Nat.lt_irrefl, if_false]

theorem Laws.stepBy (h : Laws n it items clips advances Ready) {s : ℕ} (hs : 0 < s)
    (hstep : s = 1 ∨ advances) (hcount : Binary32.ceilDiv items.length s = steps s items.length)
    (x : ℕ) :
    Laws n (StepBy.new it s x) (stepBy s items) clips (advances ∧ s = 1) fun st p e =>
      p ≤ e ∧ st.stepSize = s ∧ Ready st.iter (p * s) (e * s) ∧
        (p < e → p < steps s items.length → st.addOne = 0) := by
  obtain ⟨hlength, hget⟩ := stepBy_items hs items
  have hle := h.length_le
  have hsteps := steps_le hs items.length
  have hlt_iff (p : ℕ) := lt_steps_iff hs p items.length
  have hscale {p e : ℕ} (hlt : p < e) : p * s < e * s := Nat.mul_lt_mul_of_pos_right hlt hs
  refine ⟨h.restarts.stepBy, by omega, ?_, fun start cnt hs' => ?_, fun hst => hst.1, ?_, ?_, ?_,
    ?_, fun st => ?_, fun st t => ?_, ?_, ?_, ?_⟩
  · have helems := h.elems
    simp only [LocalIterator.elems, StepBy.new] at helems ⊢
    rw [helems, hlength, ← hcount]
    rfl
  · rw [hlength] at hs'
    have hst := h.init (start * s) (cnt * s) ?_
    · rw [← Nat.add_mul] at hst
      by_cases hcnt : cnt = 0
      · subst hcnt
        obtain ⟨t, add, heq⟩ := StepBy.init_eq (StepBy.new it s x) start 0
        rw [heq]
        exact ⟨Nat.le_refl _, rfl, h.advance_end t hst, fun hlt => absurd hlt (by omega)⟩
      · have hlt : start < steps s items.length := by omega
        have hindex := h.index hst (hscale (by omega)) ((hlt_iff start).mp hlt)
          ((hlt_iff start).mp hlt)
        rw [StepBy.init_aligned (StepBy.new it s x) hindex]
        exact ⟨Nat.le_add_right _ _, rfl, h.advance_zero hst, fun _ _ => rfl⟩
    · rcases hs' with hlt | rfl
      · exact Or.inl ((hlt_iff start).mp hlt)
      · exact Or.inr (Nat.zero_mul s)
  · rintro st p e ⟨hpe, hsize, hst, hadd⟩ hlt hp
    rw [hlength] at hp
    obtain ⟨y, iter, hy, hnext, hst'⟩ := h.next_some hst (hscale hlt) ((hlt_iff p).mp hp)
    refine ⟨y, { st with iter := advanceIndex iter (st.stepSize - 1) }, ?_, ?_, hlt, hsize, ?_,
      fun _ _ => hadd hlt hp⟩
    · rw [hget p hp, hy]
    · simp only [next] at hnext ⊢
      rw [hnext]
    · have hmul : (p + 1) * s = p * s + s := Nat.succ_mul p s
      rw [hsize]
      rcases hstep with rfl | hadv
      · rw [hmul]
        exact h.advance_zero hst'
      · have hmoved := h.advance (s - 1) hadv hst'
        have hend := Nat.mul_le_mul_right s (show p + 1 ≤ e from hlt)
        rw [Nat.min_eq_left (by omega), show p * s + 1 + (s - 1) = (p + 1) * s by omega] at hmoved
        exact hmoved
  · rintro st e ⟨_, _, hst, _⟩
    exact h.next_none hst
  · rintro st p e hclips ⟨_, _, hst, _⟩ hp
    rw [hlength] at hp
    have hmul := (hlt_iff p).not.mp (by omega)
    exact h.next_past hclips hst (by omega)
  · rintro st p e k ⟨_, hsize, hst, hadd⟩ hlt hp hk
    rw [hlength] at hp hk
    have hindex := h.index hst (hscale hlt) ((hlt_iff p).mp hp) ((hlt_iff k).mp hk)
    simp only [iteratorIndex] at hindex ⊢
    rw [hsize, hindex, hadd hlt hp]
    dsimp only
    rw [Nat.mul_div_cancel k hs, Nat.add_zero]
  · have hkeep := (h.index_advance (next st.iter).2 (st.stepSize - 1)).trans (h.index_next st.iter)
    simp only [iteratorIndex, next] at hkeep ⊢
    rw [hkeep]
  · have hkeep := h.index_advance st.iter t
    simp only [iteratorIndex, advanceIndex] at hkeep ⊢
    rw [hkeep]
  · rintro st p e t ⟨hadv, rfl⟩ ⟨hpe, hsize, hst, hadd⟩
    have hmoved := h.advance t hadv hst
    rw [Nat.mul_one, Nat.mul_one] at hmoved
    refine ⟨by omega, hsize, ?_, fun hlt hp => hadd (by omega) (by omega)⟩
    rw [Nat.mul_one, Nat.mul_one]
    exact hmoved
  · rintro st p e ⟨hpe, hsize, hst, hadd⟩
    exact ⟨hpe, hsize, h.advance_zero hst, hadd⟩
  · rintro st e t ⟨hpe, hsize, hst, _⟩
    exact ⟨hpe, hsize, h.advance_end t hst, fun hlt => absurd hlt (Nat.lt_irrefl e)⟩

theorem Laws.zip {items' : List β} {clips' advances' : Prop} {Ready' : J → ℕ → ℕ → Prop}
    {it' : J} (h : Laws n it items clips advances Ready)
    (h' : Laws n it' items' clips' advances' Ready') :
    Laws n (Zip.new it it') (items.zip items')
      (clips ∧ items.length ≤ items'.length ∨ clips' ∧ items'.length ≤ items.length)
      (advances ∧ advances') fun st p e => Ready st.a p e ∧ Ready' st.b p e := by
  have hlength := @List.length_zip _ _ items items'
  have hle := h.length_le
  refine ⟨h.restarts.zip h'.restarts, by omega, ?_, fun start cnt hs => ?_, fun hst => h.le hst.1,
    ?_, fun hst => Zip.next_of_none (h.next_none hst.1), ?_, ?_, fun st => ?_,
    fun st t => h.index_advance st.a t, ?_, ?_, ?_⟩
  · have helems := h.elems
    have helems' := h'.elems
    simp only [LocalIterator.elems, Zip.new] at helems helems' ⊢
    rw [helems, helems', hlength]
    rfl
  · rw [hlength] at hs
    exact ⟨h.init start cnt (by omega), h'.init start cnt (by omega)⟩
  · rintro st p e ⟨hst, hst'⟩ hlt hp
    rw [hlength] at hp
    obtain ⟨x, a, hx, hnext, hready⟩ := h.next_some hst hlt (by omega)
    obtain ⟨y, b, hy, hnext', hready'⟩ := h'.next_some hst' hlt (by omega)
    refine ⟨(x, y), ⟨a, b⟩, ?_, ?_, hready, hready'⟩
    · rw [List.getElem?_zip_eq_some]
      exact ⟨hx, hy⟩
    · rw [Zip.next_of_some hnext, hnext']
      rfl
  · rintro st p e hclips ⟨hst, hst'⟩ hp
    rw [hlength] at hp
    rcases hcase : next st.a with ⟨_ | x, a⟩
    · exact Zip.next_of_none (by rw [hcase])
    · rw [Zip.next_of_some hcase, Option.map_eq_none_iff]
      rcases hclips with ⟨hclips, hshort⟩ | ⟨hclips, hshort⟩
      · have hnone := h.next_past hclips hst (by omega)
        rw [hcase] at hnone
        cases hnone
      · exact h'.next_past hclips hst' (by omega)
  · rintro st p e k ⟨hst, _⟩ hlt hp hk
    rw [hlength] at hp hk
    exact h.index hst hlt (by omega) (by omega)
  · have hkeep := h.index_next st.a
    rcases hcase : next st.a with ⟨_ | x, a⟩
    · rw [hcase] at hkeep
      simp only [iteratorIndex, next] at hcase hkeep ⊢
      rw [hcase]
      exact hkeep
    · rw [Zip.next_of_some hcase]
      rw [hcase] at hkeep
      exact hkeep
  · rintro st p e t ⟨hadv, hadv'⟩ ⟨hst, hst'⟩
    exact ⟨h.advance t hadv hst, h'.advance t hadv' hst'⟩
  · rintro st p e ⟨hst, hst'⟩
    exact ⟨h.advance_zero hst, h'.advance_zero hst'⟩
  · rintro st e t ⟨hst, hst'⟩
    exact ⟨h.advance_end t hst, h'.advance_end t hst'⟩

/-- A chunk takes a range of its own, which goes past the last item where that does not end a
chunk. -/
theorem Laws.chunks (h : Laws n it items clips advances Ready) {c : ℕ} (hc : 0 < c)
    (hfit : clips ∨ c ∣ items.length) (x y : ℕ) :
    Laws n (Chunks.new it x y c) (chunks c items) False True fun st p e =>
      p ≤ e ∧ st.curI = p ∧ st.endI = e ∧ st.chunkSize = c ∧
        (∀ start cnt, LocalIterator.init st.iter start cnt = LocalIterator.init it start cnt) ∧
        (p < e → p < steps c items.length →
          ∀ k < items.length, iteratorIndex st.iter k = some k) := by
  have hlength := length_chunks c items
  have hle := h.length_le
  have hsteps := steps_le hc items.length
  have hlt_iff (p : ℕ) := lt_steps_iff hc p items.length
  refine ⟨h.restarts.chunks, by omega, ?_, fun start cnt hs => ?_, fun hst => hst.1, ?_, ?_,
    fun hclips => hclips.elim, ?_, fun st => ?_, fun st t => rfl, ?_, ?_, ?_⟩
  · have helems := h.elems
    simp only [LocalIterator.elems, Chunks.new] at helems ⊢
    rw [helems, hlength, steps_eq hc]
    rfl
  · rw [hlength] at hs
    refine ⟨Nat.le_add_right _ _, rfl, rfl, rfl, fun _ _ => h.restarts.init_init _ _ _ _ _,
      fun hlt hp k hk => ?_⟩
    have hst := h.init (start * c) ((start + cnt) * c) (Or.inl ((hlt_iff start).mp hp))
    have hpos : 0 < (start + cnt) * c := Nat.mul_pos (by omega) hc
    exact h.index hst (by omega) ((hlt_iff start).mp hp) hk
  · rintro st p e ⟨_, rfl, rfl, rfl, hinit, hindex⟩ hlt hp
    rw [hlength] at hp
    have hstart := (hlt_iff st.curI).mp hp
    have hrange : clips ∨ st.curI * st.chunkSize + st.chunkSize ≤ items.length := by
      rcases hfit with hclips | ⟨m, hm⟩
      · exact Or.inl hclips
      · right
        rw [hm, Nat.mul_comm] at hstart ⊢
        have hlt := Nat.lt_of_mul_lt_mul_left hstart
        rw [← Nat.mul_succ]
        exact Nat.mul_le_mul_left _ hlt
    have hdrains := h.drains (Or.inl hstart) hrange
    refine ⟨_, { st with curI := st.curI + 1 }, getElem?_chunks hp, ?_, hlt, rfl, rfl, rfl, hinit,
      fun _ _ => hindex hlt hp⟩
    simp only [next]
    rw [if_pos hlt, hinit]
    rw [hdrains.drain_eq hdrains.length_le]
  · rintro st e ⟨_, hcur, hend, _⟩
    simp only [next]
    rw [if_neg (by omega)]
  · rintro st p e k ⟨_, _, _, _, _, hindex⟩ hlt hp hk
    rw [hlength] at hp hk
    exact hindex hlt hp k (by omega)
  · simp only [next]
    split <;> rfl
  · rintro st p e t _ ⟨hpe, rfl, rfl, hsize, hinit, hindex⟩
    exact ⟨by omega, rfl, rfl, hsize, hinit, fun hlt hp => hindex (by omega) (by omega)⟩
  · rintro st p e ⟨hpe, rfl, rfl, hsize, hinit, hindex⟩
    refine ⟨hpe, ?_, rfl, hsize, hinit, hindex⟩
    simp only [advanceIndex]
    omega
  · rintro st e t ⟨_, hcur, hend, hsize, hinit, _⟩
    refine ⟨Nat.le_refl e, ?_, hend, hsize, hinit, fun hlt => absurd hlt (Nat.lt_irrefl e)⟩
    simp only [advanceIndex]
    omega

end Adaptors

end Lamellar.LocalIterator
