import Lamellar.DistributedIterator.Chains

/-!
# `step_by` on distributed iterators

`init` of `step_by` searches the first position whose place is a multiple of the step, and
`next` then goes on by `step` local positions. On a block distribution neighbouring positions
have neighbouring places, so this visits every selected position. On a cyclic one the places
of neighbouring positions are the number of PEs apart, and selected positions may be closer
together than `step`, or never come. Where the search ends without a position, `init` advances
by `cnt` positions only, and the rest of the range is handed out. `visits_iff` says which
ranges come out right.
-/

namespace Lamellar.DistributedIterator

open Lamellar.Array Lamellar.Draining

variable {T I α : Type} {N : Numbering} {lower upper : ℕ} {value : ℕ → Option α}

namespace Numbering

/-- The first position whose index is not below `upper`. -/
def stop (N : Numbering) (upper : ℕ) : ℕ := (upper - N.first + N.stride - 1) / N.stride

theorem glob_lt_iff (N : Numbering) (upper j : ℕ) : N.glob j < upper ↔ j < N.stop upper := by
  have hpos := N.stride_pos
  have hdiv : j < N.stop upper ↔ (j + 1) * N.stride ≤ upper - N.first + N.stride - 1 :=
    Nat.le_div_iff_mul_le hpos
  unfold glob
  rw [hdiv, Nat.succ_mul]
  omega

theorem glob_add (N : Numbering) (j t : ℕ) : N.glob (j + t) = N.glob j + t * N.stride := by
  unfold glob
  rw [Nat.add_mul]
  omega

end Numbering

/-- Where a range with first kept position `p` and count `cnt` begins: at the first position
whose place is a multiple of `s`, or, if the search finds none, at `p + cnt`. -/
def Begins (N : Numbering) (lower upper s cnt p start : ℕ) : Prop :=
  (p ≤ start ∧ N.glob start < upper ∧ s ∣ N.glob start - lower ∧
    ∀ j, p ≤ j → j < start → ¬ s ∣ N.glob j - lower) ∨
  (start = p + cnt ∧ ∀ j, p ≤ j → N.glob j < upper → ¬ s ∣ N.glob j - lower)

/-- The positions of a range `(a, cnt)` that the chain below keeps are `[p, e)`, and the range
begins at `start`. -/
structure Span (N : Numbering) (lower upper s : ℕ) (rng : ℕ × ℕ) (p start e : ℕ) : Prop where
  count : e ≤ N.count
  le : p ≤ start
  kept (j : ℕ) : p ≤ j ∧ j < e ↔ rng.1 * s ≤ j ∧ j < (rng.1 + rng.2) * s ∧ j < N.count ∧
    lower ≤ N.glob j ∧ N.glob j < upper
  begins : p < e → Begins N lower upper s rng.2 p start

/-- The number that a following `enumerate` gives position `j`. -/
def numberAt (N : Numbering) (lower s p start j : ℕ) : ℕ :=
  (N.glob (p + (j - start)) - lower) / s + if p < start then 1 else 0

section Range

variable [IndexedDistributedIterator I α] {it : I} {Ready : I → ℕ → ℕ → ℕ → Prop}

theorem init_stepBy (it : I) (s x a cnt : ℕ) :
    DistributedIterator.init (StepBy.new it s x) a cnt =
      match scan (iteratorIndex (DistributedIterator.init it (a * s) (cnt * s)))
        (fun i => i % s = 0) (DistributedIterator.size (DistributedIterator.init it (a * s)
          (cnt * s))) (a * s) with
      | (i, true) => ⟨advanceIndex (DistributedIterator.init it (a * s) (cnt * s)) (i - a * s), s,
          if 0 < i - a * s then 1 else 0⟩
      | (i, false) => ⟨advanceIndex (DistributedIterator.init it (a * s) (cnt * s)) cnt, s,
          if a * s < i then 1 else 0⟩ := rfl

/-- `init` of `step_by` moves the range below to where it begins. -/
theorem Laws.init_stepBy (h : Laws N it lower upper value Ready) (s x : ℕ) {a cnt p e : ℕ}
    (hready : Ready (DistributedIterator.init it (a * s) (cnt * s)) (a * s) p e)
    (hend : p < e → e ≤ p + cnt * s ∧ lower ≤ N.glob p) :
    ∃ start add t, DistributedIterator.init (StepBy.new it s x) a cnt =
        ⟨advanceIndex (DistributedIterator.init it (a * s) (cnt * s)) t, s, add⟩ ∧
      p ≤ start ∧ (p < e → t = start - p ∧ Begins N lower upper s cnt p start ∧
        (N.glob p < upper → add = if p < start then 1 else 0)) := by
  by_cases hlt : p < e
  · have hle := hend hlt
    have hcnt : 0 < cnt := by
      rcases Nat.eq_zero_or_pos cnt with rfl | hpos
      · rw [Nat.zero_mul] at hle
        omega
      · exact hpos
    obtain ⟨k, hpast, hlast⟩ := h.search hready hlt hle.2 fun i => i % s = 0
    have hbelow (j : ℕ) (hge : p ≤ j) (hj : j < p + k) : ¬ s ∣ N.glob j - lower := by
      obtain ⟨_, hstop⟩ := hpast (j - p) (by omega)
      rw [Nat.add_sub_cancel' hge, decide_eq_false_iff_not] at hstop
      rwa [Nat.dvd_iff_mod_eq_zero]
    rw [DistributedIterator.init_stepBy]
    rcases hlast with ⟨hfound, hup, hstop⟩ | ⟨hended, hup⟩
    · rw [decide_eq_true_eq, ← Nat.dvd_iff_mod_eq_zero] at hstop
      refine ⟨p + k, if 0 < k then 1 else 0, k, ?_, Nat.le_add_right _ _, fun _ =>
        ⟨by omega, Or.inl ⟨Nat.le_add_right _ _, hup, hstop, hbelow⟩, fun _ => ?_⟩⟩
      · rw [hfound]
        simp only [Nat.add_sub_cancel_left]
      · congr 1
        simp only [Nat.lt_add_right_iff_pos]
    · refine ⟨p + cnt, if a * s < a * s + k then 1 else 0, cnt, ?_, Nat.le_add_right _ _, fun _ =>
        ⟨by omega, Or.inr ⟨rfl, fun j hge hj => ?_⟩, fun hin => ?_⟩⟩
      · rw [hended]
      · refine hbelow j hge ?_
        by_contra hout
        have hglob := N.glob_le (show p + k ≤ j by omega)
        omega
      · have hk : 0 < k := by
          by_contra hzero
          rw [show k = 0 by omega, Nat.add_zero] at hup
          omega
        rw [if_pos (show a * s < a * s + k by omega), if_pos (show p < p + cnt by omega)]
  · rw [DistributedIterator.init_stepBy]
    split
    · exact ⟨p, _, _, rfl, Nat.le_refl _, fun hin => absurd hin hlt⟩
    · exact ⟨p, _, _, rfl, Nat.le_refl _, fun hin => absurd hin hlt⟩

/-- The iterators of `step_by` on one range, after `i` items. -/
def Stepped (Ready : I → ℕ → ℕ → ℕ → Prop) (index : ℕ → Option ℕ) (s add start e i : ℕ)
    (st : StepBy I) : Prop :=
  st.stepSize = s ∧ st.addOne = add ∧ iteratorIndex st.iter = index ∧
    ∃ q, Ready st.iter q (min (start + i * s) e) e

theorem Laws.stepped_some (h : Laws N it lower upper value Ready) {index : ℕ → Option ℕ}
    {s add start e i : ℕ} (hs : 0 < s) {st : StepBy I}
    (hst : Stepped Ready index s add start e i st) (hlow : lower ≤ N.glob start)
    (hlt : start + i * s < min e (N.stop upper)) :
    ∃ st' x, value (N.glob (start + i * s)) = some x ∧ next st = (some x, st') ∧
      Stepped Ready index s add start e (i + 1) st' := by
  obtain ⟨hsize, hadd, hindex, q, hready⟩ := hst
  rw [Nat.min_eq_left (by omega)] at hready
  have hglob := N.glob_le (Nat.le_add_right start (i * s))
  obtain ⟨x, s', hx, hnext, hready'⟩ := h.next_some hready (by omega) (by omega)
    ((N.glob_lt_iff upper _).mpr (by omega))
  refine ⟨{ st with iter := advanceIndex s' (st.stepSize - 1) }, x, hx, ?_, hsize, hadd, ?_,
    q + 1 + (s - 1), ?_⟩
  · simp only [DistributedIterator.next, hnext]
  · have hkeep := h.index_next st.iter
    rw [hnext] at hkeep
    rw [h.index_advance, hkeep, hindex]
  · have hadvance := h.advance (s - 1) hready'
    rw [show start + i * s + 1 + (s - 1) = start + (i + 1) * s by rw [Nat.succ_mul]; omega]
      at hadvance
    rw [hsize]
    exact hadvance

theorem Laws.stepped_none (h : Laws N it lower upper value Ready) {index : ℕ → Option ℕ}
    {s add start e i : ℕ} {st : StepBy I} (hst : Stepped Ready index s add start e i st)
    (hle : min e (N.stop upper) ≤ start + i * s) : (next st).1 = none := by
  obtain ⟨_, _, _, q, hready⟩ := hst
  have hnone := h.next_none hready ?_
  · rcases hnext : next st.iter with ⟨x, s'⟩
    rw [hnext] at hnone
    cases hnone
    simp only [DistributedIterator.next, hnext]
  · by_cases hend : e ≤ start + i * s
    · exact Or.inl (by omega)
    · right
      rw [Nat.min_eq_left (by omega)]
      have hiff := (N.glob_lt_iff upper (start + i * s)).not.mpr (by omega)
      omega

/-- The first iterator of `step_by` on a range. -/
theorem Laws.stepped_init (h : Laws N it lower upper value Ready) {s a cnt p e start add t : ℕ}
    (hready : Ready (DistributedIterator.init it (a * s) (cnt * s)) (a * s) p e)
    (hle : p ≤ start) (ht : p < e → t = start - p) :
    Stepped Ready (iteratorIndex (DistributedIterator.init it (a * s) (cnt * s))) s add start e 0
      ⟨advanceIndex (DistributedIterator.init it (a * s) (cnt * s)) t, s, add⟩ := by
  have hpe := (h.le hready).1
  have hadvance := h.advance t hready
  refine ⟨rfl, rfl, h.index_advance _ _, a * s + t, ?_⟩
  have hpos : min (p + t) e = min (start + 0 * s) e := by
    by_cases hlt : p < e
    · rw [ht hlt]
      omega
    · omega
  rw [← hpos]
  exact hadvance

/-- `step_by` asks the chain below for the place of the unstepped position. -/
theorem Laws.stepped_index (h : Laws N it lower upper value Ready) {s add start a cnt p e i : ℕ}
    {st : StepBy I}
    (hready : Ready (DistributedIterator.init it (a * s) (cnt * s)) (a * s) p e) (hlt : p < e)
    (hst : Stepped Ready (iteratorIndex (DistributedIterator.init it (a * s) (cnt * s))) s add
      start e (i + 1) st)
    (hlow : lower ≤ N.glob p) (hup : N.glob (p + i * s) < upper) :
    iteratorIndex st (a + i) = some ((N.glob (p + i * s) - lower) / s + add) := by
  obtain ⟨hsize, hadd, hindex, _⟩ := hst
  have hglob := N.glob_le (Nat.le_add_right p (i * s))
  have hplace : iteratorIndex st.iter ((a + i) * st.stepSize) =
      some (N.glob (p + i * s) - lower) := by
    rw [hsize, hindex, Nat.add_mul, h.index hready hlt]
    exact if_pos ⟨by omega, hup⟩
  simp only [IndexedDistributedIterator.iteratorIndex] at hplace ⊢
  rw [hplace, hsize, hadd]

/-- One range of `step_by`, and of `enumerate` after it. Its kept positions are `[p, e)`; the
range goes from `start` on by the step, and position `j` gets the number `numberAt j`. -/
theorem Laws.stepBy_drains (h : Laws N it lower upper value Ready) {s : ℕ} (hs : 0 < s)
    (x y a cnt : ℕ) :
    ∃ p start e, Span N lower upper s (a, cnt) p start e ∧
      Drains next size (DistributedIterator.init (StepBy.new it s x) a cnt)
        ((List.range' start (e - start)).filterMap
          fun j => if s ∣ j - start then value (N.glob j) else none) ∧
      Drains next size (DistributedIterator.init (Enumerate.new (StepBy.new it s x) y) a cnt)
        ((List.range' start (e - start)).filterMap fun j => if s ∣ j - start then
          (value (N.glob j)).map fun v => (numberAt N lower s p start j, v) else none) := by
  obtain ⟨p, hready, hlow, hskip⟩ := h.init (a * s) (cnt * s)
  rw [← Nat.add_mul] at hready hlow
  generalize he : min ((a + cnt) * s) N.count = e at hready hlow
  have hle := h.le hready
  have hspan : (a + cnt) * s = a * s + cnt * s := Nat.add_mul a cnt s
  obtain ⟨start, add, t, hinit, hstart, hbegin⟩ := h.init_stepBy s x hready
    fun hlt => ⟨by have := hlow hlt; omega, (hlow hlt).2⟩
  have hfirst : Stepped Ready (iteratorIndex (DistributedIterator.init it (a * s) (cnt * s))) s add
      start e 0 ⟨advanceIndex (DistributedIterator.init it (a * s) (cnt * s)) t, s, add⟩ :=
    h.stepped_init hready hstart fun hlt => (hbegin hlt).1
  have hupper (j : ℕ) := N.glob_lt_iff upper j
  have hroom {i : ℕ} {st : StepBy I} (hst : Stepped Ready (iteratorIndex
      (DistributedIterator.init it (a * s) (cnt * s))) s add start e i st) :
      min e (N.stop upper) ≤ size st.iter := by
    obtain ⟨_, _, _, q, hst⟩ := hst
    have hcount := N.count_le_size
    rw [h.size_eq hst]
    omega
  -- an item is left only where some position was kept
  have hkept {i : ℕ} (hlt : start + i * s < min e (N.stop upper)) :
      p < e ∧ lower ≤ N.glob p ∧ N.glob (p + i * s) < upper ∧ N.glob p < upper := by
    have hpe : p < e := by omega
    exact ⟨hpe, (hlow hpe).2, (hupper _).mpr (by omega), (hupper _).mpr (by omega)⟩
  refine ⟨p, start, min e (N.stop upper), ⟨by omega, hstart, fun j => ⟨?_, ?_⟩, ?_⟩, ?_, ?_⟩
  · rintro ⟨hge, hlt⟩
    have hin := hlow (by omega)
    have hglob := N.glob_le hge
    dsimp only
    exact ⟨by omega, by omega, by omega, by omega, (hupper j).mpr (by omega)⟩
  · rintro ⟨hge, hlt, hcount, hlowj, hupj⟩
    dsimp only at hge hlt
    have hstop := (hupper j).mp hupj
    refine ⟨?_, by omega⟩
    by_contra hbefore
    exact hskip j hge (by omega) hcount ⟨hlowj, hupj⟩
  · intro hlt
    exact (hbegin (by omega)).2.1
  · rw [hinit]
    have hdrains : Drains next size _ _ := drains_steps (fun j => value (N.glob j))
      (Stepped Ready (iteratorIndex (DistributedIterator.init it (a * s) (cnt * s))) s add start e)
      (p := start) (e := min e (N.stop upper)) hs
      (fun i st hst hlt => ?_) (fun i st hst hend => h.stepped_none hst hend)
      (fun i st hst => hroom hst) (i := 0) rfl hfirst
    · rw [Nat.zero_mul, Nat.add_zero] at hdrains
      exact hdrains
    · have hglob := N.glob_le hstart
      have hin := hkept hlt
      obtain ⟨st', v, hv, hnext, hst'⟩ := h.stepped_some hs hst (by omega) hlt
      exact ⟨st', v, hv, hnext, hst'⟩
  · have hinit' : DistributedIterator.init (Enumerate.new (StepBy.new it s x) y) a cnt =
        ⟨⟨advanceIndex (DistributedIterator.init it (a * s) (cnt * s)) t, s, add⟩, a⟩ := by
      rw [← hinit]
      rfl
    rw [hinit']
    have hdrains : Drains next size (Enumerate.mk (StepBy.mk _ s add) a) _ := drains_steps
      (fun j => (value (N.glob j)).map fun v => (numberAt N lower s p start j, v))
      (fun i (st : Enumerate (StepBy I)) => Stepped Ready (iteratorIndex
        (DistributedIterator.init it (a * s) (cnt * s))) s add start e i st.iter ∧
          st.curIndex = a + i) (p := start) (e := min e (N.stop upper)) hs
      (fun i st hst hlt => ?_) (fun i st hst hend => ?_) (fun i st hst => hroom hst.1)
      (i := 0) rfl ⟨hfirst, Nat.add_zero a⟩
    · rw [Nat.zero_mul, Nat.add_zero] at hdrains
      exact hdrains
    · have hglob := N.glob_le hstart
      obtain ⟨hpe, hlowp, hupi, hupp⟩ := hkept hlt
      obtain ⟨iter', v, hv, hnext, hst'⟩ := h.stepped_some hs hst.1 (by omega) hlt
      have hindex := h.stepped_index hready hpe hst' hlowp hupi
      refine ⟨⟨iter', st.curIndex + 1⟩, (numberAt N lower s p start (start + i * s), v), ?_, ?_,
        hst', by simp only [hst.2, Nat.add_assoc]⟩
      · simp only [hv, Option.map_some]
      · unfold numberAt
        rw [Nat.add_sub_cancel_left, ← (hbegin hpe).2.2 hupp]
        rw [← hst.2] at hindex
        simp only [DistributedIterator.next] at hnext ⊢
        simp only [hnext, hindex]
    · have hnone := h.stepped_none hst.1 hend
      rcases hnext : next st.iter with ⟨o, iter'⟩
      rw [hnext] at hnone
      cases hnone
      simp only [DistributedIterator.next] at hnext ⊢
      simp only [hnext]

end Range

/-! ## Which ranges come out right -/

/-- Local position `j` of `pe`, with index `g`, is one of the range's positions and is kept by
the chain below. -/
def Kept (a : UnsafeArrayInner) (pe lower upper s : ℕ) (rng : ℕ × ℕ) (j g : ℕ) : Prop :=
  rng.1 * s ≤ j ∧ j < (rng.1 + rng.2) * s ∧ j < a.numElemsPe pe ∧
    (a.onPe pe).subarrayIndexFromLocal j = some g ∧ lower ≤ g ∧ g < upper

/-- What a range `(start, cnt)` of `step_by(s)` needs on `pe` for its items to be the ones at
the multiples of `s`, numbered rightly. -/
structure RangeOk (a : UnsafeArrayInner) (pe lower upper s : ℕ) (rng : ℕ × ℕ) : Prop where
  /-- The selected positions of the range are multiples of `s` apart. -/
  apart (j j' g g' : ℕ) : Kept a pe lower upper s rng j g → Kept a pe lower upper s rng j' g' →
    s ∣ g - lower → s ∣ g' - lower → j ≤ j' → s ∣ j' - j
  /-- Where no selected index follows, the range has at most `cnt` positions left. -/
  rest : (∀ j g, rng.1 * s ≤ j → (a.onPe pe).subarrayIndexFromLocal j = some g → lower ≤ g →
      g < upper → ¬ s ∣ g - lower) →
    ∀ j j' g g', Kept a pe lower upper s rng j g → Kept a pe lower upper s rng j' g' →
      j' < j + rng.2
  /-- At most one multiple of `s` is passed before the first selected position. -/
  numbered (j j' g g' : ℕ) : Kept a pe lower upper s rng j g →
    Kept a pe lower upper s rng j' g' → s ∣ g' - lower →
    (∀ i x, Kept a pe lower upper s rng i x → j ≤ i ∧ (i < j' → ¬ s ∣ x - lower)) →
    (g' - lower) / s ≤ (g - lower) / s + 1

/-- The range goes through the selected positions among the kept ones `[p, e)`, and numbers
them by their places. -/
def Visits (N : Numbering) (lower s p start e : ℕ) : Prop :=
  ∀ j, p ≤ j → j < e → ((start ≤ j ∧ s ∣ j - start) ↔ s ∣ N.glob j - lower) ∧
    (start ≤ j → s ∣ j - start → numberAt N lower s p start j = (N.glob j - lower) / s)

/-- The kept positions and the first visited one are determined by the range. -/
theorem Span.unique {s p start e p' start' e' : ℕ} {rng : ℕ × ℕ}
    (h : Span N lower upper s rng p start e) (h' : Span N lower upper s rng p' start' e')
    (hlt : p < e) : p = p' ∧ start = start' ∧ e = e' := by
  have hiff (j : ℕ) : p ≤ j ∧ j < e ↔ p' ≤ j ∧ j < e' := (h.kept j).trans (h'.kept j).symm
  have hfirst := (hiff p).mp ⟨Nat.le_refl _, hlt⟩
  have hfirst' := (hiff p').mpr ⟨Nat.le_refl _, by omega⟩
  have hlast := (hiff (e - 1)).mp ⟨by omega, by omega⟩
  have hlast' := (hiff (e' - 1)).mpr ⟨by omega, by omega⟩
  obtain rfl : p = p' := by omega
  refine ⟨rfl, ?_, by omega⟩
  rcases h.begins hlt with ⟨hge, hup, hsel, hbefore⟩ | ⟨heq, hnone⟩
  · rcases h'.begins (by omega) with ⟨hge', hup', hsel', hbefore'⟩ | ⟨_, hnone'⟩
    · by_contra hne
      rcases Nat.lt_or_gt_of_ne hne with hlt | hgt
      · exact hbefore' _ hge hlt hsel
      · exact hbefore _ hge' hgt hsel'
    · exact absurd hsel (hnone' _ hge hup)
  · rcases h'.begins (by omega) with ⟨hge', hup', hsel', _⟩ | ⟨heq', _⟩
    · exact absurd hsel' (hnone _ hge' hup')
    · rw [heq, heq']

/-- A range gives what `R` makes of its positions, if `R` drops those that are not kept and
those before `start`. -/
theorem Span.filterMap_eq {β : Type} {s p start e : ℕ} {rng : ℕ × ℕ}
    (h : Span N lower upper s rng p start e) {L R : ℕ → Option β}
    (hout : ∀ j, rng.1 * s ≤ j → j < (rng.1 + rng.2) * s → ¬ (p ≤ j ∧ j < e) → R j = none)
    (hbefore : ∀ j, p ≤ j → j < e → j < start → R j = none)
    (hin : ∀ j, start ≤ j → j < e → L j = R j) :
    (List.range' start (e - start)).filterMap L =
      (List.range' (rng.1 * s) (rng.2 * s)).filterMap R := by
  have hend := Nat.add_mul rng.1 rng.2 s
  have hle := h.le
  by_cases hlt : start < e
  · obtain ⟨hfirst, _⟩ := (h.kept start).mp ⟨hle, hlt⟩
    obtain ⟨_, hlast, _⟩ := (h.kept (e - 1)).mp ⟨by omega, by omega⟩
    rw [filterMap_range'_window (f := R) (p := start) (m := e - start) hfirst (by omega)]
    · refine List.filterMap_congr fun j hj => ?_
      obtain ⟨hge, hltj⟩ := List.mem_range'_1.mp hj
      exact hin j hge (by omega)
    · intro j hge hj
      by_cases hp : p ≤ j
      · exact hbefore j hp (by omega) hj
      · exact hout j hge (by omega) fun hboth => hp hboth.1
    · intro j hge hj
      exact hout j (by omega) (by omega) (by omega)
  · rw [show e - start = 0 by omega, filterMap_range'_eq_nil (f := R)]
    · rfl
    · intro j hge hj
      by_cases hkept : p ≤ j ∧ j < e
      · exact hbefore j hkept.1 hkept.2 (by omega)
      · exact hout j hge (by omega) hkept

theorem Span.kept_iff {a : UnsafeArrayInner} {pe : ℕ} {s p start e : ℕ} {rng : ℕ × ℕ}
    (h : Span N lower upper s rng p start e) (hN : Numbers a pe N) (hupper : upper ≤ a.size)
    (j g : ℕ) : Kept a pe lower upper s rng j g ↔ p ≤ j ∧ j < e ∧ g = N.glob j := by
  have hsize := hN.size
  unfold Kept
  rw [hN.index, ← hN.count, ← and_assoc (a := p ≤ j), h.kept j]
  constructor
  · rintro ⟨hge, hlt, hj, hg, hlow, hup⟩
    split at hg
    · cases hg
      exact ⟨⟨hge, hlt, hj, hlow, hup⟩, rfl⟩
    · cases hg
  · rintro ⟨⟨hge, hlt, hj, hlow, hup⟩, rfl⟩
    exact ⟨hge, hlt, hj, if_pos (by omega), hlow, hup⟩

theorem dvd_glob_add (N : Numbering) {lower s j j' : ℕ} (hle : j ≤ j') (hlow : lower ≤ N.glob j)
    (hdvd : s ∣ j' - j) : s ∣ N.glob j' - lower ↔ s ∣ N.glob j - lower := by
  have hglob : N.glob j' - lower = N.glob j - lower + (j' - j) * N.stride := by
    have hadd := N.glob_add j (j' - j)
    rw [Nat.add_sub_cancel' hle] at hadd
    omega
  rw [hglob, Nat.dvd_add_left (Dvd.dvd.mul_right hdvd _)]

/-- The number of a position is right if that of the first one is. -/
theorem numberAt_eq (N : Numbering) {lower s p start j : ℕ} (hs : 0 < s) (hlow : lower ≤ N.glob p)
    (hp : p ≤ start) (hle : start ≤ j) (hdvd : s ∣ j - start)
    (hfirst : (N.glob p - lower) / s + (if p < start then 1 else 0) =
      (N.glob start - lower) / s) :
    numberAt N lower s p start j = (N.glob j - lower) / s := by
  obtain ⟨k, hk⟩ := hdvd
  have hglob := N.glob_le hp
  have hleft : N.glob (p + (j - start)) - lower = N.glob p - lower + s * (k * N.stride) := by
    rw [N.glob_add, hk, Nat.mul_assoc]
    omega
  have hright : N.glob j - lower = N.glob start - lower + s * (k * N.stride) := by
    rw [show j = start + (j - start) by omega, N.glob_add, hk, Nat.mul_assoc]
    omega
  unfold numberAt
  rw [hleft, hright, Nat.add_mul_div_left _ _ hs, Nat.add_mul_div_left _ _ hs, ← hfirst]
  omega

theorem Span.visits_iff {a : UnsafeArrayInner} {pe : ℕ} {s p start e : ℕ} {rng : ℕ × ℕ}
    (h : Span N lower upper s rng p start e) (hN : Numbers a pe N) (hupper : upper ≤ a.size)
    (hs : 0 < s) : RangeOk a pe lower upper s rng ↔ Visits N lower s p start e := by
  have hkept := h.kept_iff hN hupper
  have hstart := h.le
  have hindex (j g : ℕ) (hg : (a.onPe pe).subarrayIndexFromLocal j = some g) : g = N.glob j := by
    rw [hN.index] at hg
    split at hg
    · exact (Option.some.inj hg).symm
    · cases hg
  have hin (j : ℕ) (hp : p ≤ j) (he : j < e) := (h.kept j).mp ⟨hp, he⟩
  have hsize := hN.size
  constructor
  · intro hok j hp he
    obtain ⟨_, _, _, hlow, _⟩ := hin p (Nat.le_refl _) (by omega)
    have hkp := (hkept p _).mpr ⟨Nat.le_refl _, by omega, rfl⟩
    have hkj := (hkept j _).mpr ⟨hp, he, rfl⟩
    rcases h.begins (by omega) with ⟨_, hup, hsel, hbefore⟩ | ⟨rfl, hnone⟩
    · by_cases hj : start ≤ j
      · have hks := (hkept start _).mpr ⟨hstart, by omega, rfl⟩
        have hlows := Nat.le_trans hlow (N.glob_le hstart)
        refine ⟨⟨fun h => (dvd_glob_add N hj hlows h.2).mpr hsel, fun h =>
          ⟨hj, hok.apart _ _ _ _ hks hkj hsel h hj⟩⟩, fun _ hdvd =>
          numberAt_eq N hs hlow hstart hj hdvd ?_⟩
        by_cases hps : p < start
        · have hnumber := hok.numbered p start _ _ hkp hks hsel fun i x hi => by
            obtain ⟨hpi, _, rfl⟩ := (hkept i x).mp hi
            exact ⟨hpi, hbefore i hpi⟩
          have hglob := N.glob_lt hps
          obtain ⟨k, hk⟩ := hsel
          rw [hk, Nat.mul_div_cancel_left _ hs] at hnumber ⊢
          have hlt : (N.glob p - lower) / s < k := Nat.div_lt_of_lt_mul (by omega)
          rw [if_pos hps]
          omega
        · rw [if_neg hps, show start = p by omega, Nat.add_zero]
      · exact ⟨⟨fun h => absurd h.1 hj, fun h => absurd h (hbefore j hp (by omega))⟩,
          fun h => absurd h hj⟩
    · have hrest := hok.rest ?_ p j _ _ hkp hkj
      · have hnot := hnone j hp (hin j hp he).2.2.2.2
        exact ⟨⟨fun h => absurd h.1 (by omega), fun h => absurd h hnot⟩,
          fun h => absurd h (by omega)⟩
      · intro i g hi hg hlowi hupi
        cases hindex i g hg
        refine hnone i ?_ hupi
        by_contra hlt
        have hcount := h.count
        obtain ⟨_, hpe, _⟩ := hin p (Nat.le_refl _) (by omega)
        have hpi := ((h.kept i).mpr ⟨hi, by omega, by omega, hlowi, hupi⟩).1
        omega
  · intro hvisits
    have hsel {j : ℕ} (hp : p ≤ j) (he : j < e) (hj : s ∣ N.glob j - lower) :
        start ≤ j ∧ s ∣ j - start := (hvisits j hp he).1.mpr hj
    -- a kept position at `start` is visited, hence selected
    have hself (he : start < e) : s ∣ N.glob start - lower := by
      refine (hvisits start hstart he).1.mp ⟨Nat.le_refl _, ?_⟩
      rw [Nat.sub_self]
      exact Nat.dvd_zero s
    refine ⟨?_, ?_, ?_⟩
    · intro j j' g g' hj hj' hg hg' hle
      obtain ⟨hp, he, rfl⟩ := (hkept j g).mp hj
      obtain ⟨hp', he', rfl⟩ := (hkept j' g').mp hj'
      obtain ⟨h₁, h₂⟩ := hsel hp he hg
      obtain ⟨_, h₃⟩ := hsel hp' he' hg'
      have hdiff := Nat.dvd_sub h₃ h₂
      rwa [show j' - start - (j - start) = j' - j by omega] at hdiff
    · intro hnone j j' g g' hj hj'
      obtain ⟨hp, he, rfl⟩ := (hkept j g).mp hj
      obtain ⟨hp', he', rfl⟩ := (hkept j' g').mp hj'
      have hnot (i : ℕ) (hpi : p ≤ i) (hup : N.glob i < upper) : ¬ s ∣ N.glob i - lower := by
        obtain ⟨hge, _, _, hlow, _⟩ := hin p (Nat.le_refl _) (by omega)
        have hglob := N.glob_le hpi
        exact hnone i _ (by omega) ((hN.index i).trans (if_pos (by omega))) (by omega) hup
      rcases h.begins (by omega) with ⟨_, hup, hdvd, _⟩ | ⟨heq, _⟩
      · exact absurd hdvd (hnot start hstart hup)
      · by_contra hfar
        have he₀ : start < e := by omega
        exact hnot start hstart (hin start hstart he₀).2.2.2.2 (hself he₀)
    · intro j j' g g' hj hj' hg' hfirst
      obtain ⟨hp, he, rfl⟩ := (hkept j g).mp hj
      obtain ⟨hp', he', rfl⟩ := (hkept j' g').mp hj'
      obtain ⟨hle, _⟩ := hsel hp' he' hg'
      have hks := (hkept start _).mpr ⟨hstart, by omega, rfl⟩
      have hkp := (hkept p _).mpr ⟨Nat.le_refl _, by omega, rfl⟩
      have hjp : j = p := by
        have := (hfirst p _ hkp).1
        omega
      have heq : j' = start := by
        by_contra hne
        exact (hfirst start _ hks).2 (by omega) (hself (by omega))
      subst hjp heq
      have hnumber := (hvisits _ hp' he').2 (Nat.le_refl _)
        (by rw [Nat.sub_self]; exact Nat.dvd_zero s)
      unfold numberAt at hnumber
      rw [Nat.sub_self, Nat.add_zero] at hnumber
      split at hnumber
      · omega
      · omega

end Lamellar.DistributedIterator
