import Lamellar.DistributedIterator.Stepping
import Lamellar.Lib.StandardIter

/-!
# Chains of distributed adaptors with `step_by`

The items of all PEs together are the ones at the multiples of the step, numbered `0, 1, 2`
and so on, whatever the view contains, if and only if every range of every PE is `RangeOk`
(`step_by_exact_iff`). In one direction the visited positions are the selected ones; in the
other, a view that marks one element shows where that element comes out, and with which
number.
-/

namespace Lamellar.DistributedIterator

open Lamellar.Array Lamellar.Draining Lamellar.StandardIter

variable {T I α β : Type} {a : UnsafeArrayInner} {len lower upper s : ℕ}

/-! ## The selected indices -/

/-- What `f` makes of the places of the selected indices. -/
def selectedAt (lower upper s : ℕ) (f : ℕ → Option β) (g : ℕ) : Option β :=
  if lower ≤ g ∧ g < upper ∧ s ∣ g - lower then f (g - lower) else none

theorem filterMap_selected (hs : 0 < s) {size n : ℕ} (hupper : upper ≤ size) {f : ℕ → Option β}
    (hn : upper - lower ≤ n * s) (hf : ∀ i, upper - lower ≤ i → f i = none) :
    (List.range n).filterMap (fun k => f (k * s)) =
      (List.range size).filterMap (selectedAt lower upper s f) := by
  rw [filterMap_range_mul hs, List.range_eq_range', List.range_eq_range']
  have hleft : (List.range' 0 (n * s)).filterMap (fun i => if s ∣ i then f i else none) =
      (List.range' 0 (upper - lower)).filterMap fun i => if s ∣ i then f i else none := by
    refine filterMap_range'_window (Nat.le_refl _) (by omega)
      (fun j _ hj => absurd hj (Nat.not_lt_zero j)) fun j hge _ => ?_
    rw [hf j (by omega), ite_self]
  rw [hleft]
  by_cases hlt : lower < upper
  · have hright : (List.range' 0 size).filterMap (selectedAt lower upper s f) =
        (List.range' lower (upper - lower)).filterMap (selectedAt lower upper s f) :=
      filterMap_range'_window (by omega) (by omega) (fun j _ hj => if_neg (by omega))
        fun j hge _ => if_neg (by omega)
    rw [hright, show lower = lower + 0 from rfl, ← List.map_add_range', List.filterMap_map]
    refine List.filterMap_congr fun i hi => ?_
    have hi := (List.mem_range'_1.mp hi).2
    simp only [Function.comp_apply, selectedAt, Nat.add_zero, Nat.add_sub_cancel_left]
    by_cases hdvd : s ∣ i
    · rw [if_pos hdvd, if_pos ⟨by omega, by omega, hdvd⟩]
    · rw [if_neg hdvd, if_neg fun h => hdvd h.2.2]
  · rw [show upper - lower = 0 by omega]
    exact (filterMap_range'_eq_nil fun j _ _ => if_neg (by omega)).symm

/-! ## The items of the standard adaptors -/

/-- The value of place `i` in the window. -/
def placed (lower upper : ℕ) (value : ℕ → Option α) (i : ℕ) : Option α :=
  if lower + i < upper then value (lower + i) else none

theorem Values.stepBy (hs : 0 < s) {value : ℕ → Option α} {items : List α}
    (h : Values lower upper value items) :
    Values 0 (steps s (upper - lower)) (fun k => placed lower upper value (k * s))
      (StandardIter.stepBy s items) := by
  have hget (k : ℕ) : items[k * s]? = placed lower upper value (k * s) := h.get (k * s)
  have hlength := h.length
  have hle : steps s (upper - lower) ≤ items.length := by
    rw [hlength]
    exact steps_le hs _
  have hitems : StandardIter.stepBy s items =
      (List.range (steps s (upper - lower))).filterMap
        fun k => placed lower upper value (k * s) := by
    unfold StandardIter.stepBy
    simp only [hget, List.range_eq_range']
    refine filterMap_range'_window (Nat.le_refl _) (by omega)
      (fun j _ hj => absurd hj (Nat.not_lt_zero j)) fun j hge _ => ?_
    have hmul := (lt_steps_iff hs j (upper - lower)).not.mp (by omega)
    exact if_neg (by omega)
  rw [hitems]
  refine values_of_some fun k hk => ?_
  have hmul := (lt_steps_iff hs k (upper - lower)).mp hk
  obtain ⟨x, hx⟩ := h.some (lower + k * s) (by omega) (by omega)
  exact ⟨x, (if_pos (by omega)).trans hx⟩

/-- The items at the multiples of the step, collected by their indices. -/
theorem Values.stepBy_eq (hs : 0 < s) {value : ℕ → Option α} {items : List α}
    (h : Values lower upper value items) {size : ℕ} (hupper : upper ≤ size) :
    StandardIter.stepBy s items = (List.range size).filterMap
      (selectedAt lower upper s (placed lower upper value)) := by
  rw [(h.stepBy hs).eq_filterMap (Nat.sub_zero _), ← List.range_eq_range']
  exact filterMap_selected hs hupper (le_steps_mul hs _) fun i hi => if_neg (by omega)

/-- The same items with their numbers. -/
theorem Values.stepBy_enumerate (hs : 0 < s) {value : ℕ → Option α} {items : List α}
    (h : Values lower upper value items) {size : ℕ} (hupper : upper ≤ size) :
    (StandardIter.stepBy s items).zipIdx.map Prod.swap = (List.range size).filterMap
      (selectedAt lower upper s fun i => (placed lower upper value i).map fun x => (i / s, x)) := by
  rw [(h.stepBy hs).enumerate.eq_filterMap (Nat.sub_zero _), ← List.range_eq_range',
    ← filterMap_selected hs hupper (n := steps s (upper - lower))]
  · refine List.filterMap_congr fun k _ => ?_
    simp only [Nat.sub_zero, Nat.mul_div_cancel k hs]
  · exact le_steps_mul hs _
  · intro i hi
    simp only [placed, if_neg (show ¬ lower + i < upper by omega), Option.map_none]

/-! ## Ranges that visit the selected positions -/

variable {N : Numbering}

/-- What a range hands out if it visits the selected positions. -/
theorem Span.filterMap_visits {p start e : ℕ} {rng : ℕ × ℕ}
    (h : Span N lower upper s rng p start e) (hvisits : Visits N lower s p start e)
    {l f : ℕ → Option β}
    (hl : ∀ j, start ≤ j → j < e → s ∣ j - start → l j = f (N.glob j - lower)) :
    (List.range' start (e - start)).filterMap (fun j => if s ∣ j - start then l j else none) =
      (List.range' (rng.1 * s) (rng.2 * s)).filterMap fun j =>
        if j < N.count then selectedAt lower upper s f (N.glob j) else none := by
  have hle := h.le
  refine h.filterMap_eq (fun j hge hlt hnot => ?_) (fun j hp he hlt => ?_) fun j hge he => ?_
  · by_cases hcount : j < N.count
    · rw [if_pos hcount]
      refine if_neg fun hsel => hnot ((h.kept j).mpr ⟨hge, hlt, hcount, hsel.1, hsel.2.1⟩)
    · exact if_neg hcount
  · have hnot := (hvisits j hp he).1.not.mp (by omega)
    rw [show selectedAt lower upper s f (N.glob j) = none from if_neg fun hsel => hnot hsel.2.2,
      ite_self]
  · have hp : p ≤ j := by omega
    obtain ⟨_, _, hcount, hlow, hup⟩ := (h.kept j).mp ⟨hp, he⟩
    have hiff := (hvisits j hp he).1
    unfold selectedAt
    rw [if_pos hcount]
    by_cases hdvd : s ∣ j - start
    · rw [if_pos hdvd, if_pos ⟨hlow, hup, hiff.mp ⟨hge, hdvd⟩⟩, hl j hge he hdvd]
    · rw [if_neg hdvd, if_neg fun hsel => hdvd (hiff.mpr hsel.2.2).2]

/-- Ranges in steps of `s` that hand out what `G` makes of their positions. -/
theorem exact_of_drains (h : a.WellFormed len) [DistributedIterator I α] {it : ℕ → I}
    {N : ℕ → Numbering} (hN : ∀ pe < a.numPes, Numbers a pe (N pe)) (G : ℕ → Option α)
    {parts : ℕ → List ℕ} (hcover : ∀ pe < a.numPes, a.numElemsPe pe ≤ (parts pe).sum * s)
    (hdrains : ∀ pe < a.numPes, ∀ rng ∈ rangesFrom 0 (parts pe),
      Drains next size (init (it pe) rng.1 rng.2)
        ((List.range' (rng.1 * s) (rng.2 * s)).filterMap
          fun j => if j < (N pe).count then G ((N pe).glob j) else none)) :
    Exact a.numPes it parts ((List.range a.size).filterMap G) := by
  refine ⟨_, hdrains, ?_⟩
  simp only [flatMap_rangesFrom_mul]
  exact perm_positions h hN G hcover

/-! ## A view that marks one element -/

/-- A region whose element at index `g` of the view is `x`, and no other one. -/
theorem exists_marked [Nontrivial T] (h : a.WellFormed len) {g : ℕ} (hg : g < a.size) :
    ∃ (r : MemoryRegion T) (x : T), a.element r g = some x ∧
      ∀ g' < a.size, a.element r g' = some x → g' = g := by
  obtain ⟨x, y, hne⟩ := exists_pair_ne T
  let slot (g : ℕ) : ℕ × ℕ := home a.distribution len a.numPes (a.offset + g)
  refine ⟨⟨0, fun pe i => if (pe, i) = slot g then x else y⟩, x, ?_, ?_⟩
  · simp only [UnsafeArrayInner.element, UnsafeArrayInner.physicalSlot_eq_home h hg,
      Option.bind_eq_bind, Option.bind_some, slot, Prod.mk.eta, if_true]
  · intro g' hg' heq
    simp only [UnsafeArrayInner.element, UnsafeArrayInner.physicalSlot_eq_home h hg',
      Option.bind_eq_bind, Option.bind_some, Option.some.injEq] at heq
    split at heq
    · rename_i hslot
      have hinj := home_injective h.pos h.le hslot
      omega
    · exact absurd heq.symm hne

theorem Numbers.glob_injective (h : a.WellFormed len) {pe pe' : ℕ} {N N' : Numbering}
    (hN : Numbers a pe N) (hN' : Numbers a pe' N') (hpe : pe < a.numPes) (hpe' : pe' < a.numPes)
    {j j' : ℕ} (hj : j < N.count) (hj' : j' < N'.count) (heq : N.glob j = N'.glob j') :
    pe = pe' ∧ j = j' := by
  have hcount := hN.count
  have hcount' := hN'.count
  have hmap := (UnsafeArrayInner.peAndOffset_of_local h hpe (show j < a.numElemsPe pe by omega)
    ((hN.index j).trans (if_pos (N.glob_lt_size hj)))).2
  have hmap' := (UnsafeArrayInner.peAndOffset_of_local h hpe'
    (show j' < a.numElemsPe pe' by omega)
    ((hN'.index j').trans (if_pos (N'.glob_lt_size hj')))).2
  rw [heq, hmap'] at hmap
  cases hmap
  exact ⟨rfl, rfl⟩

/-- The selected items with their numbers. -/
theorem mem_numbered_iff (hs : 0 < s) {value : ℕ → Option α} {items : List α}
    (h : Values lower upper value items) {size : ℕ} (hupper : upper ≤ size) (n : ℕ) (v : α) :
    (n, v) ∈ (stepBy s items).zipIdx.map Prod.swap ↔ ∃ g, lower ≤ g ∧ g < upper ∧
      s ∣ g - lower ∧ value g = some v ∧ n = (g - lower) / s := by
  rw [h.stepBy_enumerate hs hupper, List.mem_filterMap]
  constructor
  · rintro ⟨g, _, hg⟩
    unfold selectedAt at hg
    split at hg
    · rename_i hin
      obtain ⟨w, hw, heq⟩ := Option.map_eq_some_iff.mp hg
      unfold placed at hw
      rw [Nat.add_sub_cancel' hin.1, if_pos hin.2.1] at hw
      cases heq
      exact ⟨g, hin.1, hin.2.1, hin.2.2, hw, rfl⟩
    · cases hg
  · rintro ⟨g, hlow, hup, hdvd, hv, rfl⟩
    refine ⟨g, List.mem_range.mpr (by omega), ?_⟩
    unfold selectedAt placed
    rw [if_pos ⟨hlow, hup, hdvd⟩]
    dsimp only
    rw [Nat.add_sub_cancel' hlow, if_pos hup, hv]
    rfl

/-- The items of a range with their numbers. -/
theorem mem_range_iff {p start e : ℕ} {value : ℕ → Option α} (n : ℕ) (v : α) :
    (n, v) ∈ ((List.range' start (e - start)).filterMap fun j => if s ∣ j - start then
        (value (N.glob j)).map fun v => (numberAt N lower s p start j, v) else none) ↔
      ∃ j, start ≤ j ∧ j < e ∧ s ∣ j - start ∧ value (N.glob j) = some v ∧
        n = numberAt N lower s p start j := by
  rw [List.mem_filterMap]
  constructor
  · rintro ⟨j, hj, hv⟩
    obtain ⟨hge, hlt⟩ := List.mem_range'_1.mp hj
    split at hv
    · rename_i hdvd
      obtain ⟨w, hw, heq⟩ := Option.map_eq_some_iff.mp hv
      cases heq
      exact ⟨j, hge, by omega, hdvd, hw, rfl⟩
    · cases hv
  · rintro ⟨j, hge, hlt, hdvd, hv, rfl⟩
    refine ⟨j, List.mem_range'_1.mpr ⟨hge, by omega⟩, ?_⟩
    rw [if_pos hdvd, hv]
    rfl

/-! ## The ranges of `step_by` -/

section Ranges

variable {r : MemoryRegion T} [IndexedDistributedIterator I α] {it : ℕ → I} {items : List α}
  {skips : List (ℕ × ℕ)} {parts : ℕ → List ℕ}

/-- If every range is `RangeOk`, the items come out exactly, with and without their numbers. -/
theorem IndexedChain.exact_stepBy (h : a.WellFormed len) (hsize : a.size ≤ 2 ^ 63)
    (hit : IndexedChain a r it items skips lower upper) (hskips : CountsFit skips)
    (hs : 0 < s) (hcover : ∀ pe < a.numPes, a.numElemsPe pe ≤ (parts pe).sum * s)
    (hok : ∀ pe < a.numPes, ∀ rng ∈ rangesFrom 0 (parts pe), RangeOk a pe lower upper s rng) :
    Exact a.numPes (fun pe => StepBy.new (it pe) s 0) parts (stepBy s items) ∧
      Exact a.numPes (fun pe => Enumerate.new (StepBy.new (it pe) s 0) 0) parts
        ((stepBy s items).zipIdx.map Prod.swap) := by
  obtain ⟨N, hN⟩ := choose_numbers h
  obtain ⟨value, hupper, hvalues, _, hlaws⟩ := hit.laws h hsize hN hskips
  rw [hvalues.stepBy_enumerate hs hupper, hvalues.stepBy_eq hs hupper]
  -- the value of a kept position is the one placed there
  have hvalue {pe p start e j : ℕ} {rng : ℕ × ℕ}
      (hspan : Span (N pe) lower upper s rng p start e) (hge : start ≤ j) (he : j < e) :
      value ((N pe).glob j) = placed lower upper value ((N pe).glob j - lower) := by
    have hle := hspan.le
    obtain ⟨_, _, _, hlow, hup⟩ := (hspan.kept j).mp ⟨by omega, he⟩
    unfold placed
    rw [Nat.add_sub_cancel' hlow, if_pos hup]
  refine ⟨exact_of_drains h hN _ hcover fun pe hpe rng hrng => ?_,
    exact_of_drains h hN _ hcover fun pe hpe rng hrng => ?_⟩
  · obtain ⟨Ready, hready⟩ := hlaws pe hpe
    obtain ⟨p, start, e, hspan, hdrains, _⟩ := hready.stepBy_drains hs 0 0 rng.1 rng.2
    have hvisits := (hspan.visits_iff (hN pe hpe) hupper hs).mp (hok pe hpe rng hrng)
    rw [hspan.filterMap_visits hvisits fun j hge he _ => hvalue hspan hge he] at hdrains
    exact hdrains
  · obtain ⟨Ready, hready⟩ := hlaws pe hpe
    obtain ⟨p, start, e, hspan, _, hdrains⟩ := hready.stepBy_drains hs 0 0 rng.1 rng.2
    have hvisits := (hspan.visits_iff (hN pe hpe) hupper hs).mp (hok pe hpe rng hrng)
    have hle := hspan.le
    rw [hspan.filterMap_visits hvisits
      (f := fun i => (placed lower upper value i).map fun x => (i / s, x))
      fun j hge he hdvd => by
        rw [(hvisits j (by omega) he).2 hge hdvd, hvalue hspan hge he]] at hdrains
    exact hdrains

/-- If the items come out with the right numbers whatever the view contains, every range
visits the selected positions. -/
theorem rangeOk_of_exact [Nontrivial T] (h : a.WellFormed len) (hsize : a.size ≤ 2 ^ 63)
    {chain : MemoryRegion T → ℕ → I} {items : MemoryRegion T → List α}
    (hchain : ∀ r, IndexedChain a r (chain r) (items r) skips lower upper)
    (hskips : CountsFit skips) (hs : 0 < s)
    (hexact : ∀ r, Exact a.numPes (fun pe => Enumerate.new (StepBy.new (chain r pe) s 0) 0) parts
      ((stepBy s (items r)).zipIdx.map Prod.swap))
    {pe : ℕ} (hpe : pe < a.numPes) {rng : ℕ × ℕ} (hrng : rng ∈ rangesFrom 0 (parts pe)) :
    RangeOk a pe lower upper s rng := by
  obtain ⟨N, hN⟩ := choose_numbers h
  -- the range of a region, as positions
  have hrange (r : MemoryRegion T) : ∃ value, upper ≤ a.size ∧ Values lower upper value (items r) ∧
      ElementOf a r value ∧ ∀ pe < a.numPes, ∀ rng : ℕ × ℕ, ∃ p start e,
        Span (N pe) lower upper s rng p start e ∧ ∀ l,
          Drains next size (init (Enumerate.new (StepBy.new (chain r pe) s 0) 0) rng.1 rng.2) l →
          ∀ n v, (n, v) ∈ l ↔ ∃ j, start ≤ j ∧ j < e ∧ s ∣ j - start ∧
            value ((N pe).glob j) = some v ∧ n = numberAt (N pe) lower s p start j := by
    obtain ⟨value, hupper, hvalues, helement, hlaws⟩ := (hchain r).laws h hsize hN hskips
    refine ⟨value, hupper, hvalues, helement, fun pe hpe rng => ?_⟩
    obtain ⟨Ready, hready⟩ := hlaws pe hpe
    obtain ⟨p, start, e, hspan, _, hdrains⟩ := hready.stepBy_drains hs 0 0 rng.1 rng.2
    refine ⟨p, start, e, hspan, fun l hl n v => ?_⟩
    rw [hl.unique hdrains]
    exact mem_range_iff n v
  obtain ⟨x₀, _⟩ := exists_pair_ne T
  obtain ⟨_, hupper, _, _, hrun₀⟩ := hrange ⟨0, fun _ _ => x₀⟩
  obtain ⟨p, start, e, hspan, _⟩ := hrun₀ pe hpe rng
  rw [hspan.visits_iff (hN pe hpe) hupper hs]
  intro j hp he
  obtain ⟨hfirst, hlast, hj, hlow, hup⟩ := (hspan.kept j).mp ⟨hp, he⟩
  have hg : (N pe).glob j < a.size := by omega
  -- mark the element of position `j`
  obtain ⟨r, x, hmark, honly⟩ := exists_marked (T := T) h hg
  obtain ⟨value, _, hvalues, ⟨element, helement⟩, hrun⟩ := hrange r
  obtain ⟨out, hout, hperm⟩ := hexact r
  obtain ⟨v, hv⟩ := hvalues.some _ hlow hup
  have hx : element v = x := by
    have heq := helement _ _ hv
    rw [hmark] at heq
    exact (Option.some.inj heq).symm
  have hunique {g : ℕ} (hgsize : g < a.size) (hgv : value g = some v) : g = (N pe).glob j := by
    refine honly g hgsize ?_
    rw [helement _ _ hgv, hx]
  have hmem (n : ℕ) := mem_numbered_iff hs hvalues hupper n v
  have hvisited (hge : start ≤ j) (hdvd : s ∣ j - start) :
      s ∣ (N pe).glob j - lower ∧
        numberAt (N pe) lower s p start j = ((N pe).glob j - lower) / s := by
    obtain ⟨p', start', e', hspan', hitems⟩ := hrun pe hpe rng
    obtain ⟨rfl, rfl, rfl⟩ := hspan.unique hspan' (by omega)
    have hin := (hitems _ (hout pe hpe rng hrng) _ v).mpr ⟨j, hge, he, hdvd, hv, rfl⟩
    have hall := (hmem _).mp (hperm.mem_iff.mp (List.mem_flatMap.mpr ⟨pe, List.mem_range.mpr hpe,
      List.mem_flatMap.mpr ⟨rng, hrng, hin⟩⟩))
    obtain ⟨g, _, hgup, hgdvd, hgv, hnumber⟩ := hall
    cases hunique (by omega) hgv
    exact ⟨hgdvd, hnumber⟩
  refine ⟨⟨fun hin => (hvisited hin.1 hin.2).1, fun hdvd => ?_⟩,
    fun hge hdvd => (hvisited hge hdvd).2⟩
  have hin := hperm.mem_iff.mpr ((hmem _).mpr ⟨_, hlow, hup, hdvd, hv, rfl⟩)
  obtain ⟨pe', hpe', hin⟩ := List.mem_flatMap.mp hin
  obtain ⟨rng', hrng', hin⟩ := List.mem_flatMap.mp hin
  rw [List.mem_range] at hpe'
  obtain ⟨p', start', e', hspan', hitems⟩ := hrun pe' hpe' rng'
  obtain ⟨j', hge', he', hdvd', hv', _⟩ := (hitems _ (hout pe' hpe' rng' hrng') _ v).mp hin
  have hle' := hspan'.le
  obtain ⟨hfirst', hlast', hj', _, hup'⟩ := (hspan'.kept j').mp ⟨by omega, he'⟩
  obtain ⟨rfl, rfl⟩ := (hN pe' hpe').glob_injective h (hN pe hpe) hpe' hpe hj' hj
    (hunique (by omega) hv')
  have hin {rng : ℕ × ℕ} (hfirst : rng.1 * s ≤ j') (hlast : j' < (rng.1 + rng.2) * s) :
      rng.1 ≤ j' / s ∧ j' / s < rng.1 + rng.2 :=
    ⟨(Nat.le_div_iff_mul_le hs).mpr hfirst, (Nat.div_lt_iff_lt_mul hs).mpr hlast⟩
  obtain rfl := rangesFrom_unique hrng hrng' (hin hfirst hlast) (hin hfirst' hlast')
  obtain ⟨rfl, rfl, rfl⟩ := hspan.unique hspan' (by omega)
  exact ⟨hge', hdvd'⟩

/-- `step_by` on a chain of `enumerate`, `skip` and `take`, cut into consecutive ranges in any
way on each PE, computes in the range of its types and hands out the items at the multiples of
the step, and a following `enumerate` their numbers, whatever the view contains, if and only if
it computes in the range of its types and every range is `RangeOk`. -/
theorem step_by_exact_iff [Nontrivial T] (h : a.WellFormed len) (hsize : a.size ≤ 2 ^ 63)
    {chain : MemoryRegion T → ℕ → I} {items : MemoryRegion T → List α}
    (hchain : ∀ r, IndexedChain a r (chain r) (items r) skips lower upper)
    (hskips : CountsFit skips) (hs : 0 < s)
    (hparts : ∀ r, ∀ pe < a.numPes,
      (parts pe).sum = elems (StepBy.new (chain r pe) s 0) (a.numElemsPe pe)) :
    (∀ r, (Fits a.numPes (fun pe => StepBy.new (chain r pe) s 0) parts ∧
        Exact a.numPes (fun pe => StepBy.new (chain r pe) s 0) parts (stepBy s (items r))) ∧
      Fits a.numPes (fun pe => Enumerate.new (StepBy.new (chain r pe) s 0) 0) parts ∧
        Exact a.numPes (fun pe => Enumerate.new (StepBy.new (chain r pe) s 0) 0) parts
          ((stepBy s (items r)).zipIdx.map Prod.swap)) ↔
      (∀ r, Fits a.numPes (fun pe => StepBy.new (chain r pe) s 0) parts ∧
        Fits a.numPes (fun pe => Enumerate.new (StepBy.new (chain r pe) s 0) 0) parts) ∧
      ∀ pe < a.numPes, ∀ rng ∈ rangesFrom 0 (parts pe), RangeOk a pe lower upper s rng := by
  constructor
  · intro hexact
    refine ⟨fun r => ⟨(hexact r).1.1, (hexact r).2.1⟩, fun pe hpe rng hrng => ?_⟩
    exact rangeOk_of_exact h hsize hchain hskips hs (fun r => (hexact r).2.2) hpe hrng
  · rintro ⟨hfits, hok⟩ r
    have hcover (pe : ℕ) (hpe : pe < a.numPes) : a.numElemsPe pe ≤ (parts pe).sum * s := by
      obtain ⟨N, hN⟩ := choose_numbers h
      obtain ⟨_, _, _, _, hlaws⟩ := (hchain r).laws h hsize hN hskips
      obtain ⟨Ready, hready⟩ := hlaws pe hpe
      have hsum := hparts r pe hpe
      simp only [elems, StepBy.new] at hsum
      rw [hready.elems, Segments.ceil_ratio _ _ hs] at hsum
      rw [hsum]
      exact le_steps_mul hs _
    have hexact := (hchain r).exact_stepBy h hsize hskips hs hcover hok
    exact ⟨⟨(hfits r).1, hexact.1⟩, (hfits r).2, hexact.2⟩

end Ranges

/-- Four elements on two PEs of a block distribution, every other one: in the one range of
each PE, the first position is selected and the second is not. -/
theorem rangeOk_block {pe : ℕ} (hpe : pe < 2) :
    RangeOk (view 0 2 4 .block 0 4) pe 0 4 2 (0, 1) := by
  have hindex : ∀ pe < 2, ∀ j < 2,
      ((view 0 2 4 .block 0 4).onPe pe).subarrayIndexFromLocal j = some (2 * pe + j) := by
    decide +kernel
  have hkept {j g : ℕ} (h : Kept (view 0 2 4 .block 0 4) pe 0 4 2 (0, 1) j g) :
      j < 2 ∧ g = 2 * pe + j := by
    obtain ⟨_, hj, _, hg, _⟩ := h
    rw [hindex pe hpe j hj] at hg
    exact ⟨hj, (Option.some.inj hg).symm⟩
  refine ⟨fun j j' g g' hj hj' hg hg' _ => ?_, fun hnone => ?_, fun j j' g g' hj hj' _ _ => ?_⟩
  · obtain ⟨_, rfl⟩ := hkept hj
    obtain ⟨_, rfl⟩ := hkept hj'
    omega
  · exact absurd (by omega) (hnone 0 (2 * pe) (Nat.zero_le _) (hindex pe hpe 0 (by decide))
      (Nat.zero_le _) (by omega))
  · obtain ⟨_, rfl⟩ := hkept hj
    obtain ⟨_, rfl⟩ := hkept hj'
    omega

/-- These ranges compute with small numbers. -/
theorem fits_block (r : MemoryRegion T) :
    Fits 2 (fun pe => StepBy.new (DistIter.new ((view 0 2 4 .block 0 4).onPe pe) r 0 0) 2 0)
        (fun _ => [1]) ∧
      Fits 2 (fun pe => Enumerate.new (StepBy.new (DistIter.new
        ((view 0 2 4 .block 0 4).onPe pe) r 0 0) 2 0) 0) (fun _ => [1]) := by
  have hindex : ∀ pe < 2,
      ((view 0 2 4 .block 0 4).onPe pe).subarrayIndexFromLocal 0 = some (2 * pe) := by
    decide +kernel
  have hlocal : ∀ pe < 2, ((view 0 2 4 .block 0 4).onPe pe).numElemsLocal = 2 := by
    decide +kernel
  have hstart : ∀ pe < 2,
      ((view 0 2 4 .block 0 4).onPe pe).startIndexForPe pe = some (2 * pe) := by
    decide +kernel
  have hsize : (view 0 2 4 .block 0 4).size = 4 := rfl
  have hblock : (view 0 2 4 .block 0 4).distribution = .block := rfl
  refine ⟨fun pe hpe rng hrng => ?_, fun pe hpe rng hrng => ?_⟩
  · rw [List.mem_singleton.mp hrng]
    simp [rangeFits, initFits, init, scan, StepBy.new, DistIter.new, size, iteratorIndex,
      hindex pe hpe, hlocal pe hpe, searchFits, indexFits, advanceFits, hstart pe hpe, along,
      nextFits, next, advanceIndex, hsize, hblock, word]
    omega
  · rw [List.mem_singleton.mp hrng]
    simp [Enumerate.new, rangeFits, initFits, init, scan, StepBy.new, DistIter.new, size,
      iteratorIndex, hindex pe hpe, hlocal pe hpe, searchFits, indexFits, advanceFits,
      hstart pe hpe, along, nextFits, next, advanceIndex, hsize, hblock, word]
    omega

/-- Every other element of this view, holding its own indices. -/
theorem step_by_exact_iff_block :
    Exact 2 (fun pe => StepBy.new (DistIter.new ((view 0 2 4 .block 0 4).onPe pe)
        ⟨2, fun pe i => 2 * pe + i⟩ 0 0) 2 0) (fun _ => [1]) [0, 2] ∧
      Exact 2 (fun pe => Enumerate.new (StepBy.new (DistIter.new ((view 0 2 4 .block 0 4).onPe pe)
        ⟨2, fun pe i => 2 * pe + i⟩ 0 0) 2 0) 0) (fun _ => [1]) [(0, 0), (1, 2)] := by
  have hview : (view 0 2 4 .block 0 4).WellFormed 4 :=
    UnsafeArrayInner.view_wellFormed (by decide) (by decide) (by decide)
  have hcount : ∀ pe < 2, (view 0 2 4 .block 0 4).numElemsPe pe = 2 := by
    decide +kernel
  have hchain (r : MemoryRegion ℕ) : IndexedChain (view 0 2 4 .block 0 4) r
      (fun pe => DistIter.new ((view 0 2 4 .block 0 4).onPe pe) r 0 0)
      ((List.range 4).filterMap ((view 0 2 4 .block 0 4).element r)) [] 0 4 := .distIter
  have hiff := step_by_exact_iff (s := 2) hview (by decide) hchain (by decide)
    (by decide) fun r pe hpe => show [1].sum = _ by
      simp only [elems, StepBy.new, hcount pe hpe]
      decide +kernel
  have hexact := hiff.mpr ⟨fits_block, fun pe hpe rng hrng => by
    rw [List.mem_singleton.mp hrng]
    exact rangeOk_block hpe⟩ ⟨2, fun pe i => 2 * pe + i⟩
  have hitems : stepBy 2 ((List.range 4).filterMap ((view 0 2 4 .block 0 4).element
      ⟨2, fun pe i => 2 * pe + i⟩)) = [0, 2] := by
    decide +kernel
  rw [hitems] at hexact
  exact ⟨hexact.1.2, hexact.2.2⟩

/-- The PEs' copies of `step_by(2)` on four elements, placed cyclically on two PEs. -/
def everyOther (pe : ℕ) : StepBy (DistIter ℕ) :=
  StepBy.new (DistIter.new ((view 0 2 4 .cyclic 0 4).onPe pe) ⟨2, fun pe i => 2 * i + pe⟩ 0 0) 2 0

/-- The selected positions on the first PE are not two apart, and the second PE, which has no
selected position, hands out its last element: the items are `0` and `3` instead of `0` and
`2`. -/
theorem step_by_cyclic : ∃ items : List ℕ,
    IndexedChain (view 0 2 4 .cyclic 0 4) ⟨2, fun pe i => 2 * i + pe⟩ (fun pe =>
        DistIter.new ((view 0 2 4 .cyclic 0 4).onPe pe) ⟨2, fun pe i => 2 * i + pe⟩ 0 0) items []
        0 4 ∧
      (∀ pe < 2, [1].sum = elems (everyOther pe) ((view 0 2 4 .cyclic 0 4).numElemsPe pe)) ∧
      ¬ Exact 2 everyOther (fun _ => [1]) (stepBy 2 items) := by
  refine ⟨_, .distIter, by decide +kernel, ?_⟩
  rintro ⟨out, hout, hperm⟩
  have hthree : out 1 (0, 1) = [3] := (hout 1 (by decide) (0, 1) List.mem_cons_self).unique
    (.item rfl (by decide) (.done rfl))
  have hlist : stepBy 2 ((List.range 4).filterMap ((view 0 2 4 .cyclic 0 4).element
      ⟨2, fun pe i => 2 * i + pe⟩)) = [0, 2] := by
    decide +kernel
  have hmem : 3 ∈ stepBy 2 ((List.range 4).filterMap ((view 0 2 4 .cyclic 0 4).element
      ⟨2, fun pe i => 2 * i + pe⟩)) := by
    refine hperm.mem_iff.mp (List.mem_flatMap.mpr ⟨1, by decide, List.mem_flatMap.mpr
      ⟨(0, 1), List.mem_cons_self, ?_⟩⟩)
    rw [hthree]
    exact List.mem_cons_self
  rw [hlist] at hmem
  revert hmem
  decide

end Lamellar.DistributedIterator
