import Lamellar.DistributedIterator.Meaning

/-!
# The array, `enumerate`, `skip` and `take` keep the laws

The array hands out the elements of all indices; `enumerate` pairs an item with its place,
`skip` raises the lower end of the window and `take` lowers the upper one. The search of
`skip` starts at the first position of a range that the chain below keeps, and ends at the
first one it keeps itself, or where the iteration ends.
-/

namespace Lamellar.DistributedIterator

open Lamellar.Array Lamellar.Draining

variable {T I α : Type} {N : Numbering} {lower upper : ℕ} {value : ℕ → Option α}

/-! ## The array -/

def DistIter.Ready (it : DistIter T) (N : Numbering) (s : DistIter T) (q p e : ℕ) : Prop :=
  s.data = it.data ∧ s.mem = it.mem ∧ s.curI = p ∧ s.endI = e ∧ p ≤ e ∧ e ≤ N.count ∧
    (p < e → q = p)

theorem DistIter.laws (it : DistIter T) {element : ℕ → Option T}
    (hcount : N.count = it.data.numElemsLocal) (hsize : N.size = it.data.size)
    (hindex : ∀ j, it.data.subarrayIndexFromLocal j =
      if N.glob j < N.size then some (N.glob j) else none)
    (helement : ∀ j < N.count, element (N.glob j) =
      some (it.mem.cell it.data.myPe (it.data.localAsMutPtr + j))) :
    Laws N it 0 N.size element (it.Ready N) where
  upper_le := Nat.le_refl _
  elems _ := rfl
  init start cnt := by
    refine ⟨min start N.count, ⟨rfl, rfl, ?_, ?_, ?_, ?_, ?_⟩, ?_, ?_⟩
    · rw [hcount]
      rfl
    · rw [hcount]
      rfl
    · omega
    · omega
    · omega
    · intro hlt
      exact ⟨by omega, Nat.zero_le _⟩
    · intro j hge hlt
      omega
  le := by
    rintro s q p e ⟨_, _, _, _, hle, hend, _⟩
    exact ⟨hle, hend⟩
  size_eq := by
    rintro s q p e ⟨hdata, _⟩
    rw [hsize, ← hdata]
    rfl
  index := by
    rintro s q p e ⟨hdata, _, _, _, _, _, hq⟩ hlt t
    have hplace : iteratorIndex s (q + t) = it.data.subarrayIndexFromLocal (p + t) := by
      rw [hq hlt, ← hdata]
      rfl
    rw [hplace, hindex]
    simp only [place, Nat.zero_le, true_and, Nat.sub_zero]
  next_some := by
    rintro s q p e ⟨hdata, hmem, hcur, hend, hle, hcnt, hq⟩ hlt _ _
    refine ⟨_, { s with curI := s.curI + 1 }, helement p (by omega), ?_,
      hdata, hmem, by simp only [hcur], hend, hlt, hcnt, fun _ => by rw [hq hlt]⟩
    rw [← hdata, ← hmem, ← hcur]
    exact if_pos (by omega)
  next_none := by
    rintro s q p e ⟨hdata, hmem, hcur, hend, hle, hcnt, hq⟩ hout
    have hstop : ¬ s.curI < s.endI := by
      rcases hout with heq | hge
      · omega
      · intro hlt
        have hin := N.glob_lt_size (show p < N.count by omega)
        omega
    have hnext : next s = (none, s) := if_neg hstop
    rw [hnext]
  advance := by
    rintro s q p e t ⟨hdata, hmem, hcur, hend, hle, hcnt, hq⟩
    refine ⟨hdata, hmem, ?_, hend, by omega, hcnt, ?_⟩
    · rw [← hcur, ← hend]
      rfl
    · intro hlt
      have := hq (by omega)
      omega
  idle := by
    rintro s q e q' ⟨hdata, hmem, hcur, hend, hle, hcnt, hq⟩
    exact ⟨hdata, hmem, hcur, hend, hle, hcnt, fun hlt => absurd hlt (Nat.lt_irrefl _)⟩
  index_next s := by
    by_cases hlt : s.curI < s.endI
    · have hnext : (next s).2 = { s with curI := s.curI + 1 } := congrArg Prod.snd (if_pos hlt)
      rw [hnext]
      rfl
    · have hnext : (next s).2 = s := congrArg Prod.snd (if_neg hlt)
      rw [hnext]
  index_advance _ _ := rfl

variable [IndexedDistributedIterator I α] {it : I} {Ready : I → ℕ → ℕ → ℕ → Prop}

/-! ## Enumerate -/

theorem Laws.enumerate (h : Laws N it lower upper value Ready) (c : ℕ) :
    Laws N (Enumerate.new it c) lower upper (fun g => (value g).map fun x => (g - lower, x))
      fun s q p e => Ready s.iter q p e ∧ (p < e → s.curIndex = q) where
  upper_le := h.upper_le
  elems n := h.elems n
  init start cnt := by
    obtain ⟨p, hready, hlow, hskip⟩ := h.init start cnt
    exact ⟨p, ⟨hready, fun _ => rfl⟩, hlow, hskip⟩
  le hs := h.le hs.1
  size_eq hs := h.size_eq hs.1
  index hs hlt t := h.index hs.1 hlt t
  next_some := by
    rintro s q p e ⟨hs, hcur⟩ hlt hlow hup
    obtain ⟨x, s', hx, hnext, hs'⟩ := h.next_some hs hlt hlow hup
    have hplace : iteratorIndex s' s.curIndex = some (N.glob p - lower) := by
      have hkeep := h.index_next s.iter
      rw [hnext] at hkeep
      rw [hkeep, hcur hlt]
      have hindex := h.index hs hlt 0
      rw [Nat.add_zero, Nat.add_zero] at hindex
      rw [hindex]
      exact if_pos ⟨hlow, hup⟩
    refine ⟨(N.glob p - lower, x), ⟨s', s.curIndex + 1⟩, ?_, ?_, hs', fun _ => ?_⟩
    · simp only [hx, Option.map_some]
    · simp only [DistributedIterator.next, hnext, hplace]
    · rw [hcur hlt]
  next_none := by
    rintro s q p e ⟨hs, _⟩ hout
    have hnone := h.next_none hs hout
    rcases hnext : next s.iter with ⟨x, s'⟩
    rw [hnext] at hnone
    cases hnone
    simp only [DistributedIterator.next, hnext]
  advance := by
    rintro s q p e t ⟨hs, hcur⟩
    refine ⟨h.advance t hs, fun hlt => ?_⟩
    rw [← hcur (by omega)]
    rfl
  idle := by
    rintro s q e q' ⟨hs, _⟩
    exact ⟨h.idle q' hs, fun hlt => absurd hlt (Nat.lt_irrefl _)⟩
  index_next s := by
    funext index
    have hkeep := congrFun (h.index_next s.iter) index
    rcases hnext : next s.iter with ⟨x, s'⟩
    rw [hnext] at hkeep
    cases x with
    | none =>
      simp only [DistributedIterator.next, hnext, IndexedDistributedIterator.iteratorIndex]
      exact hkeep
    | some a =>
      cases hplace : iteratorIndex s' s.curIndex with
      | none =>
        simp only [DistributedIterator.next, hnext, hplace]
        exact hkeep
      | some i =>
        simp only [DistributedIterator.next, hnext, hplace]
        exact hkeep
  index_advance s t := h.index_advance s.iter t

/-! ## Skip -/

/-- The places below `2 ^ 63` are compared as naturals. -/
theorem isizeSub_eq {i n : ℕ} (hi : i < 2 ^ 63) (hn : n < 2 ^ 63) :
    isizeSub i n = (i : ℤ) - n := by
  rw [isizeSub_of_lt hi (by omega), if_neg (by omega)]

theorem place_eq_some {lower upper g x : ℕ} (h : place lower upper g = some x) :
    lower ≤ g ∧ g < upper ∧ x = g - lower := by
  unfold place at h
  split at h
  · rename_i hin
    cases h
    exact ⟨hin.1, hin.2, rfl⟩
  · cases h

theorem place_eq_none {lower upper g : ℕ} (h : place lower upper g = none) :
    ¬ (lower ≤ g ∧ g < upper) := by
  unfold place at h
  split at h
  · cases h
  · assumption

/-- Where a search leads. It finds the first position from `p` on whose place passes the test,
or it ends at a position past the window. -/
theorem Laws.search (h : Laws N it lower upper value Ready) {s : I} {q p e : ℕ}
    (hs : Ready s q p e) (hlt : p < e) (hlow : lower ≤ N.glob p) (stop : ℕ → Bool) :
    ∃ k, (∀ t < k, N.glob (p + t) < upper ∧ stop (N.glob (p + t) - lower) = false) ∧
      ((scan (iteratorIndex s) stop (size s) q = (q + k, true) ∧ N.glob (p + k) < upper ∧
          stop (N.glob (p + k) - lower) = true) ∨
        (scan (iteratorIndex s) stop (size s) q = (q + k, false) ∧ upper ≤ N.glob (p + k))) := by
  have hindex := h.index hs hlt
  have hend : iteratorIndex s (q + size s) = none := by
    rw [hindex, h.size_eq hs]
    have hglob := N.le_glob (p + N.size)
    have hup := h.upper_le
    exact if_neg (by omega)
  obtain ⟨k, hpast, hlast⟩ := scan_spec (iteratorIndex s) stop (size s) q hend
  refine ⟨k, ?_, ?_⟩
  · intro t ht
    obtain ⟨x, hx, hstop⟩ := hpast t ht
    rw [hindex] at hx
    obtain ⟨_, hup, rfl⟩ := place_eq_some hx
    exact ⟨hup, hstop⟩
  · rcases hlast with ⟨hfound, x, hx, hstop⟩ | ⟨hended, hnone⟩
    · rw [hindex] at hx
      obtain ⟨_, hup, rfl⟩ := place_eq_some hx
      exact Or.inl ⟨hfound, hup, hstop⟩
    · rw [hindex] at hnone
      have hout := place_eq_none hnone
      have hglob := N.glob_le (Nat.le_add_right p k)
      exact Or.inr ⟨hended, by omega⟩

theorem init_skip (it : I) (n c start len : ℕ) :
    DistributedIterator.init (Skip.new it n c) start len =
      match scan (iteratorIndex (DistributedIterator.init it start len))
        (fun i => 0 ≤ isizeSub i n)
        (DistributedIterator.size (DistributedIterator.init it start len)) start with
      | (i, true) =>
        ⟨advanceIndex (DistributedIterator.init it start len) (i - start), n, i - start⟩
      | (i, false) => ⟨advanceIndex (DistributedIterator.init it start len) len, n, i⟩ := rfl

/-- Of a chain without items nothing is compared with the count. -/
theorem Laws.skip (h : Laws N it lower upper value Ready) (hsize : N.size ≤ 2 ^ 63) {n : ℕ}
    (hn : n < 2 ^ 63 ∨ upper ≤ lower) (c : ℕ) :
    Laws N (Skip.new it n c) (lower + n) upper value
      fun s q p e => Ready s.iter (q + s.skipIndex) p e ∧ s.count = n where
  upper_le := h.upper_le
  elems m := by
    rw [show DistributedIterator.elems (Skip.new it n c) m =
      max 0 (DistributedIterator.elems it m) from rfl, h.elems, Nat.zero_max]
  init start cnt := by
    obtain ⟨p, hready, hlow, hskip⟩ := h.init start cnt
    have hupper := h.upper_le
    generalize he : min (start + cnt) N.count = e at hready hlow ⊢
    have hle := h.le hready
    -- an exhausted range stays so, wherever the search leads
    have hexhausted (t i : ℕ) (hend : e ≤ p + t) :
        Ready (advanceIndex (DistributedIterator.init it start cnt) t) (start + i) e e := by
      have hadvance := h.advance t hready
      rw [Nat.min_eq_right hend] at hadvance
      exact h.idle _ hadvance
    by_cases hlt : p < e
    · obtain ⟨hstart, hlowp⟩ := hlow hlt
      obtain ⟨k, hpast, hlast⟩ := h.search hready hlt hlowp fun i => 0 ≤ isizeSub i n
      have hbelow (t : ℕ) (ht : t < k) : N.glob (p + t) < lower + n := by
        obtain ⟨hup, hstop⟩ := hpast t ht
        have hglob := N.glob_le (Nat.le_add_right p t)
        rw [decide_eq_false_iff_not, isizeSub_eq (by omega) (by omega)] at hstop
        omega
      rcases hlast with ⟨hfound, hup, hstop⟩ | ⟨hended, hup⟩
      · have hglob := N.glob_le (Nat.le_add_right p k)
        rw [decide_eq_true_eq, isizeSub_eq (by omega) (by omega)] at hstop
        have hinit : DistributedIterator.init (Skip.new it n c) start cnt =
            ⟨advanceIndex (DistributedIterator.init it start cnt) k, n, k⟩ := by
          rw [init_skip, hfound]
          simp only [Nat.add_sub_cancel_left]
        rw [hinit]
        refine ⟨min (p + k) e, ⟨h.advance k hready, rfl⟩, ?_, ?_⟩
        · intro hin
          rw [Nat.min_eq_left (by omega)]
          exact ⟨by omega, by omega⟩
        · intro j hge hj hcount hin
          by_cases hjp : j < p
          · exact hskip j hge hjp hcount ⟨by omega, hin.2⟩
          · have hb := hbelow (j - p) (by omega)
            rw [Nat.add_sub_cancel' (by omega)] at hb
            omega
      · have hinit : DistributedIterator.init (Skip.new it n c) start cnt =
            ⟨advanceIndex (DistributedIterator.init it start cnt) cnt, n, start + k⟩ := by
          rw [init_skip, hended]
        rw [hinit]
        refine ⟨e, ⟨hexhausted cnt (start + k) (by omega), rfl⟩, fun hin =>
          absurd hin (Nat.lt_irrefl _), ?_⟩
        intro j hge hj hcount hin
        by_cases hjp : j < p
        · exact hskip j hge hjp hcount ⟨by omega, hin.2⟩
        · by_cases hjk : j < p + k
          · have hb := hbelow (j - p) (by omega)
            rw [Nat.add_sub_cancel' (by omega)] at hb
            omega
          · have hglob := N.glob_le (show p + k ≤ j by omega)
            omega
    · have hpe : p = e := by omega
      obtain ⟨t, i, hinit⟩ : ∃ t i, DistributedIterator.init (Skip.new it n c) start cnt =
          ⟨advanceIndex (DistributedIterator.init it start cnt) t, n, i⟩ := by
        rw [init_skip]
        split
        · exact ⟨_, _, rfl⟩
        · exact ⟨_, _, rfl⟩
      rw [hinit]
      refine ⟨e, ⟨hexhausted t i (by omega), rfl⟩, fun hin => absurd hin (Nat.lt_irrefl _), ?_⟩
      intro j hge hj hcount hin
      exact hskip j hge (by omega) hcount ⟨by omega, hin.2⟩
  le hs := h.le hs.1
  size_eq hs := h.size_eq hs.1
  index := by
    rintro s q p e ⟨hs, hcount⟩ hlt t
    have hupper := h.upper_le
    have hindex := h.index hs hlt t
    rw [Nat.add_right_comm] at hindex
    simp only [iteratorIndex] at hindex ⊢
    rw [hindex, hcount]
    unfold place
    by_cases hin : lower ≤ N.glob (p + t) ∧ N.glob (p + t) < upper
    · rw [if_pos hin]
      simp only [isizeSub_eq (show N.glob (p + t) - lower < 2 ^ 63 by omega)
        (show n < 2 ^ 63 by omega)]
      by_cases hskip : n ≤ N.glob (p + t) - lower
      · rw [if_pos (by omega), if_pos (by omega)]
        congr 1
        omega
      · rw [if_neg (by omega), if_neg (by omega)]
    · rw [if_neg hin, if_neg (by omega)]
  next_some := by
    rintro s q p e ⟨hs, hcount⟩ hlt hlow hup
    obtain ⟨x, s', hx, hnext, hs'⟩ := h.next_some hs hlt (by omega) hup
    refine ⟨x, { s with iter := s' }, hx, ?_, ?_, hcount⟩
    · simp only [DistributedIterator.next, hnext]
    · rw [Nat.add_right_comm] at hs'
      exact hs'
  next_none := by
    rintro s q p e ⟨hs, _⟩ hout
    have hnone := h.next_none hs hout
    simp only [DistributedIterator.next, hnone]
  advance := by
    rintro s q p e t ⟨hs, hcount⟩
    have hadvance := h.advance t hs
    rw [Nat.add_right_comm] at hadvance
    exact ⟨hadvance, hcount⟩
  idle := by
    rintro s q e q' ⟨hs, hcount⟩
    exact ⟨h.idle _ hs, hcount⟩
  index_next s := by
    funext index
    have hkeep := congrFun (h.index_next s.iter) (index + s.skipIndex)
    simp only [DistributedIterator.next, IndexedDistributedIterator.iteratorIndex] at hkeep ⊢
    rw [hkeep]
  index_advance s t := by
    funext index
    have hkeep := congrFun (h.index_advance s.iter t) (index + s.skipIndex)
    simp only [DistributedIterator.advanceIndex, IndexedDistributedIterator.iteratorIndex]
      at hkeep ⊢
    rw [hkeep]

/-- A count from `2 ^ 63` on is negative as an `isize`, so the first item of the chain below is not
dropped. -/
theorem Laws.skip_first (h : Laws N it lower upper value Ready) {n start cnt j : ℕ}
    (hn : 2 ^ 63 ≤ n) (hword : n < 2 ^ 64) (hstart : start ≤ j) (hend : j < start + cnt)
    (hcount : j < N.count) (hglob : N.glob j = lower) (hup : lower < upper)
    (hfits : rangeFits (Skip.new it n 0) start cnt) :
    ∃ x, (DistributedIterator.next (DistributedIterator.init (Skip.new it n 0) start cnt)).1 =
      some x := by
  obtain ⟨p, hready, hlow, hskip⟩ := h.init start cnt
  have hle := (h.le hready).1
  have hpj : p ≤ j := by
    by_contra hjp
    exact hskip j hstart (by omega) hcount (by omega)
  have hlt : p < min (start + cnt) N.count := by omega
  have hlowp := (hlow hlt).2
  obtain rfl : p = j := by
    by_contra hne
    have hbefore := N.glob_lt (show p < j by omega)
    omega
  have hindex := h.index hready hlt 0
  rw [Nat.add_zero, Nat.add_zero, place, if_pos ⟨hlowp, by omega⟩, hglob, Nat.sub_self] at hindex
  obtain ⟨k, hpast, hlast⟩ := h.search hready hlt hlowp fun i => 0 ≤ isizeSub i n
  -- the difference that the search computes at the first place, 0, is in range
  have hdifference : differenceFits (DistributedIterator.init it start cnt) n start := by
    simp only [rangeFits, DistributedIterator.initFits, searchFits, Skip.new, Bool.and_eq_true,
      List.all_eq_true] at hfits
    refine hfits.1.2.1.2 start (List.mem_range'_1.mpr ⟨Nat.le_refl _, ?_⟩)
    obtain ⟨found, hscan⟩ : ∃ found, scan (iteratorIndex (DistributedIterator.init it start cnt))
        (fun i => 0 ≤ isizeSub i n)
        (DistributedIterator.size (DistributedIterator.init it start cnt)) start =
          (start + k, found) :=
      hlast.elim (fun hfound => ⟨true, hfound.1⟩) fun hended => ⟨false, hended.1⟩
    exact (show start < start + (start + k + 1 - start) by omega).trans_eq
      (congrArg (fun i => start + (i.1 + 1 - start)) hscan.symm)
  have hlarge : 2 ^ 63 < n := by
    simp only [differenceFits, hindex, fitsIsize, asIsize, Option.all_some, Bool.and_eq_true]
      at hdifference
    have hrange := of_decide_eq_true hdifference.2
    rw [if_neg (by omega : ¬ n < 2 ^ 63)] at hrange
    norm_num at hrange
    omega
  have hkept : 0 ≤ isizeSub 0 n := by
    rw [isizeSub_of_lt (by decide) hword, if_pos (by omega)]
    omega
  have hinit : DistributedIterator.init (Skip.new it n 0) start cnt =
      ⟨advanceIndex (DistributedIterator.init it start cnt) 0, n, 0⟩ := by
    obtain ⟨fuel, hfuel⟩ : ∃ fuel,
        DistributedIterator.size (DistributedIterator.init it start cnt) = fuel + 1 :=
      ⟨N.size - 1, by rw [h.size_eq hready]; have := N.glob_lt_size hcount; omega⟩
    rw [init_skip, hfuel, scan_found fuel hindex (by simpa using hkept)]
    simp only [Nat.sub_self]
  obtain ⟨x, s', -, hnext, -⟩ := h.next_some (h.advance 0 hready) (by omega) (by
    rw [Nat.add_zero, Nat.min_eq_left hle]
    exact hlowp) (by
    rw [Nat.add_zero, Nat.min_eq_left hle]
    omega)
  refine ⟨x, ?_⟩
  rw [hinit]
  simp only [DistributedIterator.next, hnext]

/-! ## Take -/

theorem Laws.take (h : Laws N it lower upper value Ready) (n c : ℕ) :
    Laws N (Take.new it n c) lower (min upper (lower + n)) value
      fun s q p e => Ready s.iter q p e ∧ s.count = n ∧ (p < e → s.curIndex = q) where
  upper_le := Nat.le_trans (Nat.min_le_left _ _) h.upper_le
  elems m := by
    rw [show DistributedIterator.elems (Take.new it n c) m =
      max 0 (DistributedIterator.elems it m) from rfl, h.elems, Nat.zero_max]
  init start cnt := by
    obtain ⟨p, hready, hlow, hskip⟩ := h.init start cnt
    refine ⟨p, ⟨hready, rfl, fun _ => rfl⟩, hlow, ?_⟩
    intro j hge hj hcount hin
    exact hskip j hge hj hcount ⟨hin.1, by omega⟩
  le hs := h.le hs.1
  size_eq hs := h.size_eq hs.1
  index := by
    rintro s q p e ⟨hs, hcount, _⟩ hlt t
    have hplace : iteratorIndex s (q + t) = s.index (q + t) := rfl
    rw [hplace, Take.index, h.index hs hlt t, hcount]
    unfold place
    by_cases hin : lower ≤ N.glob (p + t) ∧ N.glob (p + t) < upper
    · rw [if_pos hin]
      by_cases htake : N.glob (p + t) - lower < n
      · rw [if_pos (show _ ∧ _ from ⟨hin.1, by omega⟩)]
        exact if_pos htake
      · rw [if_neg (show ¬ (_ ∧ _) by omega)]
        exact if_neg htake
    · rw [if_neg hin, if_neg (show ¬ (_ ∧ _) by omega)]
  next_some := by
    rintro s q p e ⟨hs, hcount, hcur⟩ hlt hlow hup
    obtain ⟨x, s', hx, hnext, hs'⟩ := h.next_some hs hlt hlow (by omega)
    have hindex := h.index hs hlt 0
    rw [Nat.add_zero, Nat.add_zero] at hindex
    have hplace : s.index s.curIndex = some (N.glob p - lower) := by
      unfold Take.index
      rw [hcur hlt, hindex, hcount]
      unfold place
      rw [if_pos (show _ ∧ _ from ⟨hlow, by omega⟩)]
      exact if_pos (by omega)
    refine ⟨x, { s with iter := s', curIndex := s.curIndex + 1 }, hx, ?_, hs', hcount, fun _ => ?_⟩
    · simp only [DistributedIterator.next, hplace, hcount, hnext]
      exact if_pos (by omega)
    · rw [hcur hlt]
  next_none := by
    rintro s q p e ⟨hs, hcount, hcur⟩ hout
    have hle := (h.le hs).1
    -- at the end of a range the items of the chain below have run out as well
    have hinner (hout : p = e ∨ upper ≤ N.glob p) : (DistributedIterator.next s).1 = none := by
      have hnone := h.next_none hs hout
      simp only [DistributedIterator.next]
      split
      · split
        · exact hnone
        · rfl
      · rfl
    rcases hout with heq | hup
    · exact hinner (Or.inl heq)
    · by_cases hlt : p < e
      · have hindex := h.index hs hlt 0
        rw [Nat.add_zero, Nat.add_zero, ← hcur hlt] at hindex
        have hplace : s.index s.curIndex = none := by
          unfold Take.index
          rw [hindex, hcount]
          unfold place
          by_cases hin : lower ≤ N.glob p ∧ N.glob p < upper
          · rw [if_pos hin]
            exact if_neg (by omega)
          · rw [if_neg hin]
        simp only [DistributedIterator.next, hplace]
      · exact hinner (Or.inl (by omega))
  advance := by
    rintro s q p e t ⟨hs, hcount, hcur⟩
    refine ⟨h.advance t hs, hcount, fun hlt => ?_⟩
    rw [← hcur (by omega)]
    rfl
  idle := by
    rintro s q e q' ⟨hs, hcount, _⟩
    exact ⟨h.idle q' hs, hcount, fun hlt => absurd hlt (Nat.lt_irrefl _)⟩
  index_next s := by
    have hkeep := h.index_next s.iter
    have hnext : (DistributedIterator.next s).2.iter = s.iter ∨
        (DistributedIterator.next s).2.iter = (DistributedIterator.next s.iter).2 := by
      simp only [DistributedIterator.next]
      split
      · split
        · exact Or.inr rfl
        · exact Or.inl rfl
      · exact Or.inl rfl
    have hcount : (DistributedIterator.next s).2.count = s.count := by
      simp only [DistributedIterator.next]
      split
      · split <;> rfl
      · rfl
    funext index
    simp only [IndexedDistributedIterator.iteratorIndex, Take.index, hcount]
    rcases hnext with heq | heq
    · rw [heq]
    · rw [heq, hkeep]
  index_advance s t := by
    have hkeep := h.index_advance s.iter t
    funext index
    simp only [DistributedIterator.advanceIndex, IndexedDistributedIterator.iteratorIndex,
      Take.index]
    rw [← hkeep]

end Lamellar.DistributedIterator
