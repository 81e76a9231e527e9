import Lamellar.Alloc.Merging

/-!
# What `free` joins

`free` looks for a free block that ends where the block begins, but compares its end with the
address behind the padding. So the block is joined with its predecessor if it has no padding
(`giveBackNat_get?`), and stays apart from it if it has some (`heap_fragmented`). In the runs where
this does not happen no two free blocks are next to each other, and when everything has been
freed the heap is what it was in the beginning.
-/

namespace Lamellar.Alloc

namespace FreeEntries

variable {S : Type} [LawfulIndexSet S] {fe fe' : FreeEntries S} {addr unpadded full : ℕ}

/-- No free block begins where another one ends. -/
def Coalesced (fe : FreeEntries S) : Prop :=
  ∀ {addr size}, fe.addrs.get? addr = some (size, 0) → fe.addrs.get? (addr + size) = none

/-- The predecessor is found if there is no padding in front of the block. -/
theorem before_eq_some_iff (h : fe.Mirror) (hapart : fe.Apart)
    (hout : fe.Outside (unpadded, full)) (hle : unpadded ≤ addr) (hlt : addr < unpadded + full)
    {faddr fsize : ℕ} : fe.beforeNat unpadded addr = some (faddr, fsize, 0) ↔
      addr = unpadded ∧ fe.addrs.get? faddr = some (fsize, 0) ∧ faddr + fsize = unpadded := by
  constructor
  · intro hbefore
    obtain ⟨-, -, hend⟩ := lastBelow_filter hbefore
    obtain ⟨f, n, heq, hget, -, hend'⟩ := before_eq_some h hout hle hlt hbefore
    cases heq
    have hend : faddr + fsize + 0 = addr := by simpa using hend
    exact ⟨by omega, hget, hend'⟩
  · rintro ⟨rfl, hget, rfl⟩
    have hpos := (h.flat hget).2
    have hlast : fe.addrs.lastBelow (faddr + fsize) = some (faddr, fsize, 0) := by
      refine SortedMap.lastBelow_eq hget (by omega) fun x hgt hlt => ?_
      have hnone := hapart hget (k := x - faddr) (by omega) (by omega)
      rwa [Nat.add_sub_cancel' (Nat.le_of_lt hgt)] at hnone
    rw [beforeNat, hlast]
    simp

/-- No free block begins inside the block. -/
theorem Outside.get?_inside (hout : fe.Outside (unpadded, full)) (h : fe.Mirror) {x : ℕ}
    (hle : unpadded ≤ x) (hlt : x < unpadded + full) : fe.addrs.get? x = none := by
  cases hget : fe.addrs.get? x with
  | none => rfl
  | some v =>
    obtain ⟨n, p⟩ := v
    obtain ⟨rfl, hn⟩ := h.flat hget
    exact absurd ⟨Nat.le_refl x, by omega⟩ (hout hget hle hlt)

theorem after_eq_some_iff (h : fe.Mirror) (hout : fe.Outside (unpadded, full))
    (hle : unpadded ≤ addr) (hlt : addr < unpadded + full) {nsize : ℕ} :
    fe.afterNat addr (unpadded + full) = some (unpadded + full, nsize, 0) ↔
      fe.addrs.get? (unpadded + full) = some (nsize, 0) := by
  constructor
  · intro hafter
    obtain ⟨n, heq, hget, -⟩ := after_eq_some h hafter
    cases heq
    exact hget
  · intro hget
    have hfirst : fe.addrs.firstFrom addr = some (unpadded + full, nsize, 0) :=
      SortedMap.firstFrom_eq hget (Nat.le_of_lt hlt) fun x hx hx' =>
        hout.get?_inside h (Nat.le_trans hle hx) hx'
    rw [afterNat, hfirst]
    simp

/-- The free entries after `free`: a block from `lo` to `hi` and the others. -/
theorem giveBackNat_get? (h : fe.Mirror) (hapart : fe.Apart) (hout : fe.Outside (unpadded, full))
    (hle : unpadded ≤ addr) (hlt : addr < unpadded + full) :
    ∃ lo hi, (∀ k, (fe.giveBackNat addr unpadded full).addrs.get? k =
        if k = lo then some (hi - lo, 0)
        else if k = unpadded + full then none else fe.addrs.get? k) ∧
      (lo = unpadded ∧ (∀ f n, fe.addrs.get? f = some (n, 0) → f + n = unpadded →
          addr ≠ unpadded) ∨
        addr = unpadded ∧ ∃ n, fe.addrs.get? lo = some (n, 0) ∧ 0 < n ∧ lo + n = unpadded) ∧
      (hi = unpadded + full ∧ fe.addrs.get? (unpadded + full) = none ∨
        ∃ m, fe.addrs.get? (unpadded + full) = some (m, 0) ∧ 0 < m ∧
          hi = unpadded + full + m) := by
  have hbefore {f n : ℕ} : fe.beforeNat unpadded addr = some (f, n, 0) ↔
      addr = unpadded ∧ fe.addrs.get? f = some (n, 0) ∧ f + n = unpadded :=
    before_eq_some_iff h hapart hout hle hlt
  have hafter {n : ℕ} : fe.afterNat addr (unpadded + full) = some (unpadded + full, n, 0) ↔
      fe.addrs.get? (unpadded + full) = some (n, 0) := after_eq_some_iff h hout hle hlt
  have hpos : 0 < full := by omega
  have hnext : fe.afterNat addr (unpadded + full) = none →
      fe.addrs.get? (unpadded + full) = none := by
    intro hnone
    cases hget : fe.addrs.get? (unpadded + full) with
    | none => rfl
    | some v =>
      obtain ⟨m, p⟩ := v
      obtain ⟨rfl, -⟩ := h.flat hget
      rw [hafter.mpr hget] at hnone
      cases hnone
  unfold giveBackNat
  cases hb : fe.beforeNat unpadded addr with
  | none =>
    have hprev : ∀ f n, fe.addrs.get? f = some (n, 0) → f + n = unpadded → addr ≠ unpadded := by
      intro f n hget hend heq
      rw [hbefore.mpr ⟨heq, hget, hend⟩] at hb
      cases hb
    cases ha : fe.afterNat addr (unpadded + full) with
    | none =>
      refine ⟨unpadded, unpadded + full, fun k => ?_, Or.inl ⟨rfl, hprev⟩,
        Or.inl ⟨rfl, hnext ha⟩⟩
      simp only [ha, Option.toList_none, List.append_nil, List.foldl_nil, put_addrs,
        SortedMap.get?_insert, Nat.add_sub_cancel_left]
      split
      · rfl
      · split
        · rename_i hk
          rw [hk, hnext ha]
        · rfl
    | some e =>
      obtain ⟨m, rfl, hm, hmpos⟩ := after_eq_some h ha
      refine ⟨unpadded, unpadded + full + m, fun k => ?_, Or.inl ⟨rfl, hprev⟩,
        Or.inr ⟨m, hm, hmpos, rfl⟩⟩
      simp only [ha, Option.toList_none, Option.toList_some, List.nil_append, List.foldl_cons,
        List.foldl_nil, put_addrs, drop_addrs, SortedMap.get?_insert, SortedMap.get?_erase,
        Nat.add_zero, Nat.add_assoc, Nat.add_sub_cancel_left]
  | some e =>
    obtain ⟨f, n, rfl, hf, hn, hend⟩ := before_eq_some h hout hle hlt hb
    obtain ⟨rfl, -, -⟩ := hbefore.mp hb
    have hsum : f + (full + (n + 0)) = addr + full := by omega
    simp only [hsum]
    cases ha : fe.afterNat addr (addr + full) with
    | none =>
      refine ⟨f, addr + full, fun k => ?_, Or.inr ⟨trivial, n, hf, hn, hend⟩,
        Or.inl ⟨rfl, hnext ha⟩⟩
      have hsize : addr + full - f = full + (n + 0) := by omega
      simp only [Option.toList_none, Option.toList_some, List.append_nil, List.foldl_cons,
        List.foldl_nil, put_addrs, drop_addrs, SortedMap.get?_insert, SortedMap.get?_erase, hsize]
      split
      · rfl
      · split
        · rename_i hk
          rw [hk, hnext ha]
        · rfl
    | some e =>
      obtain ⟨m, rfl, hm, hmpos⟩ := after_eq_some h ha
      refine ⟨f, addr + full + m, fun k => ?_, Or.inr ⟨trivial, n, hf, hn, hend⟩,
        Or.inr ⟨m, hm, hmpos, rfl⟩⟩
      have hsize : addr + full + m - f = full + (n + 0) + (m + 0) := by omega
      simp only [Option.toList_some, List.cons_append, List.nil_append, List.foldl_cons,
        List.foldl_nil, put_addrs, drop_addrs, SortedMap.get?_insert, SortedMap.get?_erase, hsize]
      split
      · rfl
      · rfl

/-- The block `b` of `fe'` is in one block with the free blocks of `fe` that end where it begins
or begin where it ends. -/
def Joins (fe fe' : FreeEntries S) (b : ℕ × ℕ) : Prop :=
  ∃ c ∈ fe'.blocks, (c.1 ≤ b.1 ∧ b.1 + b.2 ≤ c.1 + c.2) ∧
    ∀ d ∈ fe.blocks, d.1 + d.2 = b.1 ∨ d.1 = b.1 + b.2 → c.1 ≤ d.1 ∧ d.1 + d.2 ≤ c.1 + c.2

theorem giveBackNat_joins_iff (h : fe.Mirror) (hapart : fe.Apart)
    (hout : fe.Outside (unpadded, full)) (hle : unpadded ≤ addr) (hlt : addr < unpadded + full) :
    fe.Joins (fe.giveBackNat addr unpadded full) (unpadded, full) ↔
      addr = unpadded ∨ ∀ b ∈ fe.blocks, b.1 + b.2 ≠ unpadded := by
  obtain ⟨lo, hi, hget, hlo, hhi⟩ := giveBackNat_get? h hapart hout hle hlt
  have hmirror := (giveBack_spec h hout hle hlt).1
  constructor
  · rintro ⟨⟨ca, cn⟩, hc, ⟨hca, hcn⟩, hall⟩
    by_contra hnot
    push Not at hnot
    obtain ⟨hpadded, ⟨da, dn⟩, hd, hend⟩ := hnot
    obtain ⟨hda, hdn⟩ := hall (da, dn) hd (Or.inl hend)
    have hdget := (mem_blocks_iff h).mp hd
    have hdpos := (h.flat hdget).2
    simp only at hca hcn hend hda hdn
    -- the predecessor is still a block of its own, and the block of `b` begins before it ends
    rw [mem_blocks_iff hmirror, hget] at hc
    split at hc
    · rename_i hclo
      rcases hlo with ⟨rfl, -⟩ | ⟨heq, -⟩
      · omega
      · exact hpadded heq
    · split at hc
      · cases hc
      · exact hout hc (Nat.le_refl unpadded) (by simp only; omega) (by omega)
  · intro hcond
    have hlohi : lo ≤ unpadded ∧ unpadded + full ≤ hi := by
      refine ⟨?_, ?_⟩
      · rcases hlo with ⟨rfl, -⟩ | ⟨-, n, -, -, hn⟩ <;> omega
      · rcases hhi with ⟨rfl, -⟩ | ⟨m, -, -, rfl⟩ <;> omega
    have hmem : (lo, hi - lo) ∈ (fe.giveBackNat addr unpadded full).blocks := by
      rw [mem_blocks_iff hmirror, hget, if_pos rfl]
    refine ⟨(lo, hi - lo), hmem, ⟨hlohi.1, by simp only; omega⟩, ?_⟩
    rintro ⟨da, dn⟩ hd hnext
    have hdget := (mem_blocks_iff h).mp hd
    simp only at hnext ⊢
    rcases hnext with hend | hbegin
    · -- the predecessor
      have haddr : addr = unpadded := hcond.resolve_right fun hnone => hnone _ hd hend
      rcases hlo with ⟨-, hprev⟩ | ⟨-, n, hn, hpos, heq⟩
      · exact absurd haddr (hprev da dn hdget hend)
      · have hsame : da = lo := by
          rcases Nat.lt_trichotomy da lo with hlt' | heq' | hgt
          · have hnone := hapart hdget (k := lo - da) (by omega) (by omega)
            rw [Nat.add_sub_cancel' (Nat.le_of_lt hlt'), hn] at hnone
            cases hnone
          · exact heq'
          · have hnone := hapart hn (k := da - lo) (by omega)
              (by have := (h.flat hdget).2; omega)
            rw [Nat.add_sub_cancel' (Nat.le_of_lt hgt), hdget] at hnone
            cases hnone
        omega
    · subst hbegin
      rcases hhi with ⟨-, hnone⟩ | ⟨m, hm, -, rfl⟩
      · rw [hdget] at hnone
        cases hnone
      · rw [hdget] at hm
        cases hm
        omega

theorem giveBackNat_coalesced (h : fe.Mirror) (hapart : fe.Apart) (hcoalesced : fe.Coalesced)
    (hout : fe.Outside (unpadded, full)) (hle : unpadded ≤ addr) (hlt : addr < unpadded + full)
    (hcond : addr = unpadded ∨ ∀ b ∈ fe.blocks, b.1 + b.2 ≠ unpadded) :
    (fe.giveBackNat addr unpadded full).Coalesced := by
  obtain ⟨lo, hi, hget, hlo, hhi⟩ := giveBackNat_get? h hapart hout hle hlt
  have hstop : unpadded + full ≤ hi ∧ fe.addrs.get? hi = none := by
    rcases hhi with ⟨rfl, hnone⟩ | ⟨m, hm, -, rfl⟩
    · exact ⟨Nat.le_refl _, hnone⟩
    · exact ⟨Nat.le_add_right _ _, hcoalesced hm⟩
  have hlole : lo ≤ unpadded := by
    rcases hlo with ⟨rfl, -⟩ | ⟨-, n, -, -, hn⟩ <;> omega
  intro a n ha
  rw [hget] at ha ⊢
  split at ha
  · -- behind the new block
    rename_i halo
    cases ha
    have hsum : a + (hi - lo) = hi := by omega
    rw [hsum, if_neg (by omega), hstop.2]
    split <;> rfl
  · rename_i halo
    split at ha
    · cases ha
    · rename_i hafull
      have hnext := hcoalesced ha
      rw [hnext]
      have hne : a + n ≠ lo := by
        -- in front of the new block
        intro hend
        rcases hlo with ⟨rfl, hprev⟩ | ⟨-, m, hm, -, -⟩
        · rcases hcond with heq | hnone
          · exact hprev a n ha hend heq
          · exact hnone (a, n) (mem_blocks ha) hend
        · rw [hend, hm] at hnext
          cases hnext
      rw [if_neg hne]
      split <;> rfl

/-! ## The other steps -/

theorem trim_addrs (fe : FreeEntries S) (size : ℕ) (s : S) :
    (fe.trim size s).addrs = fe.addrs := by
  unfold trim
  split <;> rfl

/-- The free entries after a search: the block at `a` without its first bytes. -/
theorem search_get? (h : fe.Mirror) {size align a : ℕ} (hsize : 0 < size) (halign : 0 < align)
    (hsearch : fe.searchNat size align = .found (some a) fe') :
    ∃ n, fe.addrs.get? a = some (n, 0) ∧ size + calcPadding a align ≤ n ∧
      ∀ k, fe'.addrs.get? k =
        if n ≠ size + calcPadding a align ∧ k = a + (size + calcPadding a align) then
          some (n - (size + calcPadding a align), 0)
        else if k = a then none else fe.addrs.get? k := by
  unfold searchNat at hsearch
  simp only at hsearch
  split at hsearch
  · cases hsearch
  · rename_i n addrs hfirst
    obtain ⟨hle, hget⟩ := SortedMap.firstFrom_eq_some hfirst
    simp only at hle hget
    split at hsearch
    · cases hsearch
    · rename_i b hb
      have hmem : b ∈ fe.sizeItems n := by
        rw [sizeItems, hget]
        exact (IndexSet.mem_pop hb).1
      have haddr := (h.mem_iff n b).mp hmem
      simp only [haddr, Nat.add_zero] at hsearch
      have hpad := calcPadding_lt b halign
      split at hsearch
      · rename_i hne
        cases hsearch
        refine ⟨n, haddr, by omega, fun k => ?_⟩
        simp only [trim_addrs, put_addrs, SortedMap.get?_insert, SortedMap.get?_erase, hne,
          not_false_eq_true, true_and, ne_eq]
      · rename_i heq
        rw [ne_eq, not_not] at heq
        cases hsearch
        refine ⟨n, haddr, by omega, fun k => ?_⟩
        simp only [trim_addrs, SortedMap.get?_erase, heq, ne_eq, not_true_eq_false, false_and,
          if_false]

theorem search_coalesced (h : fe.Mirror) (hapart : fe.Apart) (hcoalesced : fe.Coalesced)
    {size align a : ℕ} (hsize : 0 < size) (halign : 0 < align)
    (hsearch : fe.searchNat size align = .found (some a) fe') : fe'.Coalesced := by
  obtain ⟨n, ha, hle, hget⟩ := search_get? h hsize halign hsearch
  have hfull : 0 < size + calcPadding a align := by omega
  intro b m hb
  rw [hget] at hb ⊢
  split at hb
  · -- the rest of the block ends where the block ended
    rename_i hrest
    cases hb
    have hend : b + (n - (size + calcPadding a align)) = a + n := by omega
    rw [hend, if_neg (by omega), hcoalesced ha]
    split <;> rfl
  · rename_i hrest
    split at hb
    · cases hb
    · rename_i hba
      have hnext := hcoalesced hb
      have hpos := (h.flat hb).2
      have hne : b + m ≠ a + (size + calcPadding a align) := by
        intro heq
        rcases Nat.lt_or_ge b a with hlt | hge
        · have hnone := hapart hb (k := a - b) (by omega) (by omega)
          rw [Nat.add_sub_cancel' (Nat.le_of_lt hlt), ha] at hnone
          cases hnone
        · have hnone := hapart ha (k := b - a) (by omega) (by omega)
          rw [Nat.add_sub_cancel' hge, hb] at hnone
          cases hnone
      rw [if_neg (fun h => hne h.2), hnext]
      split <;> rfl

omit [LawfulIndexSet S] in
theorem Coalesced.firstApart (hcoalesced : fe.Coalesced) : fe.FirstApart := by
  intro f n g m rest hentries hadjacent
  have hf : fe.addrs.get? f = some (n, 0) :=
    SortedMap.get?_eq_some_iff.mpr (hentries ▸ List.mem_cons_self)
  have hg : fe.addrs.get? g = some (m, 0) :=
    SortedMap.get?_eq_some_iff.mpr (hentries ▸ List.mem_cons_of_mem _ List.mem_cons_self)
  rw [← hadjacent, hcoalesced hf] at hg
  cases hg

theorem mergeNat_of_coalesced (h : fe.Mirror) (hcoalesced : fe.Coalesced)
    (hmerge : fe.mergeNat = some fe') : fe' = fe := by
  have hne : fe.addrs.entries ≠ [] := by
    intro hnil
    rw [mergeNat, if_pos hnil] at hmerge
    cases hmerge
  rw [mergeNat_of_apart h hcoalesced.firstApart hne] at hmerge
  exact (Option.some.inj hmerge).symm

end FreeEntries


/-! ## Runs -/

variable {S : Type} [LawfulIndexSet S] {build : Build} {startAddr maxSize k : ℕ}
  {s s' : BTreeAlloc S}

/-- A block that is freed has no padding, or no free block ends where the padding begins. -/
def Call.Joinable (fe : FreeEntries S) : Call → Prop
  | .free addr (.removed _ padding) =>
    padding = 0 ∨ ∀ b ∈ fe.blocks, b.1 + b.2 ≠ addr - padding
  | .free _ _ | .tryMalloc _ _ _ | .fakeMalloc _ _ _ => True

def BTreeAlloc.Joinable (s : BTreeAlloc S) : Action → Prop
  | .run k => ∀ c ∈ s.calls[k]?, c.Joinable s.freeEntries
  | .init _ _ | .tryMalloc _ _ | .fakeMalloc _ _ | .free _ => True

theorem Inv.takeFrom_coalesced (h : Inv build startAddr maxSize s) {upper size align : ℕ}
    (hargs : 0 < size ∧ 0 < align) (notFound : MallocPc)
    (hupper : upper = size + align - 1 ∨ s.freeEntries.sizes.firstFrom upper = none)
    (hcoalesced : s.freeEntries.Coalesced) :
    (s.takeFrom build k upper size align s.freeEntries notFound).freeEntries.Coalesced := by
  rcases hupper with rfl | hnone
  · unfold BTreeAlloc.takeFrom
    rw [FreeEntries.search_eq build h.bound h.mirror h.within hargs.1 hargs.2]
    rcases FreeEntries.search_spec h.mirror h.apart hargs.1 hargs.2 with
      hnone | ⟨a, fe', hsome, -, -⟩
    · rw [hnone]
      exact hcoalesced
    · rw [hsome]
      exact FreeEntries.search_coalesced h.mirror h.apart hcoalesced hargs.1 hargs.2 hsome
  · rw [s.takeFrom_of_none k size align notFound hnone]
    exact hcoalesced

/-- Where no two free blocks are next to each other, `merge` changes nothing. -/
theorem Inv.merge_coalesced (h : Inv build startAddr maxSize s)
    (hcoalesced : s.freeEntries.Coalesced) :
    s.freeEntries.merge build = .error s.freeEntries ∨
      s.freeEntries.merge build = .ok s.freeEntries := by
  rcases h.merge with ⟨-, hmerge⟩ | ⟨fe, hnat, hmerge, -⟩
  · exact Or.inl hmerge
  · rw [FreeEntries.mergeNat_of_coalesced h.mirror hcoalesced hnat] at hmerge
    exact Or.inr hmerge

theorem Inv.runTryMalloc_coalesced (h : Inv build startAddr maxSize s) {size align : ℕ}
    {pc : MallocPc} (hk : s.calls[k]? = some (.tryMalloc size align pc))
    (hfits : (Call.tryMalloc size align pc).Fits build s.freeEntries)
    (hcoalesced : s.freeEntries.Coalesced)
    (hstep : s.runTryMalloc build k size align pc = some s') : s'.freeEntries.Coalesced := by
  obtain ⟨hargs, -⟩ := h.calls _ (List.mem_of_getElem? hk)
  cases pc with
  | start =>
    simp only [BTreeAlloc.runTryMalloc] at hstep
    split at hstep
    · rename_i upper hupper
      cases hstep
      exact h.takeFrom_coalesced hargs _ ((hfits upper hupper).imp_right fun hnot =>
        (firstFrom_eq_none_of_not_available hnot).1) hcoalesced
    · cases hstep
      exact hcoalesced
  | waiting upper =>
    simp only [BTreeAlloc.runTryMalloc] at hstep
    rcases h.merge_coalesced hcoalesced with hmerge | hmerge
    · rw [hmerge] at hstep
      cases hstep
      exact hcoalesced
    · rw [hmerge] at hstep
      cases hstep
      exact h.takeFrom_coalesced hargs _ (Or.imp_right
        (fun hnot => (firstFrom_eq_none_of_not_available hnot).1) hfits) hcoalesced
  | taken addr =>
    rw [h.runTaken hk] at hstep
    cases hstep
    exact hcoalesced
  | returned addr => cases hstep
  | panicked => cases hstep

theorem Inv.step_coalesced (h : Inv build startAddr maxSize s) (hsize : 0 < maxSize)
    (hcoalesced : s.freeEntries.Coalesced) {a : Action} (hfits : s.Fits build a)
    (hjoinable : s.Joinable a) (hstep : s.step build a = some s') :
    s'.freeEntries.Coalesced := by
  cases a with
  | init startAddr' size =>
    have hzero := hfits.1.1
    rw [h.region.2] at hzero
    omega
  | tryMalloc size align =>
    simp only [BTreeAlloc.step] at hstep
    split at hstep
    · cases hstep
      exact hcoalesced
    · cases hstep
  | fakeMalloc size align =>
    simp only [BTreeAlloc.step] at hstep
    split at hstep
    · cases hstep
      exact hcoalesced
    · cases hstep
  | free addr =>
    cases hstep
    exact hcoalesced
  | run k =>
    simp only [BTreeAlloc.step] at hstep
    split at hstep
    · exact h.runTryMalloc_coalesced ‹_› (hfits _ ‹_›) hcoalesced hstep
    · rename_i size align pc hk
      cases pc with
      | start =>
        simp only [BTreeAlloc.runFakeMalloc] at hstep
        split at hstep
        · split at hstep
          · cases hstep
            exact hcoalesced
          · rcases h.merge_coalesced hcoalesced with hmerge | hmerge
            · rw [hmerge] at hstep
              cases hstep
              exact hcoalesced
            · rw [hmerge] at hstep
              cases hstep
              exact hcoalesced
        · cases hstep
          exact hcoalesced
      | returned found => cases hstep
      | panicked => cases hstep
    · rename_i addr pc hk
      cases pc with
      | start =>
        simp only [BTreeAlloc.runFree] at hstep
        split at hstep
        · split at hstep <;> cases hstep <;> exact hcoalesced
        · cases hstep
          exact hcoalesced
      | removed size padding =>
        rw [(h.giveBack hk).1] at hstep
        cases hstep
        obtain ⟨hout, hlt, hpadding⟩ := h.outside hk
        refine FreeEntries.giveBackNat_coalesced h.mirror h.apart hcoalesced hout
          (Nat.sub_le addr padding) hlt ?_
        have hcond : padding = 0 ∨ ∀ b ∈ s.freeEntries.blocks, b.1 + b.2 ≠ addr - padding :=
          hjoinable _ hk
        exact hcond.imp_left fun hzero => by omega
      | returned ok => cases hstep
      | panicked => cases hstep
    · cases hstep

/-- Everything is one free block. -/
def FreeEntries.SingleBlock (fe : FreeEntries S) (addr size : ℕ) : Prop :=
  fe.addrs = SortedMap.empty.insert addr (size, 0) ∧
    ∃ set, fe.sizes = SortedMap.empty.insert size set ∧ ∀ a, a ∈ IndexSet.items set ↔ a = addr

theorem FreeEntries.new_put_singleBlock (addr size : ℕ) :
    ((FreeEntries.new : FreeEntries S).put addr size).SingleBlock addr size := by
  refine ⟨rfl, _, rfl, fun a => ?_⟩
  rw [IndexSet.mem_insert]
  exact or_iff_right (LawfulIndexSet.not_mem_new a)

theorem FreeEntries.Mirror.singleBlock {fe : FreeEntries S} (h : fe.Mirror)
    (hblocks : fe.blocks = [(startAddr, maxSize)]) : fe.SingleBlock startAddr maxSize := by
  have hget : ∀ a n, fe.addrs.get? a = some (n, 0) ↔ a = startAddr ∧ n = maxSize := by
    intro a n
    rw [← mem_blocks_iff h, hblocks]
    simp
  have hstart : fe.addrs.get? startAddr = some (maxSize, 0) := (hget _ _).mpr ⟨rfl, rfl⟩
  constructor
  · refine SortedMap.ext_get? fun a => ?_
    rw [SortedMap.get?_insert]
    split
    · rename_i ha
      rw [ha, hstart]
    · rename_i ha
      cases hfe : fe.addrs.get? a with
      | none => rfl
      | some v =>
        obtain ⟨n, p⟩ := v
        obtain ⟨rfl, -⟩ := h.flat hfe
        exact absurd ((hget a n).mp hfe).1 ha
  · have hmem := (h.mem_iff maxSize startAddr).mpr hstart
    unfold sizeItems at hmem
    split at hmem
    · rename_i set hset
      have hitem : ∀ n set', fe.sizes.get? n = some set' → ∀ a, a ∈ IndexSet.items set' ↔
          a = startAddr ∧ n = maxSize := by
        intro n set' hset' a
        rw [← hget, ← h.mem_iff, sizeItems, hset']
      refine ⟨set, SortedMap.ext_get? fun n => ?_, fun a => ?_⟩
      · rw [SortedMap.get?_insert]
        split
        · rename_i hn
          rw [hn, hset]
        · rename_i hn
          cases hfe : fe.sizes.get? n with
          | none => rfl
          | some set' =>
            obtain ⟨a, ha⟩ := IndexSet.exists_mem (h.nonempty hfe)
            exact absurd ((hitem n set' hfe a).mp ha).2 hn
      · rw [hitem maxSize set hset]
        exact and_iff_left rfl
    · cases hmem

theorem FreeEntries.SingleBlock.coalesced {fe : FreeEntries S} {addr size : ℕ}
    (h : fe.SingleBlock addr size) (hpos : 0 < size) : fe.Coalesced := by
  intro a n ha
  rw [h.1, SortedMap.get?_insert] at ha ⊢
  split at ha
  · rename_i heq
    cases ha
    rw [if_neg (by omega)]
    rfl
  · cases ha

/-- Nothing is allocated: everything is one free block. -/
theorem Inv.singleBlock (h : Inv build startAddr maxSize s) (hsize : 0 < maxSize)
    (hcoalesced : s.freeEntries.Coalesced) (hnone : s.allocatedAddrs.entries = [])
    (hheld : ∀ c ∈ s.calls, c.held = []) :
    s.freeEntries.SingleBlock startAddr maxSize ∧ s.freeSpace = maxSize := by
  have hpartition := h.partition
  rw [BTreeAlloc.blocks, hnone, List.flatMap_eq_nil_iff.mpr hheld, List.map_nil, List.append_nil,
    List.append_nil] at hpartition
  refine ⟨h.mirror.singleBlock (hpartition.eq_singleton hsize ?_ ?_), ?_⟩
  · rintro ⟨a, n⟩ hb
    exact (h.mirror.flat ((FreeEntries.mem_blocks_iff h.mirror).mp hb)).2
  · rintro ⟨a, n⟩ hb ⟨c, m⟩ hc heq
    have hget := (FreeEntries.mem_blocks_iff h.mirror).mp hc
    simp only at heq
    rw [heq, hcoalesced ((FreeEntries.mem_blocks_iff h.mirror).mp hb)] at hget
    cases hget
  · have hfree := h.freeSpace
    rw [BTreeAlloc.allocated, hnone] at hfree
    exact hfree

/-- What holds in the runs in which every block that is freed can be joined. -/
theorem Reachable.coalesced (hs : Transition.Reach (· = BTreeAlloc.new) (BTreeAlloc.step build)
    (fun s a => s.Fits build a ∧ s.Joinable a) s) :
    Void build s ∨ 0 < s.maxSize ∧ Inv build s.startAddr s.maxSize s ∧ s.freeEntries.Coalesced := by
  induction hs with
  | init heq =>
    subst heq
    exact Or.inl ⟨Or.inl rfl, rfl, ⟨rfl, rfl⟩, fun c hc => by cases hc⟩
  | @step s s' a prior hok hstep ih =>
    have hsound : s'.Sound build :=
      (Reachable.sound (prior.mono fun _ _ h => h.1)).step hok.1 hstep
    rcases hsound with hvoid | ⟨hsize, hinv⟩
    · exact Or.inl hvoid
    · refine Or.inr ⟨hsize, hinv, ?_⟩
      rcases ih with hvoid | ⟨hpos, h, hcoalesced⟩
      · by_cases hinit : ∃ startAddr size, a = .init startAddr size
        · obtain ⟨startAddr, size, rfl⟩ := hinit
          cases hstep
          have hput := hvoid.init_freeEntries hok.1.1 startAddr size
          have hsingle : (s.init startAddr size).freeEntries.SingleBlock startAddr size :=
            hput ▸ FreeEntries.new_put_singleBlock startAddr size
          exact hsingle.coalesced hsize
        · have hvoid' := hvoid.step hok.1
            (fun startAddr size heq => hinit ⟨startAddr, size, heq⟩) hstep
          have hzero := hvoid'.space.2
          omega
      · exact h.step_coalesced hpos hcoalesced hok.1 hok.2 hstep

variable (build) in
/-- What is freed is joined with the free blocks on both sides, exactly if it has no padding or
there is none in front. In the runs where this is so, when everything has been freed the heap is
one free block again. -/
theorem free_coalesces :
    (∀ (s : BTreeAlloc S) k addr size padding, Reachable build s →
      s.calls[k]? = some (.free addr (.removed size padding)) →
        ∃ s', s.step build (.run k) = some s' ∧
          s'.calls[k]? = some (.free addr (.returned true)) ∧
          (s.freeEntries.Joins s'.freeEntries (addr - padding, size + padding) ↔
            padding = 0 ∨ ∀ b ∈ s.freeEntries.blocks, b.1 + b.2 ≠ addr - padding)) ∧
    ∀ s : BTreeAlloc S, Transition.Reach (· = BTreeAlloc.new) (BTreeAlloc.step build)
        (fun s a => s.Fits build a ∧ s.Joinable a) s → ¬ s.Fresh →
      s.allocatedAddrs.entries = [] → (∀ c ∈ s.calls, c.held = []) →
        s.freeEntries.SingleBlock s.startAddr s.maxSize ∧ s.freeSpace = s.maxSize := by
  refine ⟨fun s k addr size padding hs hk => ?_, fun s hs hfresh hnone hheld => ?_⟩
  · rcases hs.sound with hvoid | ⟨-, h⟩
    · cases (hvoid.calls _ (List.mem_of_getElem? hk)).1
    · obtain ⟨hout, hlt, hpadding⟩ := h.outside hk
      have hstep : s.step build (.run k) = s.runFree build k addr (.removed size padding) := by
        simp only [BTreeAlloc.step, hk]
      refine ⟨_, hstep.trans (h.giveBack hk).1,
        s.setCall_getElem? (List.getElem?_eq_some_iff.mp hk).1 _, ?_⟩
      have hjoins := FreeEntries.giveBackNat_joins_iff h.mirror h.apart hout
        (Nat.sub_le addr padding) hlt
      have hzero : addr = addr - padding ↔ padding = 0 := by omega
      rw [hzero] at hjoins
      exact hjoins
  · rcases Reachable.coalesced hs with hvoid | ⟨hsize, h, hcoalesced⟩
    · rcases hvoid.freeEntries with heq | heq
      · refine absurd ⟨hvoid.space.2, ?_⟩ hfresh
        rw [heq]
        rfl
      · rw [heq, hvoid.space.1, hvoid.space.2]
        exact ⟨FreeEntries.new_put_singleBlock s.startAddr 0, rfl⟩
    · exact h.singleBlock hsize hcoalesced hnone hheld

instance (fe : FreeEntries S) : ∀ c : Call, Decidable (c.Joinable fe)
  | .free addr (.removed _ padding) => inferInstanceAs
    (Decidable (padding = 0 ∨ ∀ b ∈ fe.blocks, b.1 + b.2 ≠ addr - padding))
  | .free _ .start | .free _ (.returned _) | .free _ .panicked | .tryMalloc _ _ _
  | .fakeMalloc _ _ _ => .isTrue trivial

instance (s : BTreeAlloc S) : ∀ a, Decidable (s.Joinable a)
  | .run k => inferInstanceAs (Decidable (∀ c ∈ s.calls[k]?, c.Joinable s.freeEntries))
  | .init _ _ | .tryMalloc _ _ | .fakeMalloc _ _ | .free _ => .isTrue trivial

/-- Blocks of 1 and of 4 bytes, with a padding of 7 bytes, the second one freed first -/
theorem free_coalesces_padded : ∃ s : BTreeAlloc ItemList,
    Call.free 8 (.returned true) ∈ s.calls ∧ s.freeEntries.SingleBlock 0 16 ∧
      s.freeSpace = 16 := by
  have hrun : ∃ s, Transition.run (Transition.guarded (BTreeAlloc.step .checked)
      fun s a => s.Fits .checked a ∧ s.Joinable a) (BTreeAlloc.new : BTreeAlloc ItemList)
      [.init 0 16, .tryMalloc 1 1, .run 0, .run 0, .tryMalloc 4 8, .run 1, .run 1,
        .free 8, .run 2, .run 2, .free 0, .run 3, .run 3] = some s ∧
          s.calls[2]? = some (.free 8 (.returned true)) ∧ s.allocatedAddrs.entries = [] ∧
            s.calls.flatMap Call.held = [] ∧ s.startAddr = 0 ∧ s.maxSize = 16 :=
    ⟨_, rfl, rfl, rfl, rfl, rfl, rfl⟩
  obtain ⟨s, hrun, hcall, hnone, hheld, hstart, hmax⟩ := hrun
  have hall := (free_coalesces .checked).2 s (Transition.Reach.run_guarded (.init rfl) hrun)
    (fun hfresh => absurd (hmax.symm.trans hfresh.1) (by decide)) hnone
    (List.flatMap_eq_nil_iff.mp hheld)
  rw [hstart, hmax] at hall
  exact ⟨s, List.mem_of_getElem? hcall, hall⟩

/-- One byte at 0, and 4 bytes at 8 with a padding of 7 bytes: when both have been freed, the
free byte at 0 is a block of its own. -/
theorem heap_fragmented : ∃ s : BTreeAlloc ItemList, Reachable .checked s ∧
    s.allocatedAddrs.entries = [] ∧ (∀ c ∈ s.calls, c.held = []) ∧
      s.freeEntries.blocks = [(0, 1), (1, 15)] := by
  have hrun : ∃ s, Transition.run (Transition.guarded (BTreeAlloc.step .checked)
      (BTreeAlloc.Fits .checked)) (BTreeAlloc.new : BTreeAlloc ItemList)
      [.init 0 16, .tryMalloc 1 1, .run 0, .run 0, .tryMalloc 4 8, .run 1, .run 1,
        .free 0, .run 2, .run 2, .free 8, .run 3, .run 3] = some s ∧
        s.allocatedAddrs.entries = [] ∧ s.calls.flatMap Call.held = [] ∧
          s.freeEntries.blocks = [(0, 1), (1, 15)] :=
    ⟨_, rfl, rfl, rfl, rfl⟩
  obtain ⟨s, hrun, hnone, hheld, hblocks⟩ := hrun
  exact ⟨s, Transition.Reach.run_guarded (.init rfl) hrun, hnone,
    List.flatMap_eq_nil_iff.mp hheld, hblocks⟩

end Lamellar.Alloc
