import Lamellar.Alloc.Heap

/-!
# What `merge` joins

`merge` takes the first two free blocks, joins them if they are next to each other, and otherwise
puts both back: from then on each turn finds the same two. So it joins what begins at the lowest
free address and nothing else (`mergeNat_mergedTo`), and `try_malloc` may return `None` where the
free bytes suffice. If nothing is free, `merge` panics.
-/

namespace Lamellar.Alloc

namespace FreeEntries

open Blocks (Same)

variable {S : Type} [LawfulIndexSet S] {fe fe' : FreeEntries S}

/-- The lowest free address -/
def firstAddr (fe : FreeEntries S) : Option ℕ := fe.addrs.entries.head?.map Prod.fst

def FirstApart (fe : FreeEntries S) : Prop :=
  ∀ {faddr fsize naddr nsize rest},
    fe.addrs.entries = (faddr, fsize, 0) :: (naddr, nsize, 0) :: rest → faddr + fsize ≠ naddr

/-- `fe'` are the free entries `fe` after the first blocks have been joined. -/
structure MergedTo (fe fe' : FreeEntries S) : Prop where
  first : fe'.firstAddr = fe.firstAddr
  old : ∀ c ∈ fe'.blocks, c ∈ fe.blocks ∨ fe.firstAddr = some c.1
  covered : ∀ b ∈ fe.blocks, ∃ c ∈ fe'.blocks, c.1 ≤ b.1 ∧ b.1 + b.2 ≤ c.1 + c.2
  apart : fe'.FirstApart

theorem mergeTurnsNat_of_apart (n : ℕ) (h : fe.Mirror) (hapart : fe.FirstApart)
    (hlen : n < fe.addrs.entries.length) : mergeTurnsNat n fe = some fe := by
  induction n with
  | zero => rfl
  | succ n ih =>
    obtain ⟨f, fsize, g, gsize, rest, hentries⟩ := h.exists_first_two (by omega)
    rw [mergeTurnsNat_succ hentries, if_neg (hapart hentries)]
    exact ih (by omega)

omit [LawfulIndexSet S] in
theorem blocks_eq {f n g m : ℕ} {rest : List (ℕ × ℕ × ℕ)}
    (hentries : fe.addrs.entries = (f, n, 0) :: (g, m, 0) :: rest) :
    fe.blocks = (f, n) :: (g, m) :: rest.map fun (addr, size, padding) =>
      (addr, size + padding) := by
  rw [blocks, hentries]
  rfl

theorem joinFirst_blocks {f n m : ℕ} {rest : List (ℕ × ℕ × ℕ)}
    (hentries : fe.addrs.entries = (f, n, 0) :: (f + n, m, 0) :: rest) :
    (fe.joinFirst f n m).blocks = (f, n + m) :: rest.map fun (addr, size, padding) =>
      (addr, size + padding) := by
  rw [blocks, joinFirst_entries hentries]
  rfl

omit [LawfulIndexSet S] in
theorem MergedTo.refl (hapart : fe.FirstApart) : MergedTo fe fe :=
  ⟨rfl, fun _ hc => Or.inl hc, fun b hb => ⟨b, hb, Nat.le_refl _, Nat.le_refl _⟩, hapart⟩

/-- One more block at the beginning. -/
theorem MergedTo.of_joinFirst {f n m : ℕ} {rest : List (ℕ × ℕ × ℕ)}
    (hentries : fe.addrs.entries = (f, n, 0) :: (f + n, m, 0) :: rest)
    (h : MergedTo (fe.joinFirst f n m) fe') : MergedTo fe fe' := by
  have hfirst : (fe.joinFirst f n m).firstAddr = fe.firstAddr := by
    rw [firstAddr, firstAddr, joinFirst_entries hentries, hentries]
    rfl
  have hblocks := blocks_eq hentries
  have hjoined := joinFirst_blocks hentries
  refine ⟨h.first.trans hfirst, fun c hc => ?_, fun b hb => ?_, h.apart⟩
  · rcases h.old c hc with hold | hold
    · rw [hjoined] at hold
      rcases List.mem_cons.mp hold with rfl | hold
      · refine Or.inr ?_
        rw [firstAddr, hentries]
        rfl
      · rw [hblocks]
        exact Or.inl (List.mem_cons_of_mem _ (List.mem_cons_of_mem _ hold))
    · exact Or.inr (hfirst ▸ hold)
  · have hcover : ∃ c ∈ (fe.joinFirst f n m).blocks, c.1 ≤ b.1 ∧ b.1 + b.2 ≤ c.1 + c.2 := by
      rw [hblocks] at hb
      rw [hjoined]
      rcases List.mem_cons.mp hb with rfl | hb
      · exact ⟨_, List.mem_cons_self, Nat.le_refl _, by simp only; omega⟩
      · rcases List.mem_cons.mp hb with rfl | hb
        · exact ⟨_, List.mem_cons_self, by simp only; omega, by simp only; omega⟩
        · exact ⟨b, List.mem_cons_of_mem _ hb, Nat.le_refl _, Nat.le_refl _⟩
    obtain ⟨c, hc, hcb, hbc⟩ := hcover
    obtain ⟨d, hd, hdc, hcd⟩ := h.covered c hc
    exact ⟨d, hd, by omega, by omega⟩

theorem mergeTurnsNat_mergedTo (n : ℕ) (h : fe.Mirror) (hlen : fe.addrs.entries.length = n + 1)
    (hturns : mergeTurnsNat n fe = some fe') : MergedTo fe fe' := by
  induction n generalizing fe with
  | zero =>
    cases hturns
    refine .refl fun {f n g m rest} hentries => ?_
    simp [hentries] at hlen
  | succ n ih =>
    obtain ⟨f, fsize, g, gsize, rest, hentries⟩ := h.exists_first_two (by omega)
    by_cases hadjacent : f + fsize = g
    · subst hadjacent
      rw [mergeTurnsNat_succ hentries, if_pos rfl] at hturns
      refine .of_joinFirst hentries (ih (h.joinFirst hentries).1 ?_ hturns)
      rw [joinFirst_entries hentries]
      rw [hentries] at hlen
      simpa using hlen
    · have hapart : fe.FirstApart := by
        intro f' n' g' m' rest' hentries'
        rw [hentries] at hentries'
        cases hentries'
        exact hadjacent
      rw [mergeTurnsNat_of_apart _ h hapart (by omega)] at hturns
      cases hturns
      exact .refl hapart

theorem mergeNat_mergedTo (h : fe.Mirror) (hmerge : fe.mergeNat = some fe') : MergedTo fe fe' := by
  unfold mergeNat at hmerge
  split at hmerge
  · cases hmerge
  · rename_i hne
    have hpos := List.length_pos_iff.mpr hne
    exact mergeTurnsNat_mergedTo _ h (by omega) hmerge

/-- Once merged, always merged. -/
theorem mergeNat_of_apart (h : fe.Mirror) (hapart : fe.FirstApart) (hne : fe.addrs.entries ≠ []) :
    fe.mergeNat = some fe := by
  have hpos := List.length_pos_iff.mpr hne
  rw [mergeNat, if_neg hne, mergeTurnsNat_of_apart _ h hapart (by omega)]

/-- All of the `n` bytes from `x` on are free. -/
def FreeRun (fe : FreeEntries S) (x n : ℕ) : Prop :=
  ∀ y, x ≤ y → y < x + n → ∃ b ∈ fe.blocks, b.1 ≤ y ∧ y < b.1 + b.2

omit [LawfulIndexSet S] in
theorem mem_of_same (hsame : Same fe.blocks fe'.blocks) {y : ℕ}
    (h : ∃ b ∈ fe.blocks, b.1 ≤ y ∧ y < b.1 + b.2) :
    ∃ b ∈ fe'.blocks, b.1 ≤ y ∧ y < b.1 + b.2 := by
  obtain ⟨b, hb, hin⟩ := h
  have hpos : 0 < Blocks.cover fe.blocks y :=
    List.countP_pos_iff.mpr ⟨b, hb, decide_eq_true hin⟩
  rw [hsame.cover_eq] at hpos
  obtain ⟨c, hc, hin'⟩ := List.countP_pos_iff.mp hpos
  exact ⟨c, hc, by simpa using hin'⟩

/-- The first free block ends where a byte is not free. -/
theorem FirstApart.not_free (hapart : fe.FirstApart) (h : fe.Mirror) (hdisj : fe.Apart) {a n : ℕ}
    (hfirst : fe.firstAddr = some a) (hget : fe.addrs.get? a = some (n, 0)) :
    ¬ ∃ b ∈ fe.blocks, b.1 ≤ a + n ∧ a + n < b.1 + b.2 := by
  rintro ⟨⟨c, m⟩, hc, hle, hlt⟩
  simp only at hle hlt
  have hcget := (mem_blocks_iff h).mp hc
  obtain ⟨e, rest, hentries, rfl⟩ : ∃ e rest, fe.addrs.entries = e :: rest ∧ e.1 = a := by
    obtain ⟨e, he, rfl⟩ := Option.map_eq_some_iff.mp hfirst
    obtain ⟨rest, hrest⟩ := List.head?_eq_some_iff.mp he
    exact ⟨e, rest, hrest, rfl⟩
  have hsorted := fe.addrs.sorted
  rw [hentries] at hsorted
  obtain ⟨hmin, hsorted⟩ := List.pairwise_cons.mp hsorted
  have hmem := SortedMap.get?_eq_some_iff.mp hcget
  have he : e = (e.1, n, 0) := by
    have := SortedMap.get?_eq_some_iff.mpr (hentries ▸ List.mem_cons_self : e ∈ fe.addrs.entries)
    rw [hget] at this
    exact Prod.ext rfl (Option.some.inj this).symm
  rw [hentries] at hmem
  rcases List.mem_cons.mp hmem with heq | hmem
  · have h1 := congrArg Prod.fst heq
    have h2 := congrArg (fun q : ℕ × ℕ × ℕ => q.2.1) (heq.trans he)
    simp only at h1 h2
    omega
  · have hgt := hmin _ hmem
    simp only at hgt
    have hclt : ¬ c < e.1 + n := fun hin => by
      have hnone := hdisj hget (k := c - e.1) (by omega) (by omega)
      rw [Nat.add_sub_cancel' (Nat.le_of_lt hgt), hcget] at hnone
      cases hnone
    have hceq : c = e.1 + n := by omega
    match rest, hmem, hentries, hsorted with
    | (g, gsize, gpadding) :: rest, hmem, hentries, hsorted =>
      have hg : fe.addrs.get? g = some (gsize, gpadding) :=
        SortedMap.get?_eq_some_iff.mpr (hentries ▸ List.mem_cons_of_mem _ List.mem_cons_self)
      obtain ⟨rfl, -⟩ := h.flat hg
      have hglt := hmin (g, gsize, 0) List.mem_cons_self
      simp only at hglt
      have hgle : g ≤ c := by
        rcases List.mem_cons.mp hmem with heq | hmem
        · exact Nat.le_of_eq (congrArg Prod.fst heq).symm
        · exact Nat.le_of_lt ((List.pairwise_cons.mp hsorted).1 _ hmem)
      have hgnot : ¬ g < e.1 + n := fun hin => by
        have hnone := hdisj hget (k := g - e.1) (by omega) (by omega)
        rw [Nat.add_sub_cancel' (Nat.le_of_lt hglt), hg] at hnone
        cases hnone
      rw [he] at hentries
      exact hapart hentries (by omega)

/-- After `merge` a block of `n` bytes is free if one was free before, or if `n` bytes from the
lowest free address on were. -/
theorem MergedTo.exists_large_iff (hmerged : MergedTo fe fe') (h : fe'.Mirror) (hdisj : fe'.Apart)
    (hsame : Same fe.blocks fe'.blocks) {n : ℕ} : (∃ c ∈ fe'.blocks, n ≤ c.2) ↔
      (∃ b ∈ fe.blocks, n ≤ b.2) ∨ ∃ a, fe.firstAddr = some a ∧ fe.FreeRun a n := by
  constructor
  · rintro ⟨c, hc, hle⟩
    rcases hmerged.old c hc with hold | hfirst
    · exact Or.inl ⟨c, hold, hle⟩
    · exact Or.inr ⟨c.1, hfirst, fun y hy hy' => mem_of_same hsame.symm ⟨c, hc, hy, by omega⟩⟩
  · rintro (⟨b, hb, hle⟩ | ⟨a, hfirst, hrun⟩)
    · obtain ⟨c, hc, hcb, hbc⟩ := hmerged.covered b hb
      exact ⟨c, hc, by omega⟩
    · have hapart : fe'.FirstApart := hmerged.apart
      have hfirst' : fe'.firstAddr = some a := hmerged.first.trans hfirst
      obtain ⟨⟨a', m, p⟩, he, rfl⟩ := Option.map_eq_some_iff.mp hfirst'
      have hget := SortedMap.get?_eq_some_iff.mpr (List.mem_of_mem_head? he)
      obtain ⟨rfl, -⟩ := h.flat hget
      refine ⟨(a', m), mem_blocks hget, ?_⟩
      by_contra hlt
      exact hapart.not_free h hdisj hfirst' hget
        (mem_of_same hsame (hrun (a' + m) (Nat.le_add_right _ _) (by simp only at hlt ⊢; omega)))

/-- Without overflow checks no search panics: it finds a block if there is one of the size. -/
theorem search_wrapping
    (hmem : ∀ size addr, addr ∈ fe.sizeItems size ↔ fe.addrs.get? addr = some (size, 0))
    (hnonempty : ∀ size set, fe.sizes.get? size = some set → IndexSet.isEmpty set = false)
    {upper : ℕ} (size align : ℕ) (hsome : fe.sizes.firstFrom upper ≠ none) :
    ∃ a fe', fe.search .wrapping upper size align = .found (some a) fe' := by
  obtain ⟨⟨freeSize, addrs⟩, hfirst⟩ := Option.ne_none_iff_exists'.mp hsome
  obtain ⟨-, hget⟩ := SortedMap.firstFrom_eq_some hfirst
  obtain ⟨a, ha⟩ := IndexSet.exists_pop (ne_true_of_eq_false (hnonempty _ _ hget))
  have hitem : a ∈ fe.sizeItems freeSize := by
    rw [sizeItems, hget]
    exact (IndexSet.mem_pop ha).1
  have haddr := (hmem freeSize a).mp hitem
  obtain ⟨remaining, hsub⟩ := Build.exists_wrapping_sub ((freeSize + 0) % word)
    ((size + calcPadding a align) % word)
  simp only [search, hfirst, ha, haddr, Build.wrapping_result]
  split
  · rw [hsub]
    exact ⟨a, _, rfl⟩
  · exact ⟨a, _, rfl⟩

end FreeEntries

open FreeEntries (Mirror Apart)

variable {S : Type} [LawfulIndexSet S] {build : Build} {startAddr maxSize k size align upper : ℕ}
  {s s' : BTreeAlloc S}

/-- The byte at `x` is in no block that is allocated or in the hands of a call. -/
def BTreeAlloc.Unallocated (s : BTreeAlloc S) (x : ℕ) : Prop :=
  (s.startAddr ≤ x ∧ x < s.startAddr + s.maxSize) ∧
    ∀ b ∈ s.allocatedAddrs.entries.map allocatedBlock ++ s.calls.flatMap Call.held,
      ¬ (b.1 ≤ x ∧ x < b.1 + b.2)

/-- `n` unallocated bytes from `x` on -/
def BTreeAlloc.UnallocatedRun (s : BTreeAlloc S) (x n : ℕ) : Prop :=
  ∀ y, x ≤ y → y < x + n → s.Unallocated y

theorem Inv.unallocated_iff (h : Inv build startAddr maxSize s) {x : ℕ} :
    s.Unallocated x ↔ ∃ b ∈ s.freeEntries.blocks, b.1 ≤ x ∧ x < b.1 + b.2 := by
  constructor
  · rintro ⟨hin, hnot⟩
    rw [h.region.1, h.region.2] at hin
    obtain ⟨b, hb, hx⟩ := h.partition.exists_mem hin
    rcases List.mem_append.mp hb with hb | hb
    · exact ⟨b, hb, hx⟩
    · exact absurd hx (hnot b hb)
  · rintro ⟨b, hb, hx⟩
    have hwithin := h.partition.within (List.mem_append_left _ hb) (by omega)
    refine ⟨?_, fun c hc hx' => h.free_disjoint hb hc x ⟨hx, hx'⟩⟩
    rw [h.region.1, h.region.2]
    omega

theorem Inv.unallocatedRun_iff (h : Inv build startAddr maxSize s) {x n : ℕ} :
    s.UnallocatedRun x n ↔ s.freeEntries.FreeRun x n := by
  simp only [BTreeAlloc.UnallocatedRun, FreeEntries.FreeRun, h.unallocated_iff]

/-- What `merge` needs to make a block of `n` bytes: something is free, and if `n` bytes are
unallocated in one place, then `n` bytes of one free block or from the lowest free address on. -/
def BTreeAlloc.Mergeable (s : BTreeAlloc S) (n : ℕ) : Prop :=
  s.freeEntries.addrs.entries ≠ [] ∧ ((∃ x, s.UnallocatedRun x n) →
    (∃ b ∈ s.freeEntries.blocks, n ≤ b.2) ∨
      ∃ a, s.freeEntries.firstAddr = some a ∧ s.UnallocatedRun a n)

/-- The steps that a call has in front of it, at most -/
def MallocPc.left : MallocPc → ℕ
  | .start => 3
  | .waiting _ => 2
  | .taken _ => 1
  | .returned _ | .panicked => 0


variable (size align) in
/-- After the merge there is a block of `n` bytes exactly if there is room for one. -/
theorem Inv.merged_none_iff (h : Inv build startAddr maxSize s) {fe : FreeEntries S} {n : ℕ}
    (hmerge : s.freeEntries.mergeNat = some fe) (hmirror : fe.Mirror) (hapart : fe.Apart)
    (hsame : Blocks.Same s.freeEntries.blocks fe.blocks) : fe.sizes.firstFrom n = none ↔
      ¬ ((∃ b ∈ s.freeEntries.blocks, n ≤ b.2) ∨
        ∃ a, s.freeEntries.firstAddr = some a ∧ s.UnallocatedRun a n) := by
  simp only [h.unallocatedRun_iff]
  rw [FreeEntries.firstFrom_eq_none_iff hmirror,
    ← (FreeEntries.mergeNat_mergedTo h.mirror hmerge).exists_large_iff hmirror hapart hsame]
  push Not
  rfl

omit [LawfulIndexSet S] in
theorem BTreeAlloc.setCall_getElem? (s : BTreeAlloc S) (hk : k < s.calls.length) (c : Call) :
    (s.setCall k c).calls[k]? = some c := by
  simp [setCall, hk]

theorem upperSize_cases (hsize : 0 < size) (hupper : upperSize build size align = some upper) :
    upper = size + align - 1 ∨ build = .wrapping ∧ word ≤ size + align - 1 := by
  obtain ⟨sum, hsum, hsub⟩ := Option.bind_eq_some_iff.mp hupper
  cases build with
  | checked =>
    obtain ⟨-, rfl⟩ := Build.checked_result_eq_some_iff.mp hsum
    unfold Build.sub at hsub
    split at hsub <;> cases hsub
    exact Or.inl rfl
  | wrapping =>
    rw [Build.wrapping_result] at hsum
    cases hsum
    rcases Nat.lt_trichotomy (size + align) word with hlt | heq | hgt
    · rw [Nat.mod_eq_of_lt hlt] at hsub
      unfold Build.sub at hsub
      split at hsub <;> cases hsub <;> left <;> omega
    · rw [heq, Nat.mod_self, Build.wrapping_sub_of_lt Nat.one_pos] at hsub
      cases hsub
      exact Or.inl (by omega)
    · exact Or.inr ⟨rfl, by omega⟩

theorem upperSize_eq_none_iff (hsize : 0 < size) : upperSize build size align = none ↔
    build = .checked ∧ word ≤ size + align := by
  cases build with
  | checked =>
    by_cases hlt : size + align < word
    · have hsub := Build.checked.sub_of_le (show 1 ≤ size + align by omega)
      simp [upperSize, Build.result_of_lt _ hlt, hsub, hlt]
    · have hnone : Build.checked.result (size + align) = none := if_neg hlt
      simp [upperSize, hnone, Nat.le_of_not_lt hlt]
  | wrapping =>
    obtain ⟨n, hsub⟩ := Build.exists_wrapping_sub ((size + align) % word) 1
    simp [upperSize, Build.wrapping_result, hsub]

theorem Inv.not_unallocatedRun (h : Inv build startAddr maxSize s) {x n : ℕ} (hn : word ≤ n) :
    ¬ s.UnallocatedRun x n := by
  intro hrun
  have hbound := h.bound
  have hword : 0 < word := by decide
  have hfirst := (hrun x (Nat.le_refl x) (by omega)).1
  have hlast := (hrun (x + n - 1) (by omega) (by omega)).1
  rw [h.region.1, h.region.2] at hfirst hlast
  omega

/-- Where a call goes on after the search -/
theorem BTreeAlloc.takeFrom_call (s : BTreeAlloc S) {fe : FreeEntries S} (hk : k < s.calls.length)
    (notFound : MallocPc) (hsearch : fe.sizes.firstFrom upper ≠ none →
      ∃ a fe', fe.search build upper size align = .found (some a) fe') :
    fe.sizes.firstFrom upper = none ∧ (s.takeFrom build k upper size align fe notFound).calls[k]? =
        some (.tryMalloc size align notFound) ∨
      fe.sizes.firstFrom upper ≠ none ∧
        ∃ a, (s.takeFrom build k upper size align fe notFound).calls[k]? =
          some (.tryMalloc size align (.taken a)) := by
  by_cases hnone : fe.sizes.firstFrom upper = none
  · rw [s.takeFrom_of_none k size align notFound hnone]
    exact Or.inl ⟨hnone, s.setCall_getElem? hk _⟩
  · obtain ⟨a, fe', hfound⟩ := hsearch hnone
    unfold takeFrom
    rw [hfound]
    exact Or.inr ⟨hnone, a, s.setCall_getElem? hk _⟩

/-- In no build does a search panic. -/
theorem Inv.search_found (h : Inv build startAddr maxSize s) {fe : FreeEntries S}
    (hmirror : fe.Mirror) (hapart : fe.Apart) (hin : fe.Within (startAddr + maxSize))
    (hargs : 0 < size ∧ 0 < align) (hupper : upperSize build size align = some upper)
    (hsome : fe.sizes.firstFrom upper ≠ none) :
    ∃ a fe', fe.search build upper size align = .found (some a) fe' := by
  rcases upperSize_cases hargs.1 hupper with rfl | ⟨rfl, -⟩
  · rw [FreeEntries.search_eq build h.bound hmirror hin hargs.1 hargs.2]
    rcases FreeEntries.search_spec hmirror hapart hargs.1 hargs.2 with hnot | ⟨a, fe', hfound, -⟩
    · unfold FreeEntries.searchNat at hnot
      obtain ⟨e, he⟩ := Option.ne_none_iff_exists'.mp hsome
      rw [he] at hnot
      simp only at hnot
      split at hnot
      · cases hnot
      · split at hnot
        · cases hnot
        · split at hnot <;> cases hnot
    · exact ⟨a, fe', hfound⟩
  · exact FreeEntries.search_wrapping hmirror.mem_iff
      (fun _ _ hget => eq_false_of_ne_true (hmirror.nonempty hget)) size align hsome

/-! ## The calls -/

/-- What a step of `try_malloc` promises, and when it keeps it. -/
def BTreeAlloc.TryMallocStep (build : Build) (s : BTreeAlloc S) (k size align : ℕ)
    (pc : MallocPc) : Prop :=
  ∃ s' pc', s.step build (.run k) = some s' ∧
    s'.calls[k]? = some (.tryMalloc size align pc') ∧ pc'.left < pc.left ∧
    ((pc' ≠ .panicked ∧
        (pc' = .returned none → ¬ ∃ x, s.UnallocatedRun x (size + align - 1))) ↔
      (pc = .start → build = .checked → size + align < word) ∧
        ∀ upper, pc = .waiting upper → s.Mergeable (size + align - 1))

/-- The first step: it panics where `upper_size` does. -/
theorem BTreeAlloc.tryMallocStep_start
    (hk : s.calls[k]? = some (.tryMalloc size align .start)) (hargs : 0 < size ∧ 0 < align)
    (hsearch : ∀ upper, upperSize build size align = some upper →
      s.freeEntries.sizes.firstFrom upper ≠ none →
        ∃ a fe', s.freeEntries.search build upper size align = .found (some a) fe') :
    s.TryMallocStep build k size align .start := by
  have hlt := (List.getElem?_eq_some_iff.mp hk).1
  cases hupper : upperSize build size align with
  | none =>
    obtain ⟨hchecked, hle⟩ := (upperSize_eq_none_iff hargs.1).mp hupper
    refine ⟨s.setCall k (.tryMalloc size align .panicked), .panicked, ?_,
      s.setCall_getElem? hlt _, by decide, ?_⟩
    · simp only [step, hk, runTryMalloc, hupper]
    · simp [hchecked, hle]
  | some upper =>
    have hstep : s.step build (.run k) =
        some (s.takeFrom build k upper size align s.freeEntries (.waiting upper)) := by
      simp only [step, hk, runTryMalloc, hupper]
    have hfits : build = .checked → size + align < word := fun hchecked => by
      by_contra hle
      have hnone : upperSize build size align = none :=
        (upperSize_eq_none_iff hargs.1).mpr ⟨hchecked, Nat.le_of_not_lt hle⟩
      rw [hupper] at hnone
      cases hnone
    rcases s.takeFrom_call hlt (.waiting upper) (hsearch upper hupper) with
      ⟨-, hcall⟩ | ⟨-, a, hcall⟩
    · exact ⟨_, _, hstep, hcall, by simp [MallocPc.left], by simpa using hfits⟩
    · exact ⟨_, _, hstep, hcall, by simp [MallocPc.left], by simpa using hfits⟩

/-- The second step: it merges, and panics if nothing is free. -/
theorem BTreeAlloc.tryMallocStep_waiting
    (hk : s.calls[k]? = some (.tryMalloc size align (.waiting upper)))
    (hmerge : s.freeEntries.addrs.entries = [] ∧
        s.freeEntries.merge build = .error s.freeEntries ∨
      s.freeEntries.addrs.entries ≠ [] ∧ ∃ fe, s.freeEntries.merge build = .ok fe ∧
        (fe.sizes.firstFrom upper ≠ none → s.Mergeable (size + align - 1) ∧
          ∃ a fe', fe.search build upper size align = .found (some a) fe') ∧
        (fe.sizes.firstFrom upper = none → s.Mergeable (size + align - 1) →
          ¬ ∃ x, s.UnallocatedRun x (size + align - 1))) :
    s.TryMallocStep build k size align (.waiting upper) := by
  have hlt := (List.getElem?_eq_some_iff.mp hk).1
  rcases hmerge with ⟨hnil, hmerge⟩ | ⟨hne, fe, hmerge, hsome, hnone⟩
  · refine ⟨s.setCall k (.tryMalloc size align .panicked), .panicked, ?_,
      s.setCall_getElem? hlt _, by simp [MallocPc.left], ?_⟩
    · simp only [step, hk, runTryMalloc, hmerge, setCall]
    · simp [Mergeable, hnil]
  · have hstep : s.step build (.run k) =
        some (s.takeFrom build k upper size align fe (.returned none)) := by
      simp only [step, hk, runTryMalloc, hmerge]
    rcases s.takeFrom_call hlt (.returned none) (fun h => (hsome h).2) with
      ⟨hsearch, hcall⟩ | ⟨hsearch, a, hcall⟩
    · refine ⟨_, _, hstep, hcall, by simp [MallocPc.left], ?_⟩
      constructor
      · rintro ⟨-, hreturned⟩
        refine ⟨by simp, ?_⟩
        rintro _ ⟨⟩
        exact ⟨hne, fun hrun => absurd hrun (hreturned rfl)⟩
      · rintro ⟨-, hmergeable⟩
        exact ⟨by simp, fun _ => hnone hsearch (hmergeable upper rfl)⟩
    · refine ⟨_, _, hstep, hcall, by simp [MallocPc.left], ?_⟩
      constructor
      · rintro -
        refine ⟨by simp, ?_⟩
        rintro _ ⟨⟩
        exact (hsome hsearch).1
      · exact fun _ => ⟨by simp, by simp⟩

theorem Inv.tryMallocStep (h : Inv build startAddr maxSize s) {pc : MallocPc}
    (hk : s.calls[k]? = some (.tryMalloc size align pc)) (hpc : 0 < pc.left) :
    s.TryMallocStep build k size align pc := by
  obtain ⟨hargs, hwaiting, -⟩ := h.calls _ (List.mem_of_getElem? hk)
  have hlt := (List.getElem?_eq_some_iff.mp hk).1
  cases pc with
  | start =>
    exact s.tryMallocStep_start hk hargs fun upper hupper =>
      h.search_found h.mirror h.apart h.within hargs hupper
  | waiting upper =>
    have hupper := hwaiting upper rfl
    refine s.tryMallocStep_waiting hk ?_
    rcases h.merge with hnil | ⟨fe, hnat, hmerge, hmirror, hsame, hapart, hin⟩
    · exact Or.inl hnil
    · have hne : s.freeEntries.addrs.entries ≠ [] := fun hnil => by
        rw [FreeEntries.mergeNat, if_pos hnil] at hnat
        cases hnat
      refine Or.inr ⟨hne, fe, hmerge, fun hsome => ⟨?_, ?_⟩, fun hnone hmergeable hrun => ?_⟩
      · refine ⟨hne, fun hrun => ?_⟩
        rcases upperSize_cases hargs.1 hupper with rfl | ⟨-, hle⟩
        · have hiff := h.merged_none_iff hnat hmirror hapart hsame (n := size + align - 1)
          exact Classical.not_not.mp fun h => hsome (hiff.mpr h)
        · obtain ⟨x, hrun⟩ := hrun
          exact absurd hrun (h.not_unallocatedRun hle)
      · exact h.search_found hmirror hapart hin hargs hupper hsome
      · rcases upperSize_cases hargs.1 hupper with rfl | ⟨-, hle⟩
        · exact (h.merged_none_iff hnat hmirror hapart hsame).mp hnone (hmergeable.2 hrun)
        · obtain ⟨x, hrun⟩ := hrun
          exact h.not_unallocatedRun hle hrun
  | taken addr =>
    have hstep : s.step build (.run k) = s.runTryMalloc build k size align (.taken addr) := by
      simp only [BTreeAlloc.step, hk]
    exact ⟨_, .returned (some (addr + calcPadding addr align)), hstep.trans (h.runTaken hk),
      s.setCall_getElem? hlt _, by simp [MallocPc.left], by simp⟩
  | returned addr => cases hpc
  | panicked => cases hpc

theorem Void.not_unallocatedRun (h : Void build s) {x n : ℕ} (hn : 0 < n) :
    ¬ s.UnallocatedRun x n := by
  intro hrun
  have hin := (hrun x (Nat.le_refl x) (by omega)).1
  rw [h.space.2] at hin
  omega

theorem Void.search_found (h : Void build s) (hargs : 0 < size ∧ 0 < align)
    (hupper : upperSize build size align = some upper)
    (hsome : s.freeEntries.sizes.firstFrom upper ≠ none) :
    ∃ a fe', s.freeEntries.search build upper size align = .found (some a) fe' := by
  rcases upperSize_cases hargs.1 hupper with rfl | ⟨rfl, -⟩
  · exact absurd (h.firstFrom hargs (Or.inl rfl)) hsome
  · exact FreeEntries.search_wrapping h.partitioned.mirror h.partitioned.nonempty size align hsome

theorem Void.tryMallocStep (h : Void build s) {pc : MallocPc}
    (hk : s.calls[k]? = some (.tryMalloc size align pc)) (hpc : 0 < pc.left) :
    s.TryMallocStep build k size align pc := by
  obtain ⟨hheld, hargs, hwaiting, -⟩ := h.calls _ (List.mem_of_getElem? hk)
  have hnot : ¬ ∃ x, s.UnallocatedRun x (size + align - 1) := fun ⟨x, hrun⟩ =>
    h.not_unallocatedRun (by omega) hrun
  cases pc with
  | start =>
    exact s.tryMallocStep_start hk hargs fun upper hupper => h.search_found hargs hupper
  | waiting upper =>
    refine s.tryMallocStep_waiting hk (h.merge.imp_right fun ⟨hne, hmerge⟩ => ?_)
    exact ⟨hne, _, hmerge, fun hsome => ⟨⟨hne, fun hrun => absurd hrun hnot⟩,
      h.search_found hargs (hwaiting upper rfl) hsome⟩, fun _ _ => hnot⟩
  | taken a => cases hheld
  | returned a => cases hpc
  | panicked => cases hpc

/-- Every `try_malloc` that has begun comes to its end in at most three steps. It does not panic
and returns `None` only if the bytes for the block and the largest padding are not unallocated
in one place, exactly if `size + align` does not panic and `merge`, should it come to that, can do
what is needed. -/
theorem try_malloc_exact (hs : Reachable build s) {pc : MallocPc}
    (hk : s.calls[k]? = some (.tryMalloc size align pc)) (hpc : 0 < pc.left) :
    ∃ s' pc', s.step build (.run k) = some s' ∧
      s'.calls[k]? = some (.tryMalloc size align pc') ∧ pc'.left < pc.left ∧
      ((pc' ≠ .panicked ∧
          (pc' = .returned none → ¬ ∃ x, s.UnallocatedRun x (size + align - 1))) ↔
        (pc = .start → build = .checked → size + align < word) ∧
          ∀ upper, pc = .waiting upper → s.Mergeable (size + align - 1)) := by
  rcases hs.sound with h | ⟨-, h⟩
  · exact h.tryMallocStep hk hpc
  · exact h.tryMallocStep hk hpc

/-- The first step of a `try_malloc` of 4 bytes that are aligned to 8 -/
theorem try_malloc_exact_first : ∃ (s s' : BTreeAlloc ItemList) (pc' : MallocPc),
    Reachable .checked s ∧ s.step .checked (.run 0) = some s' ∧
    s'.calls[0]? = some (.tryMalloc 4 8 pc') ∧ pc' ≠ .panicked := by
  have hrun : ∃ s, Transition.run (Transition.guarded (BTreeAlloc.step .checked)
      (BTreeAlloc.Fits .checked)) (BTreeAlloc.new : BTreeAlloc ItemList)
      [.init 0 16, .tryMalloc 4 8] = some s ∧ s.calls[0]? = some (.tryMalloc 4 8 .start) :=
    ⟨_, rfl, rfl⟩
  obtain ⟨s, hrun, hcall⟩ := hrun
  have hs : Reachable .checked s := Transition.Reach.run_guarded (.init rfl) hrun
  obtain ⟨s', pc', hstep, hcall', -, hiff⟩ := try_malloc_exact hs hcall (by decide)
  exact ⟨s, s', pc', hs, hstep, hcall', (hiff.mpr ⟨fun _ _ => by decide, by simp⟩).1⟩

/-- The second `try_malloc` finds nothing free and panics. -/
theorem try_malloc_panics : ∃ s : BTreeAlloc ItemList, Reachable .checked s ∧
    Call.tryMalloc 1 1 .panicked ∈ s.calls := by
  have hrun : ∃ s, Transition.run (Transition.guarded (BTreeAlloc.step .checked)
      (BTreeAlloc.Fits .checked)) (BTreeAlloc.new : BTreeAlloc ItemList)
      [.init 0 1, .tryMalloc 1 1, .run 0, .run 0, .tryMalloc 1 1, .run 1, .run 1] = some s ∧
        Call.tryMalloc 1 1 .panicked ∈ s.calls :=
    ⟨_, rfl, List.mem_cons_of_mem _ List.mem_cons_self⟩
  obtain ⟨s, hrun, hcall⟩ := hrun
  exact ⟨s, Transition.Reach.run_guarded (.init rfl) hrun, hcall⟩

end Lamellar.Alloc
