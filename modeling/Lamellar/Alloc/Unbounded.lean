import Lamellar.Alloc.FreeEntries
import Lamellar.Lib.Blocks

/-!
# The free entries with unbounded numbers

The operations of `FreeEntries` as they are meant, without the end of a word. They keep the map of
the sizes the mirror of the other (`Mirror`), and between them the free blocks do not change
(`blocks`). Where all free blocks end below `word`, the operations of every build are these
(`merge_eq`, `search_eq`, `giveBack_eq`).
-/

namespace Lamellar.Alloc

open Blocks (Same)
open IndexSet (items isEmpty pop remove)

namespace FreeEntries

section

variable {S : Type} [IndexSet S]

/-- None if the assertion fails. -/
def mergeTurnsNat : ℕ → FreeEntries S → Option (FreeEntries S)
  | 0, fe => some fe
  | n + 1, fe =>
    match fe.addrs.popFirst with
    | some ((faddr, fsize, fpadding), addrs) =>
      match addrs.popFirst with
      | some ((naddr, nsize, npadding), addrs) =>
        if faddr + fsize + fpadding = naddr then
          if fpadding + npadding = 0 then
            let fe := { fe with addrs }
            mergeTurnsNat n (((fe.removeSize naddr nsize).removeSize faddr fsize).put faddr
              (fsize + nsize))
          else none
        else
          mergeTurnsNat n
            { fe with
              addrs := (addrs.insert faddr (fsize, fpadding)).insert naddr (nsize, npadding) }
      | none => none
    | none => none

def mergeNat (fe : FreeEntries S) : Option (FreeEntries S) :=
  if fe.addrs.entries = [] then none else mergeTurnsNat (fe.addrs.entries.length - 1) fe

def searchNat (fe : FreeEntries S) (size align : ℕ) : Search S :=
  match fe.sizes.firstFrom (size + align - 1) with
  | none => .notFound
  | some (freeSize, addrs) =>
    let popped := pop addrs
    let fe₁ := { fe with sizes := fe.sizes.insert freeSize popped.2 }
    match popped.1 with
    | none => .found none (fe₁.trim freeSize popped.2)
    | some a =>
      let fullSize := size + calcPadding a align
      match fe₁.addrs.get? a with
      | none => .panicked fe₁
      | some (fsize, fpadding) =>
        let fe₂ := { fe₁ with addrs := fe₁.addrs.erase a }
        if fsize + fpadding ≠ fullSize then
          let fe₃ := fe₂.put (a + fullSize) (fsize + fpadding - fullSize)
          .found (some a) (fe₃.trim freeSize popped.2)
        else .found (some a) (fe₂.trim freeSize popped.2)

def beforeNat (fe : FreeEntries S) (tempAddr addr : ℕ) : Option (ℕ × ℕ × ℕ) :=
  (fe.addrs.lastBelow tempAddr).filter fun (faddr, fsize, fpadding) =>
    faddr + fsize + fpadding = addr

def afterNat (fe : FreeEntries S) (addr tempEnd : ℕ) : Option (ℕ × ℕ × ℕ) :=
  (fe.addrs.firstFrom addr).filter fun (faddr, _, _) => tempEnd = faddr

/-- The block of `fullSize` at `unpaddedAddr` with its neighbours -/
def giveBackNat (fe : FreeEntries S) (addr unpaddedAddr fullSize : ℕ) : FreeEntries S :=
  let before := fe.beforeNat unpaddedAddr addr
  let (tempAddr, tempSize) :=
    match before with
    | some (faddr, fsize, fpadding) => (faddr, fullSize + (fsize + fpadding))
    | none => (unpaddedAddr, fullSize)
  let after := fe.afterNat addr (tempAddr + tempSize)
  let tempSize :=
    match after with
    | some (_, fsize, fpadding) => tempSize + (fsize + fpadding)
    | none => tempSize
  let remove := before.toList ++ after.toList
  (remove.foldl (fun fe (raddr, rsize, rpadding) => fe.drop raddr (rsize + rpadding)) fe).put
    tempAddr tempSize

/-! ## The mirror -/

/-- The addresses under `size`. -/
def sizeItems (fe : FreeEntries S) (size : ℕ) : Set ℕ :=
  match fe.sizes.get? size with
  | some s => items s
  | none => ∅

structure Mirror (fe : FreeEntries S) : Prop where
  mem_iff : ∀ size addr, addr ∈ fe.sizeItems size ↔ fe.addrs.get? addr = some (size, 0)
  nonempty : ∀ {size s}, fe.sizes.get? size = some s → isEmpty s ≠ true
  flat : ∀ {addr size padding}, fe.addrs.get? addr = some (size, padding) →
    padding = 0 ∧ 0 < size

/-- The free blocks. -/
def blocks (fe : FreeEntries S) : List (ℕ × ℕ) :=
  fe.addrs.entries.map fun (addr, size, padding) => (addr, size + padding)

end

variable {S : Type} [LawfulIndexSet S] {fe : FreeEntries S}
  {addr addr' size size' : ℕ}

theorem mem_sizeItems_insert {sizes : SortedMap S} {s : S}
    {addrs : SortedMap (ℕ × ℕ)} : addr ∈ sizeItems ⟨sizes.insert size s, addrs⟩ size' ↔
      if size' = size then addr ∈ items s else addr ∈ sizeItems ⟨sizes, addrs⟩ size' := by
  unfold sizeItems
  simp only [SortedMap.get?_insert]
  by_cases hs : size' = size <;> simp [hs]

theorem mem_sizeItems_erase {sizes : SortedMap S} {addrs : SortedMap (ℕ × ℕ)} :
    addr ∈ sizeItems ⟨sizes.erase size, addrs⟩ size' ↔
      size' ≠ size ∧ addr ∈ sizeItems ⟨sizes, addrs⟩ size' := by
  unfold sizeItems
  simp only [SortedMap.get?_erase]
  by_cases hs : size' = size <;> simp [hs]

theorem mem_sizeItems_put : addr' ∈ (fe.put addr size).sizeItems size' ↔
    addr' ∈ fe.sizeItems size' ∨ size' = size ∧ addr' = addr := by
  unfold put
  rw [mem_sizeItems_insert, IndexSet.mem_insert]
  unfold sizeItems
  split
  · rename_i hs
    subst hs
    cases fe.sizes.get? size' with
    | none => simp [LawfulIndexSet.not_mem_new]
    | some s => simp
  · rename_i hs
    simp [hs]

theorem removeSize_addrs (fe : FreeEntries S) (addr size : ℕ) :
    (fe.removeSize addr size).addrs = fe.addrs := by
  unfold removeSize
  split
  · simp only
    split <;> rfl
  · rfl

theorem mem_sizeItems_removeSize : addr' ∈ (fe.removeSize addr size).sizeItems size' ↔
    addr' ∈ fe.sizeItems size' ∧ ¬ (size' = size ∧ addr' = addr) := by
  unfold removeSize
  split
  · rename_i s hs
    have hitems : fe.sizeItems size = items s := by
      unfold sizeItems
      rw [hs]
    have hmem : ∀ b, b ∈ items (remove s addr) ↔ b ∈ fe.sizeItems size ∧ b ≠ addr := by
      intro b
      rw [hitems]
      exact IndexSet.mem_remove
    simp only
    split
    · rename_i hnil
      rw [mem_sizeItems_erase]
      have hnot := (hmem addr').mpr.mt ((LawfulIndexSet.isEmpty_iff _).mp hnil addr')
      by_cases hs' : size' = size
      · subst hs'
        simpa using hnot
      · simp [hs']
    · rw [mem_sizeItems_insert]
      by_cases hs' : size' = size
      · subst hs'
        simp [hmem]
      · simp [hs']
  · rename_i hs
    by_cases hs' : size' = size
    · subst hs'
      have hnil : fe.sizeItems size' = ∅ := by
        unfold sizeItems
        rw [hs]
      simp [hnil]
    · simp [hs']

/-! ## The operations -/

theorem put_addrs (fe : FreeEntries S) (addr size : ℕ) :
    (fe.put addr size).addrs = fe.addrs.insert addr (size, 0) := rfl

theorem put_nonempty (h : ∀ {size s}, fe.sizes.get? size = some s → isEmpty s ≠ true) {s : S}
    (hs : (fe.put addr size).sizes.get? size' = some s) : isEmpty s ≠ true := by
  rw [put, SortedMap.get?_insert] at hs
  split at hs
  · cases hs
    exact IndexSet.not_isEmpty_of_mem (IndexSet.mem_insert.mpr (Or.inr rfl))
  · exact h hs

theorem Mirror.put (h : fe.Mirror) (hfresh : fe.addrs.get? addr = none) (hpos : 0 < size) :
    (fe.put addr size).Mirror := by
  refine ⟨fun size' addr' => ?_, fun hs => put_nonempty h.nonempty hs, fun hget => ?_⟩
  · rw [mem_sizeItems_put, h.mem_iff, FreeEntries.put, SortedMap.get?_insert]
    split
    · rename_i ha
      subst ha
      simp [hfresh, eq_comm]
    · rename_i ha
      simp [ha]
  · rw [FreeEntries.put, SortedMap.get?_insert] at hget
    split at hget
    · cases hget
      exact ⟨rfl, hpos⟩
    · exact h.flat hget

theorem removeSize_nonempty (h : ∀ {size s}, fe.sizes.get? size = some s → isEmpty s ≠ true)
    {s : S} (hs : (fe.removeSize addr size).sizes.get? size' = some s) : isEmpty s ≠ true := by
  unfold removeSize at hs
  split at hs
  · simp only at hs
    split at hs
    · rw [SortedMap.get?_erase] at hs
      split at hs
      · cases hs
      · exact h hs
    · rename_i hne
      rw [SortedMap.get?_insert] at hs
      split at hs
      · cases hs
        exact hne
      · exact h hs
  · exact h hs

theorem drop_addrs (fe : FreeEntries S) (addr size : ℕ) :
    (fe.drop addr size).addrs = fe.addrs.erase addr := removeSize_addrs _ _ _

theorem Mirror.drop (h : fe.Mirror) (hget : fe.addrs.get? addr = some (size, 0)) :
    (fe.drop addr size).Mirror := by
  refine ⟨fun size' addr' => ?_, fun hs => @removeSize_nonempty _ _
    { fe with addrs := fe.addrs.erase addr } addr size _ h.nonempty _ hs, fun hget' => ?_⟩
  · rw [drop_addrs, SortedMap.get?_erase, FreeEntries.drop, mem_sizeItems_removeSize]
    change addr' ∈ fe.sizeItems size' ∧ _ ↔ _
    rw [h.mem_iff]
    split
    · rename_i ha
      subst ha
      simp [hget, eq_comm]
    · rename_i ha
      simp [ha]
  · rw [drop_addrs, SortedMap.get?_erase] at hget'
    split at hget'
    · cases hget'
    · exact h.flat hget'

theorem blocks_put (hfresh : fe.addrs.get? addr = none) :
    (fe.put addr size).blocks.Perm ((addr, size) :: fe.blocks) :=
  (SortedMap.perm_insert hfresh).map _

omit [LawfulIndexSet S] in
theorem blocks_erase (hget : fe.addrs.get? addr = some (size, 0)) :
    fe.blocks.Perm ((addr, size) :: blocks { fe with addrs := fe.addrs.erase addr }) :=
  (SortedMap.perm_erase hget).map _

theorem blocks_drop (hget : fe.addrs.get? addr = some (size, 0)) :
    fe.blocks.Perm ((addr, size) :: (fe.drop addr size).blocks) := by
  have h := blocks_erase hget
  rwa [blocks, ← drop_addrs fe addr size] at h

omit [LawfulIndexSet S] in
theorem mem_blocks (hget : fe.addrs.get? addr = some (size, 0)) : (addr, size) ∈ fe.blocks :=
  (blocks_erase hget).mem_iff.mpr List.mem_cons_self

theorem mem_blocks_iff (h : fe.Mirror) {addr size : ℕ} :
    (addr, size) ∈ fe.blocks ↔ fe.addrs.get? addr = some (size, 0) := by
  refine ⟨fun hmem => ?_, mem_blocks⟩
  obtain ⟨⟨a, n, p⟩, he, heq⟩ := List.mem_map.mp hmem
  have hget := SortedMap.get?_eq_some_iff.mpr he
  obtain ⟨rfl, -⟩ := h.flat hget
  cases heq
  exact hget

/-- Joining two free blocks. -/
theorem Mirror.join (h : fe.Mirror) {faddr fsize nsize : ℕ}
    (hf : fe.addrs.get? faddr = some (fsize, 0))
    (hn : fe.addrs.get? (faddr + fsize) = some (nsize, 0)) :
    (((fe.drop (faddr + fsize) nsize).drop faddr fsize).put faddr (fsize + nsize)).Mirror ∧
      Same fe.blocks
        (((fe.drop (faddr + fsize) nsize).drop faddr fsize).put faddr (fsize + nsize)).blocks := by
  have hpos := (h.flat hf).2
  have hf' : (fe.drop (faddr + fsize) nsize).addrs.get? faddr = some (fsize, 0) := by
    rw [drop_addrs, SortedMap.get?_erase, if_neg (by omega), hf]
  have hfresh : ((fe.drop (faddr + fsize) nsize).drop faddr fsize).addrs.get? faddr = none := by
    rw [drop_addrs, SortedMap.get?_erase, if_pos rfl]
  refine ⟨((h.drop hn).drop hf').put hfresh (by omega), ?_⟩
  have hsplit := Same.split faddr fsize nsize
    ((fe.drop (faddr + fsize) nsize).drop faddr fsize).blocks
  have hperm : fe.blocks.Perm ((faddr, fsize) :: (faddr + fsize, nsize) ::
      ((fe.drop (faddr + fsize) nsize).drop faddr fsize).blocks) :=
    (blocks_drop hn).trans (((blocks_drop hf').cons _).trans (List.Perm.swap _ _ _))
  exact (Same.of_perm hperm).trans (hsplit.symm.trans (Same.of_perm (blocks_put hfresh)).symm)

/-- `removeSize` does not look at the addresses. -/
theorem removeSize_of_addrs (fe : FreeEntries S) (addrs : SortedMap (ℕ × ℕ)) (addr size : ℕ) :
    removeSize { fe with addrs } addr size = { fe.removeSize addr size with addrs } := by
  unfold removeSize
  simp only
  split
  · split <;> rfl
  · rfl

theorem erase_comm (addrs : SortedMap (ℕ × ℕ)) (addr addr' : ℕ) :
    (addrs.erase addr).erase addr' = (addrs.erase addr').erase addr := by
  refine SortedMap.ext_get? fun k => ?_
  simp only [SortedMap.get?_erase]
  split <;> split <;> rfl

/-- The first two blocks in one. -/
def joinFirst (fe : FreeEntries S) (faddr fsize nsize : ℕ) : FreeEntries S :=
  ((fe.drop (faddr + fsize) nsize).drop faddr fsize).put faddr (fsize + nsize)

theorem removeSizes_eq (fe : FreeEntries S) (faddr fsize nsize : ℕ) :
    ((removeSize { fe with addrs := (fe.addrs.erase faddr).erase (faddr + fsize) }
      (faddr + fsize) nsize).removeSize faddr fsize).put faddr (fsize + nsize) =
        fe.joinFirst faddr fsize nsize := by
  unfold joinFirst drop
  rw [erase_comm]
  simp only [removeSize_of_addrs]

/-- Both blocks go back to where they were. -/
theorem insert_popped {addrs : SortedMap (ℕ × ℕ)} {faddr naddr : ℕ} {f n : ℕ × ℕ}
    {rest : List (ℕ × ℕ × ℕ)} (hentries : addrs.entries = (faddr, f) :: (naddr, n) :: rest) :
    (((addrs.erase faddr).erase naddr).insert faddr f).insert naddr n = addrs := by
  have hf : addrs.get? faddr = some f :=
    SortedMap.get?_eq_some_iff.mpr (hentries ▸ List.mem_cons_self)
  have hn : addrs.get? naddr = some n :=
    SortedMap.get?_eq_some_iff.mpr (hentries ▸ List.mem_cons_of_mem _ List.mem_cons_self)
  refine SortedMap.ext_get? fun k => ?_
  simp only [SortedMap.get?_insert, SortedMap.get?_erase]
  split
  · rename_i hk
    rw [hk, hn]
  · split
    · rename_i hk
      rw [hk, hf]
    · rfl

/-- A turn of `merge` looks at the first two blocks, and joins them or leaves all as it is. -/
theorem mergeTurnsNat_succ {faddr fsize naddr nsize : ℕ} {rest : List (ℕ × ℕ × ℕ)}
    (hentries : fe.addrs.entries = (faddr, fsize, 0) :: (naddr, nsize, 0) :: rest) (n : ℕ) :
    mergeTurnsNat (n + 1) fe =
      if faddr + fsize = naddr then mergeTurnsNat n (fe.joinFirst faddr fsize nsize)
      else mergeTurnsNat n fe := by
  rw [mergeTurnsNat, SortedMap.popFirst_eq hentries]
  simp only
  rw [SortedMap.popFirst_eq (SortedMap.erase_first hentries)]
  simp only [Nat.add_zero, if_true, insert_popped hentries]
  split
  · rename_i hadjacent
    subst hadjacent
    rw [removeSizes_eq]
  · rfl

/-- The first two of the free blocks. -/
theorem Mirror.exists_first_two (h : fe.Mirror) (hlen : 2 ≤ fe.addrs.entries.length) :
    ∃ faddr fsize naddr nsize rest,
      fe.addrs.entries = (faddr, fsize, 0) :: (naddr, nsize, 0) :: rest := by
  match hentries : fe.addrs.entries with
  | [] => simp [hentries] at hlen
  | [e] => simp [hentries] at hlen
  | (f, n, p) :: (g, m, q) :: rest =>
    obtain ⟨rfl, -⟩ := h.flat (SortedMap.get?_eq_some_iff.mpr (hentries ▸ List.mem_cons_self))
    obtain ⟨rfl, -⟩ := h.flat (SortedMap.get?_eq_some_iff.mpr
      (hentries ▸ List.mem_cons_of_mem _ List.mem_cons_self))
    exact ⟨f, n, g, m, rest, rfl⟩

theorem Mirror.joinFirst (h : fe.Mirror) {faddr fsize nsize : ℕ} {rest : List (ℕ × ℕ × ℕ)}
    (hentries : fe.addrs.entries = (faddr, fsize, 0) :: (faddr + fsize, nsize, 0) :: rest) :
    (fe.joinFirst faddr fsize nsize).Mirror ∧
      Same fe.blocks (fe.joinFirst faddr fsize nsize).blocks :=
  h.join (SortedMap.get?_eq_some_iff.mpr (hentries ▸ List.mem_cons_self))
    (SortedMap.get?_eq_some_iff.mpr (hentries ▸ List.mem_cons_of_mem _ List.mem_cons_self))

theorem joinFirst_entries {faddr fsize nsize : ℕ} {rest : List (ℕ × ℕ × ℕ)}
    (hentries : fe.addrs.entries = (faddr, fsize, 0) :: (faddr + fsize, nsize, 0) :: rest) :
    (fe.joinFirst faddr fsize nsize).addrs.entries = (faddr, fsize + nsize, 0) :: rest := by
  have hsorted := fe.addrs.sorted
  rw [hentries] at hsorted
  have hrest : ((fe.addrs.erase faddr).erase (faddr + fsize)).entries = rest :=
    SortedMap.erase_first (SortedMap.erase_first hentries)
  unfold joinFirst put
  simp only [drop_addrs]
  rw [erase_comm, SortedMap.insert_first, hrest]
  rw [hrest]
  exact fun e he => (List.pairwise_cons.mp hsorted).1 e (List.mem_cons_of_mem _ he)

/-- With fewer turns than there are blocks, no turn fails. -/
theorem mergeTurnsNat_spec (n : ℕ) (h : fe.Mirror) (hlen : n < fe.addrs.entries.length) :
    ∃ fe', mergeTurnsNat n fe = some fe' ∧ fe'.Mirror ∧ Same fe.blocks fe'.blocks := by
  induction n generalizing fe with
  | zero => exact ⟨fe, rfl, h, .of_perm (.refl _)⟩
  | succ n ih =>
    obtain ⟨f, fsize, g, gsize, rest, hentries⟩ := h.exists_first_two (by omega)
    rw [mergeTurnsNat_succ hentries]
    split
    · rename_i hadjacent
      subst hadjacent
      obtain ⟨hmirror, hsame⟩ := h.joinFirst hentries
      have hlen' : n < (fe.joinFirst f fsize gsize).addrs.entries.length := by
        rw [joinFirst_entries hentries]
        rw [hentries] at hlen
        simp only [List.length_cons] at hlen ⊢
        omega
      obtain ⟨fe', hturns, hmirror', hsame'⟩ := ih hmirror hlen'
      exact ⟨fe', hturns, hmirror', hsame.trans hsame'⟩
    · exact ih h (by omega)

/-- `merge` panics only if nothing is free. -/
theorem exists_merge (h : fe.Mirror) (hne : fe.addrs.entries ≠ []) :
    ∃ fe', fe.mergeNat = some fe' ∧ fe'.Mirror ∧ Same fe.blocks fe'.blocks := by
  rw [mergeNat, if_neg hne]
  have hpos := List.length_pos_iff.mpr hne
  exact mergeTurnsNat_spec _ h (by omega)

/-- A size at or above `n` is found if a free block has one. -/
theorem firstFrom_eq_none_iff (h : fe.Mirror) {n : ℕ} :
    fe.sizes.firstFrom n = none ↔ ∀ b ∈ fe.blocks, b.2 < n := by
  constructor
  · rintro hnone ⟨a, size⟩ hb
    have hmem := (h.mem_iff size a).mpr ((mem_blocks_iff h).mp hb)
    unfold sizeItems at hmem
    split at hmem
    · rename_i s hs
      exact SortedMap.firstFrom_eq_none hnone (SortedMap.get?_eq_some_iff.mp hs)
    · cases hmem
  · intro hall
    cases hfirst : fe.sizes.firstFrom n with
    | none => rfl
    | some e =>
      obtain ⟨hle, hget⟩ := SortedMap.firstFrom_eq_some hfirst
      obtain ⟨a, ha⟩ := IndexSet.exists_mem (h.nonempty hget)
      have hmem : a ∈ fe.sizeItems e.1 := by
        rw [sizeItems, hget]
        exact ha
      have hlt := hall (a, e.1) (mem_blocks ((h.mem_iff e.1 a).mp hmem))
      exact absurd hle (Nat.not_le.mpr hlt)

/-- The sizes after `pop`, as if the address had been removed. -/
theorem mem_sizeItems_pop {s : S} (hs : fe.sizes.get? size = some s)
    (ha : (pop s).1 = some addr) (addrs : SortedMap (ℕ × ℕ)) :
    addr' ∈ sizeItems ⟨fe.sizes.insert size (pop s).2, addrs⟩ size' ↔
      addr' ∈ fe.sizeItems size' ∧ ¬ (size' = size ∧ addr' = addr) := by
  rw [mem_sizeItems_insert, (IndexSet.mem_pop ha).2]
  unfold sizeItems
  by_cases hs' : size' = size
  · subst hs'
    simp [hs]
  · simp [hs']

theorem trim_spec {s : S} (hs : fe.sizes.get? size = some s)
    (h : ∀ {n s'}, n ≠ size → fe.sizes.get? n = some s' → isEmpty s' ≠ true) :
    (fe.trim size s).addrs = fe.addrs ∧
      (∀ {n addr}, addr ∈ (fe.trim size s).sizeItems n ↔ addr ∈ fe.sizeItems n) ∧
      ∀ {n s'}, (fe.trim size s).sizes.get? n = some s' → isEmpty s' ≠ true := by
  unfold trim
  split
  · rename_i hnil
    refine ⟨rfl, fun {n addr} => ?_, fun {n s'} hget => ?_⟩
    · rw [mem_sizeItems_erase]
      constructor
      · exact And.right
      · intro hmem
        refine ⟨?_, hmem⟩
        rintro rfl
        change addr ∈ fe.sizeItems n at hmem
        rw [sizeItems, hs] at hmem
        exact IndexSet.not_isEmpty_of_mem hmem hnil
    · rw [SortedMap.get?_erase] at hget
      split at hget
      · cases hget
      · exact h ‹_› hget
  · rename_i hne
    refine ⟨rfl, Iff.rfl, fun {n s'} hget => ?_⟩
    by_cases hn : n = size
    · subst hn
      rw [hs] at hget
      cases hget
      exact hne
    · exact h hn hget

/-- No free block starts inside another. -/
def Apart (fe : FreeEntries S) : Prop :=
  ∀ {addr size k}, fe.addrs.get? addr = some (size, 0) → 0 < k → k < size →
    fe.addrs.get? (addr + k) = none

/-- What `try_malloc` takes is the beginning of a free block, large enough for every padding. -/
theorem search_spec (h : fe.Mirror) (hapart : fe.Apart) {align : ℕ} (hsize : 0 < size)
    (halign : 0 < align) : (fe.searchNat size align = .notFound) ∨
      ∃ a fe', fe.searchNat size align = .found (some a) fe' ∧ fe'.Mirror ∧
        Same fe.blocks ((a, size + calcPadding a align) :: fe'.blocks) := by
  unfold searchNat
  simp only
  cases hfirst : fe.sizes.firstFrom (size + align - 1) with
  | none => exact Or.inl rfl
  | some entry =>
    refine Or.inr ?_
    obtain ⟨freeSize, addrs⟩ := entry
    obtain ⟨hle, hget⟩ := SortedMap.firstFrom_eq_some hfirst
    simp only at hle hget
    obtain ⟨a, ha⟩ := IndexSet.exists_pop (h.nonempty hget)
    have hmem : a ∈ fe.sizeItems freeSize := by
      rw [sizeItems, hget]
      exact (IndexSet.mem_pop ha).1
    have haddr := (h.mem_iff freeSize a).mp hmem
    have hpad := calcPadding_lt a halign
    have hfull : size + calcPadding a align ≤ freeSize := by omega
    have hitems := fun {n b} => @mem_sizeItems_pop _ _ fe a b freeSize n addrs hget ha
    have hother : ∀ {n s'} {m : SortedMap (ℕ × ℕ)}, n ≠ freeSize →
        (FreeEntries.mk (fe.sizes.insert freeSize (pop addrs).2) m).sizes.get? n = some s' →
          isEmpty s' ≠ true := by
      intro n s' m hn hs'
      simp only [SortedMap.get?_insert, if_neg hn] at hs'
      exact h.nonempty hs'
    simp only [ha, haddr, Nat.add_zero]
    split
    · -- the rest of the block stays free
      rename_i hne
      have hfresh : (fe.addrs.erase a).get? (a + (size + calcPadding a align)) = none := by
        rw [SortedMap.get?_erase, if_neg (by omega)]
        exact hapart haddr (by omega) (by omega)
      have hne' : freeSize - (size + calcPadding a align) ≠ freeSize := by omega
      have hs : (put ⟨fe.sizes.insert freeSize (pop addrs).2, fe.addrs.erase a⟩
          (a + (size + calcPadding a align))
          (freeSize - (size + calcPadding a align))).sizes.get? freeSize = some (pop addrs).2 := by
        simp only [put, SortedMap.get?_insert, if_neg hne'.symm, if_true]
      obtain ⟨haddrs, htrim, hnonempty⟩ := trim_spec hs fun {n s'} hn hs' => by
        simp only [put, SortedMap.get?_insert] at hs'
        split at hs'
        · cases hs'
          exact IndexSet.not_isEmpty_of_mem (IndexSet.mem_insert.mpr (Or.inr rfl))
        · exact h.nonempty (by simpa [hn] using hs')
      refine ⟨a, _, rfl, ⟨fun n b => ?_, hnonempty, fun {b n p} hb => ?_⟩, ?_⟩
      · rw [htrim, mem_sizeItems_put, hitems, h.mem_iff, haddrs, put]
        simp only [SortedMap.get?_insert, SortedMap.get?_erase]
        by_cases hb : b = a + (size + calcPadding a align)
        · subst hb
          have hnone := hapart haddr (k := size + calcPadding a align) (by omega) (by omega)
          simp [hnone, eq_comm]
        · by_cases hba : b = a
          · subst hba
            have hsize' : size ≠ 0 := by omega
            simp [haddr, hsize', eq_comm]
          · simp [hb, hba]
      · rw [haddrs, put] at hb
        simp only [SortedMap.get?_insert, SortedMap.get?_erase] at hb
        split at hb
        · cases hb
          exact ⟨rfl, by omega⟩
        · split at hb
          · cases hb
          · exact h.flat hb
      · have hblocks : (trim (put ⟨fe.sizes.insert freeSize (pop addrs).2, fe.addrs.erase a⟩
            (a + (size + calcPadding a align)) (freeSize - (size + calcPadding a align)))
              freeSize (pop addrs).2).blocks.Perm
            ((a + (size + calcPadding a align), freeSize - (size + calcPadding a align)) ::
              blocks { fe with addrs := fe.addrs.erase a }) := by
          rw [blocks, haddrs]
          exact (SortedMap.perm_insert hfresh).map _
        have hsplit := Same.split a (size + calcPadding a align)
          (freeSize - (size + calcPadding a align)) (blocks { fe with addrs := fe.addrs.erase a })
        rw [Nat.add_sub_cancel' hfull] at hsplit
        exact (Same.of_perm (blocks_erase haddr)).trans
          (hsplit.trans (Same.of_perm (hblocks.symm.cons _)))
    · -- the block is used up
      rename_i heq
      rw [ne_eq, not_not] at heq
      have hs : (FreeEntries.mk (fe.sizes.insert freeSize (pop addrs).2)
          (fe.addrs.erase a)).sizes.get? freeSize = some (pop addrs).2 := by
        simp only [SortedMap.get?_insert, if_true]
      obtain ⟨haddrs, htrim, hnonempty⟩ := trim_spec hs hother
      refine ⟨a, _, rfl, ⟨fun n b => ?_, hnonempty, fun {b n p} hb => ?_⟩, ?_⟩
      · rw [htrim, hitems, h.mem_iff, haddrs]
        simp only [SortedMap.get?_erase]
        by_cases hba : b = a
        · subst hba
          simp [haddr, eq_comm]
        · simp [hba]
      · rw [haddrs] at hb
        simp only [SortedMap.get?_erase] at hb
        split at hb
        · cases hb
        · exact h.flat hb
      · have hblocks : (trim ⟨fe.sizes.insert freeSize (pop addrs).2, fe.addrs.erase a⟩ freeSize
            (pop addrs).2).blocks = blocks { fe with addrs := fe.addrs.erase a } := by
          rw [blocks, haddrs]
          rfl
        rw [hblocks, ← heq]
        exact Same.of_perm (blocks_erase haddr)

theorem lastBelow_filter {m : SortedMap (ℕ × ℕ)} {k : ℕ} {q : ℕ × ℕ × ℕ → Bool}
    {e : ℕ × ℕ × ℕ} (he : (m.lastBelow k).filter q = some e) :
    e.1 < k ∧ m.get? e.1 = some e.2 ∧ q e = true := by
  obtain ⟨hlast, hq⟩ := Option.filter_eq_some_iff.mp he
  obtain ⟨hlt, hget⟩ := SortedMap.lastBelow_eq_some hlast
  exact ⟨hlt, hget, hq⟩

theorem firstFrom_filter {m : SortedMap (ℕ × ℕ)} {k : ℕ} {q : ℕ × ℕ × ℕ → Bool}
    {e : ℕ × ℕ × ℕ} (he : (m.firstFrom k).filter q = some e) :
    k ≤ e.1 ∧ m.get? e.1 = some e.2 ∧ q e = true := by
  obtain ⟨hfirst, hq⟩ := Option.filter_eq_some_iff.mp he
  obtain ⟨hle, hget⟩ := SortedMap.firstFrom_eq_some hfirst
  exact ⟨hle, hget, hq⟩

/-- The block that comes back shares no number with the free blocks. -/
def Outside (fe : FreeEntries S) (b : ℕ × ℕ) : Prop :=
  ∀ {addr size x}, fe.addrs.get? addr = some (size, 0) → b.1 ≤ x → x < b.1 + b.2 →
    ¬ (addr ≤ x ∧ x < addr + size)

theorem Outside.get?_eq_none {b : ℕ × ℕ} (hout : fe.Outside b) (h : fe.Mirror) (hpos : 0 < b.2) :
    fe.addrs.get? b.1 = none := by
  cases hget : fe.addrs.get? b.1 with
  | none => rfl
  | some v =>
    obtain ⟨n, p⟩ := v
    obtain ⟨rfl, hn⟩ := h.flat hget
    exact absurd ⟨Nat.le_refl b.1, by omega⟩ (hout hget (Nat.le_refl _) (by omega))

theorem Mirror.put_same (h : fe.Mirror) {bs : List (ℕ × ℕ)} (hfresh : fe.addrs.get? addr = none)
    (hpos : 0 < size) (hsame : Same bs ((addr, size) :: fe.blocks)) :
    (fe.put addr size).Mirror ∧ Same bs (fe.put addr size).blocks :=
  ⟨h.put hfresh hpos, hsame.trans (Same.of_perm (blocks_put hfresh)).symm⟩

/-- A neighbour that is next to the block in front: there is no padding in between. -/
theorem before_eq_some (h : fe.Mirror) {unpadded full : ℕ} (hout : fe.Outside (unpadded, full))
    (hle : unpadded ≤ addr) (hlt : addr < unpadded + full) {e : ℕ × ℕ × ℕ}
    (he : fe.beforeNat unpadded addr = some e) :
    ∃ faddr fsize, e = (faddr, fsize, 0) ∧ fe.addrs.get? faddr = some (fsize, 0) ∧
      0 < fsize ∧ faddr + fsize = unpadded := by
  obtain ⟨hbelow, hget, hend⟩ := lastBelow_filter he
  obtain ⟨faddr, fsize, fpadding⟩ := e
  simp only at hbelow hget hend
  obtain ⟨rfl, hpos⟩ := h.flat hget
  have hend' : faddr + fsize = addr := by simpa using hend
  refine ⟨faddr, fsize, rfl, hget, hpos, ?_⟩
  by_contra hne
  exact hout hget (Nat.le_refl unpadded) (by simp only; omega) (by omega)

theorem after_eq_some (h : fe.Mirror) {tempEnd : ℕ} {e : ℕ × ℕ × ℕ}
    (he : fe.afterNat addr tempEnd = some e) :
    ∃ nsize, e = (tempEnd, nsize, 0) ∧ fe.addrs.get? tempEnd = some (nsize, 0) ∧ 0 < nsize := by
  obtain ⟨-, hget, hend⟩ := firstFrom_filter he
  obtain ⟨naddr, nsize, npadding⟩ := e
  simp only at hget hend
  obtain ⟨rfl, hpos⟩ := h.flat hget
  have hend' : tempEnd = naddr := by simpa using hend
  subst hend'
  exact ⟨nsize, rfl, hget, hpos⟩

theorem giveBack_spec (h : fe.Mirror) {unpadded full : ℕ} (hout : fe.Outside (unpadded, full))
    (hle : unpadded ≤ addr) (hlt : addr < unpadded + full) :
    (fe.giveBackNat addr unpadded full).Mirror ∧
      Same ((unpadded, full) :: fe.blocks) (fe.giveBackNat addr unpadded full).blocks := by
  have hfresh := hout.get?_eq_none h (by simp only; omega)
  unfold giveBackNat
  cases hbefore : fe.beforeNat unpadded addr with
  | none =>
    cases hafter : fe.afterNat addr (unpadded + full) with
    | none =>
      simp only [hafter, Option.toList_none, List.append_nil, List.foldl_nil]
      exact h.put_same hfresh (by omega) (Same.of_perm (.refl _))
    | some e =>
      obtain ⟨n, rfl, hn, -⟩ := after_eq_some h hafter
      simp only [hafter, Option.toList_none, Option.toList_some, List.nil_append,
        List.foldl_cons, List.foldl_nil, Nat.add_zero]
      have hsame := (Same.of_perm ((blocks_drop hn).cons (unpadded, full))).trans
        (Same.split unpadded full n (fe.drop (unpadded + full) n).blocks).symm
      refine (h.drop hn).put_same ?_ (by omega) hsame
      rw [drop_addrs, SortedMap.get?_erase, hfresh]
      split <;> rfl
  | some e =>
    obtain ⟨faddr, fsize, rfl, hf, hfpos, rfl⟩ := before_eq_some h hout hle hlt hbefore
    have hjoin := (Same.of_perm (((blocks_drop hf).cons (faddr + fsize, full)).trans
      (List.Perm.swap _ _ _))).trans (Same.split faddr fsize full (fe.drop faddr fsize).blocks).symm
    rw [Nat.add_comm fsize full] at hjoin
    have hfresh' : (fe.drop faddr fsize).addrs.get? faddr = none := by
      rw [drop_addrs, SortedMap.get?_erase, if_pos rfl]
    simp only [Nat.add_zero]
    cases hafter : fe.afterNat addr (faddr + (full + fsize)) with
    | none =>
      simp only [Option.toList_none, Option.toList_some, List.append_nil, List.foldl_cons,
        List.foldl_nil, Nat.add_zero]
      exact (h.drop hf).put_same hfresh' (by omega) hjoin
    | some e =>
      obtain ⟨n, rfl, hn, -⟩ := after_eq_some h hafter
      simp only [Option.toList_some, List.cons_append, List.nil_append, List.foldl_cons,
        List.foldl_nil, Nat.add_zero]
      have hn' : (fe.drop faddr fsize).addrs.get? (faddr + (full + fsize)) = some (n, 0) := by
        rw [drop_addrs, SortedMap.get?_erase, if_neg (by omega), hn]
      have hsame := (hjoin.trans
        (Same.of_perm ((blocks_drop hn').cons (faddr, full + fsize)))).trans
          (Same.split faddr (full + fsize) n _).symm
      refine ((h.drop hf).drop hn').put_same ?_ (by omega) hsame
      rw [drop_addrs, SortedMap.get?_erase, hfresh']
      split <;> rfl

/-! ## The operations of a build -/

/-- The free blocks end at `stop` at the latest. -/
def Within (fe : FreeEntries S) (stop : ℕ) : Prop := ∀ b ∈ fe.blocks, b.1 + b.2 ≤ stop

variable {stop : ℕ} (build : Build)

omit [LawfulIndexSet S] in
theorem Within.le (h : fe.Within stop) (hget : fe.addrs.get? addr = some (size, 0)) :
    addr + size ≤ stop := h _ (mem_blocks hget)

theorem Within.joinFirst (h : fe.Within stop) {faddr fsize nsize : ℕ} {rest : List (ℕ × ℕ × ℕ)}
    (hentries : fe.addrs.entries = (faddr, fsize, 0) :: (faddr + fsize, nsize, 0) :: rest) :
    (fe.joinFirst faddr fsize nsize).Within stop := by
  intro b hb
  rw [blocks, joinFirst_entries hentries] at hb
  rw [Within, blocks, hentries] at h
  rcases List.mem_cons.mp hb with rfl | hb
  · have hlast := h (faddr + fsize, nsize) (List.mem_cons_of_mem _ List.mem_cons_self)
    simp only at hlast ⊢
    omega
  · exact h b (List.mem_cons_of_mem _ (List.mem_cons_of_mem _ hb))

theorem mergeTurns_eq (hstop : stop < word) (n : ℕ) (h : fe.Mirror) (hin : fe.Within stop)
    (hlen : n < fe.addrs.entries.length) {fe' : FreeEntries S}
    (hturns : mergeTurnsNat n fe = some fe') : mergeTurns build n fe = .ok fe' := by
  induction n generalizing fe with
  | zero =>
    cases hturns
    rfl
  | succ n ih =>
    obtain ⟨f, fsize, g, gsize, rest, hentries⟩ := h.exists_first_two (by omega)
    have hf := hin.le (SortedMap.get?_eq_some_iff.mpr (hentries ▸ List.mem_cons_self))
    have hg := hin.le (SortedMap.get?_eq_some_iff.mpr
      (hentries ▸ List.mem_cons_of_mem _ List.mem_cons_self))
    rw [mergeTurnsNat_succ hentries] at hturns
    rw [mergeTurns, SortedMap.popFirst_eq hentries]
    simp only
    rw [SortedMap.popFirst_eq (SortedMap.erase_first hentries)]
    simp only [Nat.add_zero, build.result_of_lt (Nat.lt_of_le_of_lt hf hstop),
      insert_popped hentries]
    split
    · rename_i hadjacent
      rw [if_pos hadjacent] at hturns
      subst hadjacent
      have hsum : fsize + gsize < word := by omega
      simp only [build.result_of_lt hsum, build.result_of_lt (show 0 < word by decide),
        removeSizes_eq]
      refine ih (h.joinFirst hentries).1 (hin.joinFirst hentries) ?_ hturns
      rw [joinFirst_entries hentries]
      rw [hentries] at hlen
      simp only [List.length_cons] at hlen ⊢
      omega
    · rename_i hadjacent
      rw [if_neg hadjacent] at hturns
      have hlater := ih h hin (by omega) hturns
      exact hlater

theorem merge_eq (hstop : stop < word) (h : fe.Mirror) (hin : fe.Within stop) :
    fe.merge build = match fe.mergeNat with
      | some fe' => .ok fe'
      | none => .error fe := by
  by_cases hne : fe.addrs.entries = []
  · simp only [merge, mergeNat, if_pos hne]
  · obtain ⟨fe', hmerge, -⟩ := exists_merge h hne
    rw [hmerge]
    rw [mergeNat, if_neg hne] at hmerge
    have hpos := List.length_pos_iff.mpr hne
    rw [merge, if_neg hne]
    exact mergeTurns_eq build hstop _ h hin (by omega) hmerge

/-- Where the sum of the size and the alignment has no overflow. -/
theorem search_eq (hstop : stop < word) (h : fe.Mirror) (hin : fe.Within stop) {align : ℕ}
    (hsize : 0 < size) (halign : 0 < align) :
    fe.search build (size + align - 1) size align = fe.searchNat size align := by
  unfold search searchNat
  cases hfirst : fe.sizes.firstFrom (size + align - 1) with
  | none => rfl
  | some entry =>
    obtain ⟨freeSize, addrs⟩ := entry
    obtain ⟨hle, hget⟩ := SortedMap.firstFrom_eq_some hfirst
    simp only at hle hget ⊢
    obtain ⟨a, ha⟩ := IndexSet.exists_pop (h.nonempty hget)
    have hmem : a ∈ fe.sizeItems freeSize := by
      rw [sizeItems, hget]
      exact (IndexSet.mem_pop ha).1
    have haddr := (h.mem_iff freeSize a).mp hmem
    have hend := hin.le haddr
    have hpad := calcPadding_lt a halign
    have hfull : size + calcPadding a align ≤ freeSize := by omega
    have hlast : a + (size + calcPadding a align) < word := by omega
    have hfree : freeSize < word := by omega
    simp only [ha, haddr, build.result_of_lt (show size + calcPadding a align < word by omega),
      build.result_of_lt hfree, build.result_of_lt hlast, Nat.add_zero, build.sub_of_le hfull]

theorem before_eq (hstop : stop < word) (h : fe.Mirror) (hin : fe.Within stop)
    (tempAddr addr : ℕ) : fe.before build tempAddr addr = some (fe.beforeNat tempAddr addr) := by
  unfold before beforeNat
  cases hlast : fe.addrs.lastBelow tempAddr with
  | none => rfl
  | some e =>
    obtain ⟨faddr, fsize, fpadding⟩ := e
    obtain ⟨-, hget⟩ := SortedMap.lastBelow_eq_some hlast
    obtain ⟨rfl, -⟩ := h.flat hget
    have hend := hin.le hget
    simp only [build.result_of_lt (show faddr + fsize + 0 < word by omega), Option.map_some,
      Option.filter_some, decide_eq_true_eq]

omit [LawfulIndexSet S] in
theorem after_eq {tempAddr tempSize : ℕ} (hlt : tempAddr + tempSize < word) (addr : ℕ) :
    fe.after build addr tempAddr tempSize = some (fe.afterNat addr (tempAddr + tempSize)) := by
  unfold after afterNat
  cases fe.addrs.firstFrom addr with
  | none => rfl
  | some e => simp only [build.result_of_lt hlt, Option.map_some, Option.filter_some,
      decide_eq_true_eq]

theorem addBlock_eq {tempSize addr : ℕ} (hlt : tempSize + size < word) :
    addBlock build tempSize (some (addr, size, 0)) = some (tempSize + size) := by
  simp only [addBlock, Nat.add_zero, build.result_of_lt (show size < word by omega),
    Option.bind_some, build.result_of_lt hlt]

/-- The block that comes back shares no number with the free blocks. -/
theorem giveBack_eq (hstop : stop < word) (h : fe.Mirror) (hin : fe.Within stop) {padding : ℕ}
    (hout : fe.Outside (addr - padding, size + padding)) (hsize : 0 < size)
    (hpadding : padding ≤ addr) (hend : addr + size ≤ stop) :
    fe.giveBack build addr size padding =
      some (fe.giveBackNat addr (addr - padding) (size + padding)) := by
  have hsum : addr - padding + (size + padding) = addr + size := by omega
  have hafter {a n : ℕ} {e : ℕ × ℕ × ℕ} (he : fe.afterNat addr (a + n) = some e) :
      ∃ m, e = (a + n, m, 0) ∧ n + m < word ∧ m < word := by
    obtain ⟨m, rfl, hm, -⟩ := after_eq_some h he
    have := hin.le hm
    exact ⟨m, rfl, by omega, by omega⟩
  unfold giveBack giveBackNat
  simp only [build.sub_of_le hpadding, build.result_of_lt (show size + padding < word by omega),
    before_eq build hstop h hin, Option.bind_eq_bind, Option.bind_some]
  cases hbefore : fe.beforeNat (addr - padding) addr with
  | none =>
    simp only [Option.map_none, Option.getD_none, addBlock, Option.bind_some,
      after_eq build (show addr - padding + (size + padding) < word by omega)]
    cases hnext : fe.afterNat addr (addr - padding + (size + padding)) with
    | none => rfl
    | some e =>
      obtain ⟨m, rfl, hm, hmlt⟩ := hafter hnext
      simp [build.result_of_lt hm, build.result_of_lt hmlt]
  | some e =>
    obtain ⟨f, n, rfl, hf, -, hfn⟩ :=
      before_eq_some h hout (Nat.sub_le addr padding) (by omega) hbefore
    have := hin.le hf
    have hn : n < word := by omega
    simp only [Option.map_some, Option.getD_some, Option.bind_some, Nat.add_zero,
      addBlock_eq build (show size + padding + n < word by omega),
      after_eq build (show f + (size + padding + n) < word by omega)]
    cases hnext : fe.afterNat addr (f + (size + padding + n)) with
    | none => simp [addBlock, build.result_of_lt hn]
    | some e =>
      obtain ⟨m, rfl, hm, hmlt⟩ := hafter hnext
      simp [addBlock, build.result_of_lt hn, build.result_of_lt hm, build.result_of_lt hmlt]

end FreeEntries

end Lamellar.Alloc
