import Lamellar.Alloc.BTreeAlloc
import Mathlib.Algebra.Order.BigOperators.Group.List
import Mathlib.Algebra.Order.Ring.Nat

/-!
# The heap is partitioned

Every step of a call moves one block from one place to another, or splits or joins blocks of the
free entries: the free, allocated and held blocks always partition the region.
-/

namespace Lamellar.Alloc

open Blocks (Same)
open IndexSet (isEmpty)

variable {S : Type} [LawfulIndexSet S] {build : Build} {startAddr maxSize : ℕ}
  {s s' : BTreeAlloc S} {k : ℕ} {c : Call}

/-- A step of the call at `k`: what counts are the free entries, the allocated blocks and what
the call holds. -/
theorem Inv.update (h : Inv build startAddr maxSize s) (c' : Call) (fe : FreeEntries S)
    (al : SortedMap (ℕ × ℕ)) (freeSpace : ℕ) (hk : s.calls[k]? = some c)
    (hok : c'.Ok build startAddr maxSize) (hmirror : fe.Mirror)
    (hal : ∀ {addr size padding}, al.get? addr = some (size, padding) → 0 < size ∧ padding ≤ addr)
    (hsame : Same (s.freeEntries.blocks ++ (s.allocatedAddrs.entries.map allocatedBlock ++ c.held))
      (fe.blocks ++ (al.entries.map allocatedBlock ++ c'.held)))
    (hfree : freeSpace + (al.entries.map fun e => (allocatedBlock e).2).sum = maxSize) :
    Inv build startAddr maxSize
      { s.setCall k c' with freeEntries := fe, allocatedAddrs := al, freeSpace := freeSpace } := by
  refine ⟨h.region, h.bound, hmirror, ?_, hal, ?_, hfree⟩
  · obtain ⟨rest, hold, hnew⟩ := Roster.exists_perm_flatMap_set Call.held c' hk
    have hbefore : s.blocks.Perm ((s.freeEntries.blocks ++
        (s.allocatedAddrs.entries.map allocatedBlock ++ c.held)) ++ rest) := by
      rw [BTreeAlloc.blocks, List.append_assoc, List.append_assoc]
      exact (hold.append_left _).append_left _
    have hafter : (BTreeAlloc.blocks { s.setCall k c' with
        freeEntries := fe, allocatedAddrs := al, freeSpace := freeSpace }).Perm
          ((fe.blocks ++ (al.entries.map allocatedBlock ++ c'.held)) ++ rest) := by
      rw [BTreeAlloc.blocks, List.append_assoc, List.append_assoc]
      exact (hnew.append_left _).append_left _
    exact h.partition.same ((Same.of_perm hbefore).trans
      ((hsame.append_right rest).trans (Same.of_perm hafter).symm))
  · intro d hd
    rcases List.mem_or_eq_of_mem_set hd with hd | rfl
    · exact h.calls d hd
    · exact hok

/-- A step that moves no block. -/
theorem Inv.setCall (h : Inv build startAddr maxSize s) (c' : Call) (fe : FreeEntries S)
    (hk : s.calls[k]? = some c) (hok : c'.Ok build startAddr maxSize) (hheld : c'.held = c.held)
    (hmirror : fe.Mirror) (hsame : Same s.freeEntries.blocks fe.blocks) :
    Inv build startAddr maxSize { s.setCall k c' with freeEntries := fe } :=
  h.update c' fe _ _ hk hok hmirror h.allocated (hheld ▸ hsame.append_right _) h.freeSpace

/-- The free blocks have no number in common with the others. -/
theorem Inv.free_disjoint (h : Inv build startAddr maxSize s) {b f : ℕ × ℕ}
    (hf : f ∈ s.freeEntries.blocks) (hb : b ∈ s.allocatedAddrs.entries.map allocatedBlock ++
      s.calls.flatMap Call.held) (x : ℕ) :
    ¬ ((f.1 ≤ x ∧ x < f.1 + f.2) ∧ b.1 ≤ x ∧ x < b.1 + b.2) :=
  (List.pairwise_append.mp h.partition.pairwise).2.2 f hf b hb x

theorem Inv.held_disjoint (h : Inv build startAddr maxSize s) {b f : ℕ × ℕ}
    (hf : f ∈ s.allocatedAddrs.entries.map allocatedBlock) (hb : b ∈ s.calls.flatMap Call.held)
    (x : ℕ) : ¬ ((f.1 ≤ x ∧ x < f.1 + f.2) ∧ b.1 ≤ x ∧ x < b.1 + b.2) :=
  (List.pairwise_append.mp (List.pairwise_append.mp h.partition.pairwise).2.1).2.2 f hf b hb x

theorem Inv.apart (h : Inv build startAddr maxSize s) : s.freeEntries.Apart := by
  intro addr size n hget hpos hlt
  cases hnext : s.freeEntries.addrs.get? (addr + n) with
  | none => rfl
  | some v =>
    obtain ⟨m, p⟩ := v
    obtain ⟨rfl, hm⟩ := h.mirror.flat hnext
    have heq := h.partition.eq_of_mem (x := addr + n)
      (List.mem_append_left _ (FreeEntries.mem_blocks hget))
      (List.mem_append_left _ (FreeEntries.mem_blocks hnext)) (by simp only; omega)
      (by simp only; omega)
    have := congrArg Prod.fst heq
    simp only at this
    omega

omit [LawfulIndexSet S] in
theorem Call.held_mem (hk : s.calls[k]? = some c) {b : ℕ × ℕ} (hb : b ∈ c.held) :
    b ∈ s.calls.flatMap Call.held :=
  List.mem_flatMap.mpr ⟨c, List.mem_of_getElem? hk, hb⟩

theorem Inv.within (h : Inv build startAddr maxSize s) :
    s.freeEntries.Within (startAddr + maxSize) := by
  rintro ⟨a, n⟩ hb
  have hpos := (h.mirror.flat ((FreeEntries.mem_blocks_iff h.mirror).mp hb)).2
  exact (h.partition.within (List.mem_append_left _ hb) hpos).2

/-! ## `try_malloc` -/

theorem BTreeAlloc.takeFrom_of_none (s : BTreeAlloc S) (k size align : ℕ) (notFound : MallocPc)
    {fe : FreeEntries S} {upper : ℕ} (hnone : fe.sizes.firstFrom upper = none) :
    s.takeFrom build k upper size align fe notFound =
      { s.setCall k (.tryMalloc size align notFound) with freeEntries := fe } := by
  simp only [takeFrom, FreeEntries.search, hnone]

theorem Inv.takeFrom (h : Inv build startAddr maxSize s) {upper size align : ℕ}
    {pc notFound : MallocPc} (hk : s.calls[k]? = some (.tryMalloc size align pc))
    (hheld : (Call.tryMalloc size align pc).held = [])
    (hnot : (Call.tryMalloc size align notFound).held = [] ∧
      (Call.tryMalloc size align notFound).Ok build startAddr maxSize)
    {fe : FreeEntries S} (hmirror : fe.Mirror) (hsame : Same s.freeEntries.blocks fe.blocks)
    (hapart : fe.Apart) (hin : fe.Within (startAddr + maxSize))
    (hupper : upper = size + align - 1 ∨ fe.sizes.firstFrom upper = none) :
    Inv build startAddr maxSize (s.takeFrom build k upper size align fe notFound) := by
  obtain ⟨hargs, -⟩ := h.calls _ (List.mem_of_getElem? hk)
  have hmiss : Inv build startAddr maxSize
      { s.setCall k (.tryMalloc size align notFound) with freeEntries := fe } :=
    h.setCall _ fe hk hnot.2 (hnot.1.trans hheld.symm) hmirror hsame
  rcases hupper with rfl | hnone
  · unfold BTreeAlloc.takeFrom
    rw [FreeEntries.search_eq build h.bound hmirror hin hargs.1 hargs.2]
    rcases FreeEntries.search_spec hmirror hapart hargs.1 hargs.2 with
      hnone | ⟨a, fe', hsome, hm, hs⟩
    · rw [hnone]
      exact hmiss
    · rw [hsome]
      refine h.update (.tryMalloc size align (.taken a)) fe' _ _ hk
        ⟨hargs, by simp, by simp⟩ hm h.allocated ?_ h.freeSpace
      rw [hheld, List.append_nil]
      have hmoved := (hsame.trans hs).append_right (s.allocatedAddrs.entries.map allocatedBlock)
      refine hmoved.trans (Same.of_perm ?_)
      rw [← List.append_assoc]
      exact (List.perm_append_singleton _ _).symm
  · rw [s.takeFrom_of_none k size align notFound hnone]
    exact hmiss

/-- A block that a call holds ends in the region. -/
theorem Inv.held_within (h : Inv build startAddr maxSize s) (hk : s.calls[k]? = some c)
    {addr n : ℕ} (hb : (addr, n) ∈ c.held) (hpos : 0 < n) :
    startAddr ≤ addr ∧ addr + n ≤ startAddr + maxSize :=
  h.partition.within (List.mem_append_right _ (List.mem_append_right _ (Call.held_mem hk hb))) hpos

/-- The block that a call has taken is recorded. -/
theorem Inv.record (h : Inv build startAddr maxSize s) {size align addr : ℕ}
    (hk : s.calls[k]? = some (.tryMalloc size align (.taken addr))) :
    Inv build startAddr maxSize { s.setCall k
        (.tryMalloc size align (.returned (some (addr + calcPadding addr align)))) with
      allocatedAddrs := s.allocatedAddrs.insert (addr + calcPadding addr align)
        (size, calcPadding addr align)
      freeSpace := wrappingSub s.freeSpace (size + calcPadding addr align) } := by
  obtain ⟨⟨hsize, halign⟩, -⟩ := h.calls _ (List.mem_of_getElem? hk)
  have hmem : (addr, size + calcPadding addr align) ∈ s.calls.flatMap Call.held :=
    Call.held_mem hk (List.mem_singleton_self _)
  have hwithin := h.held_within hk (List.mem_singleton_self _) (by omega)
  have hfresh : s.allocatedAddrs.get? (addr + calcPadding addr align) = none := by
    cases hget : s.allocatedAddrs.get? (addr + calcPadding addr align) with
    | none => rfl
    | some v =>
      obtain ⟨n, p⟩ := v
      obtain ⟨hn, hp⟩ := h.allocated hget
      exact absurd ⟨by simp only [allocatedBlock]; omega, by simp only; omega⟩
        (h.held_disjoint (List.mem_map_of_mem (SortedMap.get?_eq_some_iff.mp hget)) hmem
          (addr + calcPadding addr align))
  have hblock : allocatedBlock (addr + calcPadding addr align, size, calcPadding addr align) =
      (addr, size + calcPadding addr align) := by
    simp [allocatedBlock]
  have hperm := (SortedMap.perm_insert (v := (size, calcPadding addr align)) hfresh).map
    allocatedBlock
  rw [List.map_cons, hblock] at hperm
  refine h.update (.tryMalloc size align (.returned (some (addr + calcPadding addr align))))
    s.freeEntries _ _ hk ⟨⟨hsize, halign⟩, by simp, ?_⟩ h.mirror ?_ ?_ ?_
  · intro r hr
    cases hr
    exact ⟨dvd_add_calcPadding addr halign, by omega, by omega⟩
  · intro a n p hget
    rw [SortedMap.get?_insert] at hget
    split at hget
    · rename_i ha
      cases hget
      exact ⟨hsize, by omega⟩
    · exact h.allocated hget
  · refine Same.of_perm (List.Perm.append_left _ ?_)
    exact List.perm_append_comm.trans (hperm.symm.trans (by simp [Call.held]))
  · -- the block is not longer than what is left of the region
    have hsum := (hperm.map Prod.snd).sum_eq
    rw [List.map_map, List.map_cons, List.map_map, List.sum_cons] at hsum
    have htotal := h.partition.total_eq
    have hle : size + calcPadding addr align ≤ Blocks.total (s.calls.flatMap Call.held) :=
      List.le_sum_of_mem (List.mem_map_of_mem hmem)
    have hfree := h.freeSpace
    simp only [Blocks.total, BTreeAlloc.blocks, List.map_append, List.sum_append,
      List.map_map] at htotal hle
    have hbound := h.bound
    simp only [BTreeAlloc.allocated, Function.comp_def] at hfree hsum htotal
    rw [wrappingSub_of_le (by omega) (by omega)]
    omega

theorem Inv.runTaken (h : Inv build startAddr maxSize s) {size align addr : ℕ}
    (hk : s.calls[k]? = some (.tryMalloc size align (.taken addr))) :
    s.runTryMalloc build k size align (.taken addr) = some { s.setCall k
        (.tryMalloc size align (.returned (some (addr + calcPadding addr align)))) with
      allocatedAddrs := s.allocatedAddrs.insert (addr + calcPadding addr align)
        (size, calcPadding addr align)
      freeSpace := wrappingSub s.freeSpace (size + calcPadding addr align) } := by
  obtain ⟨⟨hsize, -⟩, -⟩ := h.calls _ (List.mem_of_getElem? hk)
  have hwithin := h.held_within hk (List.mem_singleton_self _) (by omega)
  have hbound := h.bound
  simp only [BTreeAlloc.runTryMalloc,
    build.result_of_lt (show size + calcPadding addr align < word by omega),
    build.result_of_lt (show addr + calcPadding addr align < word by omega)]

/-! ## `free` -/

/-- A block is no longer allocated. -/
theorem Inv.unrecord (h : Inv build startAddr maxSize s) {addr size padding : ℕ}
    (hk : s.calls[k]? = some (.free addr .start))
    (hget : s.allocatedAddrs.get? addr = some (size, padding)) :
    Inv build startAddr maxSize { s.setCall k (.free addr (.removed size padding)) with
      allocatedAddrs := s.allocatedAddrs.erase addr
      freeSpace := wrappingAdd s.freeSpace (size + padding) } ∧ size + padding < word := by
  have hperm := (SortedMap.perm_erase hget).map allocatedBlock
  have hbound := h.bound
  have hsum := (hperm.map Prod.snd).sum_eq
  rw [List.map_map, List.map_map, List.map_cons, List.sum_cons] at hsum
  have hfree := h.freeSpace
  simp only [BTreeAlloc.allocated, Function.comp_def, allocatedBlock] at hfree hsum
  refine ⟨?_, by omega⟩
  refine h.update (.free addr (.removed size padding)) s.freeEntries _ _ hk ?_ h.mirror ?_ ?_ ?_
  · intro n p hpc
    cases hpc
    exact h.allocated hget
  · intro a n p ha
    rw [SortedMap.get?_erase] at ha
    split at ha
    · cases ha
    · exact h.allocated ha
  · have hheld : (Call.free addr .start).held = [] := rfl
    refine Same.of_perm (List.Perm.append_left _ ?_)
    rw [hheld, List.append_nil]
    exact hperm.trans (List.perm_append_singleton _ _).symm
  · simp only [allocatedBlock]
    rw [wrappingAdd_of_lt (by omega)]
    omega

/-- The block that is given back is not free yet. -/
theorem Inv.outside (h : Inv build startAddr maxSize s) {addr size padding : ℕ}
    (hk : s.calls[k]? = some (.free addr (.removed size padding))) :
    s.freeEntries.Outside (addr - padding, size + padding) ∧
      addr < addr - padding + (size + padding) ∧ padding ≤ addr := by
  obtain ⟨hsize, hpadding⟩ := h.calls _ (List.mem_of_getElem? hk) size padding rfl
  have hmem : (addr - padding, size + padding) ∈ s.calls.flatMap Call.held :=
    Call.held_mem hk (List.mem_singleton_self _)
  refine ⟨fun {a n x} hget hle hlt hx => ?_, by omega, hpadding⟩
  exact h.free_disjoint (FreeEntries.mem_blocks hget) (List.mem_append_right _ hmem) x
    ⟨hx, hle, hlt⟩

/-- The block that a call holds is given back. -/
theorem Inv.giveBack (h : Inv build startAddr maxSize s) {addr size padding : ℕ}
    (hk : s.calls[k]? = some (.free addr (.removed size padding))) :
    s.runFree build k addr (.removed size padding) =
        some { s.setCall k (.free addr (.returned true)) with
          freeEntries := s.freeEntries.giveBackNat addr (addr - padding) (size + padding) } ∧
      Inv build startAddr maxSize { s.setCall k (.free addr (.returned true)) with
        freeEntries := s.freeEntries.giveBackNat addr (addr - padding) (size + padding) } := by
  obtain ⟨hout, hlt, hpadding⟩ := h.outside hk
  have hwithin := h.held_within hk (List.mem_singleton_self _) (by omega)
  obtain ⟨hmirror, hsame⟩ := FreeEntries.giveBack_spec h.mirror hout (Nat.sub_le addr padding) hlt
  constructor
  · simp only [BTreeAlloc.runFree, FreeEntries.giveBack_eq build h.bound h.mirror h.within hout
      (show 0 < size by omega) hpadding (by omega)]
  · refine h.update (.free addr (.returned true)) _ _ _ hk ?_ hmirror h.allocated ?_ h.freeSpace
    · intro n p hpc
      cases hpc
    · have hheld : (Call.free addr (.returned true)).held = [] := rfl
      rw [hheld, List.append_nil]
      have hmoved := hsame.append_right (s.allocatedAddrs.entries.map allocatedBlock)
      refine Same.trans (Same.of_perm ?_) hmoved
      rw [← List.append_assoc]
      exact List.perm_append_singleton _ _

/-! ## Calls -/

theorem Inv.call (h : Inv build startAddr maxSize s) (hok : c.Ok build startAddr maxSize)
    (hheld : c.held = []) : Inv build startAddr maxSize { s with calls := s.calls ++ [c] } := by
  refine ⟨h.region, h.bound, h.mirror, ?_, h.allocated, ?_, h.freeSpace⟩
  · have hsame : (s.calls ++ [c]).flatMap Call.held = s.calls.flatMap Call.held := by
      rw [List.flatMap_append, List.flatMap_singleton, hheld, List.append_nil]
    have hpartition := h.partition
    rw [BTreeAlloc.blocks, ← hsame] at hpartition
    exact hpartition
  · intro d hd
    rcases List.mem_append.mp hd with hd | hd
    · exact h.calls d hd
    · exact List.mem_singleton.mp hd ▸ hok

/-- What `merge` does. -/
theorem Inv.merge (h : Inv build startAddr maxSize s) :
    s.freeEntries.addrs.entries = [] ∧ s.freeEntries.merge build = .error s.freeEntries ∨
      ∃ fe, s.freeEntries.mergeNat = some fe ∧ s.freeEntries.merge build = .ok fe ∧ fe.Mirror ∧
        Same s.freeEntries.blocks fe.blocks ∧ fe.Apart ∧ fe.Within (startAddr + maxSize) := by
  by_cases hne : s.freeEntries.addrs.entries = []
  · exact Or.inl ⟨hne, if_pos hne⟩
  · obtain ⟨fe, hmerge, hmirror, hsame⟩ := FreeEntries.exists_merge h.mirror hne
    have h' : Inv build startAddr maxSize { s with freeEntries := fe } :=
      ⟨h.region, h.bound, hmirror, h.partition.same (hsame.append_right _), h.allocated, h.calls,
        h.freeSpace⟩
    refine Or.inr ⟨fe, hmerge, ?_, hmirror, hsame, h'.apart, h'.within⟩
    rw [FreeEntries.merge_eq build h.bound h.mirror h.within, hmerge]

theorem firstFrom_eq_none_of_not_available {fe : FreeEntries S} {n : ℕ}
    (hnot : fe.available build n = false) : fe.sizes.firstFrom n = none ∧
      ∀ fe', fe.merge build = .ok fe' → fe'.sizes.firstFrom n = none := by
  rw [FreeEntries.available, Bool.or_eq_false_iff] at hnot
  refine ⟨Option.isNone_iff_eq_none.mp (Option.isSome_eq_false_iff.mp hnot.1), ?_⟩
  intro fe' hmerge
  have hlater := hnot.2
  rw [hmerge] at hlater
  exact Option.isNone_iff_eq_none.mp (Option.isSome_eq_false_iff.mp hlater)

theorem Inv.runTryMalloc (h : Inv build startAddr maxSize s) {size align : ℕ} {pc : MallocPc}
    (hk : s.calls[k]? = some (.tryMalloc size align pc))
    (hfits : (Call.tryMalloc size align pc).Fits build s.freeEntries)
    (hstep : s.runTryMalloc build k size align pc = some s') :
    Inv build startAddr maxSize s' := by
  obtain ⟨hargs, -, -⟩ := h.calls _ (List.mem_of_getElem? hk)
  cases pc with
  | start =>
    simp only [BTreeAlloc.runTryMalloc] at hstep
    split at hstep
    · rename_i upper hupper
      cases hstep
      refine h.takeFrom hk rfl ⟨rfl, hargs, ?_, by simp⟩ h.mirror (.of_perm (.refl _)) h.apart
        h.within ((hfits upper hupper).imp_right fun hnot =>
          (firstFrom_eq_none_of_not_available hnot).1)
      rintro _ ⟨⟩
      exact hupper
    · cases hstep
      exact h.setCall (.tryMalloc size align .panicked) s.freeEntries hk
        ⟨hargs, by simp, by simp⟩ rfl h.mirror (.of_perm (.refl _))
  | waiting upper =>
    simp only [BTreeAlloc.runTryMalloc] at hstep
    rcases h.merge with ⟨-, hmerge⟩ | ⟨fe, -, hmerge, hmirror, hsame, hapart, hin⟩
    · rw [hmerge] at hstep
      cases hstep
      exact h.setCall (.tryMalloc size align .panicked) s.freeEntries hk
        ⟨hargs, by simp, by simp⟩ rfl h.mirror (.of_perm (.refl _))
    · rw [hmerge] at hstep
      cases hstep
      exact h.takeFrom hk rfl ⟨rfl, hargs, by simp, by simp⟩ hmirror hsame hapart hin
        (Or.imp_right (fun hnot => (firstFrom_eq_none_of_not_available hnot).2 fe hmerge) hfits)
  | taken addr =>
    rw [h.runTaken hk] at hstep
    cases hstep
    exact h.record hk
  | returned addr => cases hstep
  | panicked => cases hstep

theorem Inv.runFakeMalloc (h : Inv build startAddr maxSize s) {size align : ℕ}
    {pc : FakeMallocPc} (hk : s.calls[k]? = some (.fakeMalloc size align pc))
    (hstep : s.runFakeMalloc build k size align pc = some s') :
    Inv build startAddr maxSize s' := by
  have hset := fun (pc' : FakeMallocPc) (fe : FreeEntries S) =>
    h.setCall (.fakeMalloc size align pc') fe hk trivial rfl
  cases pc with
  | start =>
    simp only [BTreeAlloc.runFakeMalloc] at hstep
    split at hstep
    · split at hstep
      · cases hstep
        exact hset _ _ h.mirror (.of_perm (.refl _))
      · rcases h.merge with ⟨-, hmerge⟩ | ⟨fe, -, hmerge, hmirror, hsame, -, -⟩
        · rw [hmerge] at hstep
          cases hstep
          exact hset _ _ h.mirror (.of_perm (.refl _))
        · rw [hmerge] at hstep
          cases hstep
          exact hset _ _ hmirror hsame
    · cases hstep
      exact hset _ _ h.mirror (.of_perm (.refl _))
  | returned found => cases hstep
  | panicked => cases hstep

theorem Inv.runFree (h : Inv build startAddr maxSize s) {addr : ℕ} {pc : FreePc}
    (hk : s.calls[k]? = some (.free addr pc))
    (hstep : s.runFree build k addr pc = some s') : Inv build startAddr maxSize s' := by
  cases pc with
  | start =>
    simp only [BTreeAlloc.runFree] at hstep
    split at hstep
    · rename_i size padding hget
      obtain ⟨hinv, hlt⟩ := h.unrecord hk hget
      rw [build.result_of_lt hlt] at hstep
      cases hstep
      exact hinv
    · cases hstep
      exact h.setCall (.free addr (.returned false)) s.freeEntries hk
        (fun n p hpc => by cases hpc) rfl h.mirror (.of_perm (.refl _))
  | removed size padding =>
    obtain ⟨hrun, hinv⟩ := h.giveBack hk
    rw [hrun] at hstep
    cases hstep
    exact hinv
  | returned ok => cases hstep
  | panicked => cases hstep

theorem Inv.step (h : Inv build startAddr maxSize s) (hsize : 0 < maxSize) {a : Action}
    (hfits : s.Fits build a) (hstep : s.step build a = some s') :
    Inv build startAddr maxSize s' := by
  cases a with
  | init startAddr' size =>
    have hzero := hfits.1.1
    rw [h.region.2] at hzero
    omega
  | tryMalloc size align =>
    simp only [BTreeAlloc.step] at hstep
    split at hstep
    · rename_i hpos
      cases hstep
      exact h.call ⟨hpos, by simp, by simp⟩ rfl
    · cases hstep
  | fakeMalloc size align =>
    simp only [BTreeAlloc.step] at hstep
    split at hstep
    · cases hstep
      exact h.call trivial rfl
    · cases hstep
  | free addr =>
    cases hstep
    exact h.call (fun n p hpc => by cases hpc) rfl
  | run k =>
    simp only [BTreeAlloc.step] at hstep
    split at hstep
    · exact h.runTryMalloc ‹_› (hfits _ ‹_›) hstep
    · exact h.runFakeMalloc ‹_› hstep
    · exact h.runFree ‹_› hstep
    · cases hstep

/-! ## A region without bytes -/

/-- Before `init`, and after it where the region has no bytes: no call gets anything. -/
structure Void (build : Build) (s : BTreeAlloc S) : Prop where
  freeEntries : s.freeEntries = .new ∨ s.freeEntries = FreeEntries.new.put s.startAddr 0
  allocated : s.allocatedAddrs = .empty
  space : s.freeSpace = 0 ∧ s.maxSize = 0
  calls : ∀ c ∈ s.calls, c.held = [] ∧ c.Ok build s.startAddr 0

theorem Void.setCall (h : Void build s) (hheld : c.held = []) (hok : c.Ok build s.startAddr 0) :
    Void build (s.setCall k c) := by
  refine ⟨h.freeEntries, h.allocated, h.space, fun d hd => ?_⟩
  rcases List.mem_or_eq_of_mem_set hd with hd | rfl
  · exact h.calls d hd
  · exact ⟨hheld, hok⟩

theorem Void.call (h : Void build s) (hheld : c.held = []) (hok : c.Ok build s.startAddr 0) :
    Void build { s with calls := s.calls ++ [c] } := by
  refine ⟨h.freeEntries, h.allocated, h.space, fun d hd => ?_⟩
  rcases List.mem_append.mp hd with hd | hd
  · exact h.calls d hd
  · rw [List.mem_singleton.mp hd]
    exact ⟨hheld, hok⟩

/-- A search for one byte or more finds nothing, nor does one that finds no free block. -/
theorem Void.firstFrom (h : Void build s) {n size align : ℕ} (hargs : 0 < size ∧ 0 < align)
    (hn : n = size + align - 1 ∨ s.freeEntries.available build n = false) :
    s.freeEntries.sizes.firstFrom n = none := by
  rcases hn with rfl | hnot
  · rcases h.freeEntries with heq | heq
    · rw [heq]
      rfl
    · have hne : 1 < size + align := by omega
      rw [heq]
      simp [FreeEntries.put, FreeEntries.new, SortedMap.firstFrom, SortedMap.insert,
        SortedMap.empty, SortedMap.insertEntry, hne]
  · exact (firstFrom_eq_none_of_not_available hnot).1

theorem Void.merge (h : Void build s) :
    s.freeEntries.addrs.entries = [] ∧ s.freeEntries.merge build = .error s.freeEntries ∨
      s.freeEntries.addrs.entries ≠ [] ∧ s.freeEntries.merge build = .ok s.freeEntries := by
  rcases h.freeEntries with heq | heq
  · rw [heq]
    exact Or.inl ⟨rfl, rfl⟩
  · rw [heq]
    exact Or.inr ⟨List.cons_ne_nil _ _, rfl⟩

theorem Void.runTryMalloc (h : Void build s) {size align : ℕ} {pc : MallocPc}
    (hk : s.calls[k]? = some (.tryMalloc size align pc))
    (hfits : (Call.tryMalloc size align pc).Fits build s.freeEntries)
    (hstep : s.runTryMalloc build k size align pc = some s') : Void build s' := by
  obtain ⟨hheld, hargs, -⟩ := h.calls _ (List.mem_of_getElem? hk)
  cases pc with
  | start =>
    simp only [BTreeAlloc.runTryMalloc] at hstep
    split at hstep
    · rename_i upper hupper
      rw [s.takeFrom_of_none k size align _ (h.firstFrom hargs (hfits upper hupper))] at hstep
      cases hstep
      refine h.setCall rfl ⟨hargs, ?_, by simp⟩
      rintro _ ⟨⟩
      exact hupper
    · cases hstep
      exact h.setCall rfl ⟨hargs, by simp, by simp⟩
  | waiting upper =>
    simp only [BTreeAlloc.runTryMalloc] at hstep
    rcases h.merge with ⟨-, hmerge⟩ | ⟨-, hmerge⟩
    · rw [hmerge] at hstep
      cases hstep
      exact h.setCall rfl ⟨hargs, by simp, by simp⟩
    · rw [hmerge] at hstep
      simp only [s.takeFrom_of_none k size align _ (h.firstFrom hargs hfits)] at hstep
      cases hstep
      exact h.setCall rfl ⟨hargs, by simp, by simp⟩
  | taken a => cases hheld
  | returned a => cases hstep
  | panicked => cases hstep

theorem Void.held (h : Void build s) : s.calls.flatMap Call.held = [] :=
  List.flatMap_eq_nil_iff.mpr fun c hc => (h.calls c hc).1

/-- A call that has come to nothing so far -/
theorem Call.Ok.of_void {start start' size : ℕ} (h : c.Ok build start 0) :
    c.Ok build start' size := by
  cases c with
  | tryMalloc n align pc =>
    refine ⟨h.1, h.2.1, fun addr hpc => ?_⟩
    have hend := (h.2.2 addr hpc).2
    have hpos := h.1.1
    omega
  | fakeMalloc => trivial
  | free => exact h

theorem FreeEntries.new_mirror : (FreeEntries.new : FreeEntries S).Mirror :=
  ⟨fun _ _ => by simp [new, sizeItems, SortedMap.empty, SortedMap.get?],
    fun h => by simp [new, SortedMap.empty, SortedMap.get?] at h,
    fun h => by simp [new, SortedMap.empty, SortedMap.get?] at h⟩

theorem Void.init_freeEntries (h : Void build s) (hfresh : s.Fresh) (startAddr size : ℕ) :
    (s.init startAddr size).freeEntries = FreeEntries.new.put startAddr size := by
  have hnew : s.freeEntries = .new := h.freeEntries.resolve_right fun heq => by
    rw [BTreeAlloc.Fresh, heq] at hfresh
    exact List.cons_ne_nil _ _ hfresh.2
  rw [BTreeAlloc.init, hnew]
  rfl

/-- `init` on a heap that is new -/
theorem Void.init (h : Void build s) (hfresh : s.Fresh) {startAddr size : ℕ}
    (hbound : startAddr + size < word) :
    Void build (s.init startAddr size) ∧ size = 0 ∨
      0 < size ∧ Inv build startAddr size (s.init startAddr size) := by
  have hput := h.init_freeEntries hfresh startAddr size
  have hblocks : (s.init startAddr size).blocks = [(startAddr, size)] := by
    have hal : (s.init startAddr size).allocatedAddrs = .empty := h.allocated
    have hcalls : (s.init startAddr size).calls.flatMap Call.held = [] := h.held
    rw [BTreeAlloc.blocks, hput, hal, hcalls]
    rfl
  rcases Nat.eq_zero_or_pos size with rfl | hpos
  · refine Or.inl ⟨⟨Or.inr hput, h.allocated, ⟨rfl, rfl⟩, fun c hc => ?_⟩, rfl⟩
    exact ⟨(h.calls c hc).1, (h.calls c hc).2.of_void⟩
  · refine Or.inr ⟨hpos, ⟨rfl, rfl⟩, hbound, ?_, ?_, ?_, fun c hc => (h.calls c hc).2.of_void, ?_⟩
    · rw [hput]
      exact FreeEntries.new_mirror.put rfl hpos
    · rw [hblocks]
      refine ⟨fun x => ?_, ?_⟩
      · simp [Blocks.cover, List.countP_cons]
      · simp [Blocks.total]
    · intro a n p ha
      rw [show (s.init startAddr size).allocatedAddrs = .empty from h.allocated] at ha
      cases ha
    · rw [BTreeAlloc.allocated,
        show (s.init startAddr size).allocatedAddrs = .empty from h.allocated]
      rfl

theorem Void.step (h : Void build s) {a : Action} (hfits : s.Fits build a)
    (hinit : ∀ startAddr size, a ≠ .init startAddr size) (hstep : s.step build a = some s') :
    Void build s' := by
  cases a with
  | init startAddr size => exact absurd rfl (hinit startAddr size)
  | tryMalloc size align =>
    simp only [BTreeAlloc.step] at hstep
    split at hstep
    · rename_i hpos
      cases hstep
      exact h.call rfl ⟨hpos, by simp, by simp⟩
    · cases hstep
  | fakeMalloc size align =>
    simp only [BTreeAlloc.step] at hstep
    split at hstep
    · cases hstep
      exact h.call rfl trivial
    · cases hstep
  | free addr =>
    cases hstep
    exact h.call rfl fun n p hpc => by cases hpc
  | run k =>
    simp only [BTreeAlloc.step] at hstep
    split at hstep
    · exact h.runTryMalloc ‹_› (hfits _ ‹_›) hstep
    · rename_i size align pc hk
      have hset := fun pc' => h.setCall (k := k) (c := .fakeMalloc size align pc') rfl trivial
      cases pc with
      | start =>
        simp only [BTreeAlloc.runFakeMalloc] at hstep
        split at hstep
        · split at hstep
          · cases hstep
            exact hset _
          · rcases h.merge with ⟨-, hmerge⟩ | ⟨-, hmerge⟩
            · rw [hmerge] at hstep
              cases hstep
              exact hset _
            · rw [hmerge] at hstep
              cases hstep
              exact hset _
        · cases hstep
          exact hset _
      | returned found => cases hstep
      | panicked => cases hstep
    · rename_i addr pc hk
      have hset := fun pc' hheld => h.setCall (k := k) (c := .free addr pc') hheld
      cases pc with
      | start =>
        have hnone : s.allocatedAddrs.get? addr = none := by
          rw [h.allocated]
          rfl
        simp only [BTreeAlloc.runFree, hnone] at hstep
        cases hstep
        exact hset _ rfl fun n p hpc => by cases hpc
      | removed size padding =>
        have hheld := (h.calls _ (List.mem_of_getElem? hk)).1
        cases hheld
      | returned ok => cases hstep
      | panicked => cases hstep
    · cases hstep

/-! ## Runs -/

/-- What holds in every run. -/
def BTreeAlloc.Sound (build : Build) (s : BTreeAlloc S) : Prop :=
  Void build s ∨ 0 < s.maxSize ∧ Inv build s.startAddr s.maxSize s

theorem BTreeAlloc.Sound.step (h : s.Sound build) {a : Action} (hfits : s.Fits build a)
    (hstep : s.step build a = some s') : s'.Sound build := by
  rcases h with h | ⟨hsize, h⟩
  · by_cases hinit : ∃ startAddr size, a = .init startAddr size
    · obtain ⟨startAddr, size, rfl⟩ := hinit
      cases hstep
      exact (h.init hfits.1 hfits.2).imp And.left id
    · exact Or.inl (h.step hfits (fun startAddr size heq => hinit ⟨startAddr, size, heq⟩) hstep)
  · have hinv := h.step hsize hfits hstep
    rw [← hinv.region.2] at hsize
    have hregion := hinv.region
    exact Or.inr ⟨hsize, hregion.1.symm ▸ hregion.2.symm ▸ hinv⟩

theorem Reachable.sound (hs : Reachable build s) : s.Sound build := by
  refine hs.invariant ?_ fun _ _ _ h hfits hstep => h.step hfits hstep
  rintro s rfl
  exact Or.inl ⟨Or.inl rfl, rfl, ⟨rfl, rfl⟩, fun c hc => by cases hc⟩

/-- The representation of the heap. -/
structure BTreeAlloc.Partitioned (s : BTreeAlloc S) : Prop where
  blocks : Blocks.Partition s.blocks s.startAddr s.maxSize
  /-- The sizes are the mirror of the addresses. -/
  mirror : ∀ size addr, addr ∈ s.freeEntries.sizeItems size ↔
    s.freeEntries.addrs.get? addr = some (size, 0)
  nonempty : ∀ size set, s.freeEntries.sizes.get? size = some set → isEmpty set = false
  flat : ∀ addr size padding, s.freeEntries.addrs.get? addr = some (size, padding) → padding = 0
  returned : ∀ size align addr, Call.tryMalloc size align (.returned (some addr)) ∈ s.calls →
    align ∣ addr ∧ s.startAddr ≤ addr ∧ addr + size ≤ s.startAddr + s.maxSize
  /-- The live allocations are disjoint. -/
  disjoint : s.allocatedAddrs.entries.Pairwise
    fun a b => ∀ x, ¬ ((a.1 ≤ x ∧ x < a.1 + a.2.1) ∧ b.1 ≤ x ∧ x < b.1 + b.2.1)
  freeSpace : s.freeSpace = s.maxSize - (s.allocatedAddrs.entries.map fun e => e.2.1 + e.2.2).sum

theorem Inv.partitioned (h : Inv build s.startAddr s.maxSize s) : s.Partitioned := by
  refine ⟨h.partition, h.mirror.mem_iff,
    fun _ _ hget => eq_false_of_ne_true (h.mirror.nonempty hget),
    fun _ _ _ hget => (h.mirror.flat hget).1,
    fun _ _ addr hc => (h.calls _ hc).2.2 addr rfl, ?_, ?_⟩
  · have hpairwise := (List.pairwise_append.mp
      (List.pairwise_append.mp h.partition.pairwise).2.1).1
    refine (List.pairwise_map.mp hpairwise).imp_of_mem ?_
    rintro ⟨a, n, p⟩ ⟨a', n', p'⟩ hmem hmem' hdisj x ⟨hx, hx'⟩
    have hp := (h.allocated (SortedMap.get?_eq_some_iff.mpr hmem)).2
    have hp' := (h.allocated (SortedMap.get?_eq_some_iff.mpr hmem')).2
    simp only at hx hx'
    exact hdisj x ⟨by simp only [allocatedBlock]; omega, by simp only [allocatedBlock]; omega⟩
  · have hfree := h.freeSpace
    have hsum : (s.allocatedAddrs.entries.map fun e => e.2.1 + e.2.2).sum = s.allocated := rfl
    omega

theorem Void.partitioned (h : Void build s) : s.Partitioned := by
  have hblocks : s.blocks = [] ∨ s.blocks = [(s.startAddr, 0)] := by
    rw [BTreeAlloc.blocks, h.allocated, h.held]
    rcases h.freeEntries with heq | heq
    · rw [heq]
      exact Or.inl rfl
    · rw [heq]
      exact Or.inr rfl
  refine ⟨⟨fun x => ?_, ?_⟩, fun size addr => ?_, fun size set hset => ?_,
    fun addr size p hget => ?_, fun size align addr hc => ?_, ?_, ?_⟩
  · rw [h.space.2, if_neg (by omega)]
    rcases hblocks with heq | heq <;> simp [heq, Blocks.cover]
  · rw [h.space.2]
    rcases hblocks with heq | heq <;> simp [heq, Blocks.total]
  · rcases h.freeEntries with heq | heq
    · rw [heq]
      exact FreeEntries.new_mirror.mem_iff size addr
    · rw [heq, FreeEntries.mem_sizeItems_put, FreeEntries.new_mirror.mem_iff, FreeEntries.put_addrs,
        SortedMap.get?_insert]
      split
      · rename_i haddr
        simp [haddr, FreeEntries.new, SortedMap.empty, SortedMap.get?, eq_comm]
      · rename_i haddr
        simp [haddr]
  · rcases h.freeEntries with heq | heq
    · rw [heq] at hset
      cases hset
    · rw [heq] at hset
      exact eq_false_of_ne_true (FreeEntries.put_nonempty FreeEntries.new_mirror.nonempty hset)
  · rcases h.freeEntries with heq | heq
    · rw [heq] at hget
      cases hget
    · rw [heq, FreeEntries.put_addrs, SortedMap.get?_insert] at hget
      split at hget <;> cases hget
      rfl
  · rw [h.space.2]
    exact (h.calls _ hc).2.2.2 addr rfl
  · rw [h.allocated]
    exact .nil
  · rw [h.allocated, h.space.1, h.space.2]
    rfl

/-- In every run with one `init` in which no `upper_size` that has wrapped around finds a block. -/
theorem heap_partitioned (hs : Reachable build s) : s.Partitioned := by
  rcases hs.sound with h | ⟨-, h⟩
  · exact h.partitioned
  · exact h.partitioned

/-- In a region of 16 bytes from address 3 on, 4 bytes that are aligned to 8. -/
theorem heap_partitioned_aligned : ∃ s : BTreeAlloc ItemList,
    Call.tryMalloc 4 8 (.returned (some 8)) ∈ s.calls ∧ s.freeSpace = 7 ∧ s.Partitioned := by
  have hrun : ∃ s, Transition.run (Transition.guarded (BTreeAlloc.step .checked)
      (BTreeAlloc.Fits .checked)) (BTreeAlloc.new : BTreeAlloc ItemList)
      [.init 3 16, .tryMalloc 4 8, .run 0, .run 0] = some s ∧
        Call.tryMalloc 4 8 (.returned (some 8)) ∈ s.calls ∧ s.freeSpace = 7 :=
    ⟨_, rfl, List.mem_cons_self, rfl⟩
  obtain ⟨s, hs, hcall, hfree⟩ := hrun
  exact ⟨s, hcall, hfree, heap_partitioned (Transition.Reach.run_guarded (.init rfl) hs)⟩

/-- `init` is called once, with a region that ends below `word`. -/
def BTreeAlloc.InitOnce (s : BTreeAlloc S) (a : Action) : Prop :=
  ∀ startAddr size, a = .init startAddr size → s.Fresh ∧ startAddr + size < word

/-- `try_malloc(usize::MAX, 2)` looks for 0 bytes and gets the block at 0: what is left of the 16
bytes is a free block of 17 bytes at the end of the address space. -/
theorem heap_wrapped : ¬ ∀ s : BTreeAlloc ItemList,
    Transition.Reach (· = BTreeAlloc.new) (BTreeAlloc.step .wrapping) BTreeAlloc.InitOnce s →
      s.Partitioned := by
  intro h
  have hinit : Transition.Reach (· = BTreeAlloc.new) (BTreeAlloc.step .wrapping)
      BTreeAlloc.InitOnce ((BTreeAlloc.new : BTreeAlloc ItemList).init 0 16) :=
    .step (a := .init 0 16) (.init rfl) (by rintro _ _ ⟨⟩; decide) rfl
  have hcalled : Transition.Reach (· = BTreeAlloc.new) (BTreeAlloc.step .wrapping)
      BTreeAlloc.InitOnce
      { (BTreeAlloc.new : BTreeAlloc ItemList).init 0 16 with
        calls := [.tryMalloc (word - 1) 2 .start] } :=
    .step (a := .tryMalloc (word - 1) 2) hinit (by rintro _ _ ⟨⟩) rfl
  have htaken : ∃ s, Transition.Reach (· = BTreeAlloc.new) (BTreeAlloc.step .wrapping)
      BTreeAlloc.InitOnce s ∧ (s.freeEntries : FreeEntries ItemList).blocks = [(word - 1, 17)] ∧
        s.startAddr = 0 ∧ s.maxSize = 16 :=
    ⟨_, .step (a := .run 0) hcalled (by rintro _ _ ⟨⟩) rfl, rfl, rfl, rfl⟩
  obtain ⟨s, hs, hblocks, hstart, hmax⟩ := htaken
  have hwithin := (h s hs).blocks.within (b := (word - 1, 17))
    (List.mem_append_left _ (hblocks ▸ List.mem_cons_self)) (by decide)
  rw [hstart, hmax] at hwithin
  exact absurd hwithin.2 (by decide)

end Lamellar.Alloc
