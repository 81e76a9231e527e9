import Lamellar.Lib.Regions

/-!
# The memory of a Darc: `Darc::try_new_with_drop` of `src/darc.rs`

One allocation holds the `DarcInner` and five arrays with an entry for each PE, four of words and
one of bytes. They do not overlap and fill the allocation (`regions_eq_carve`). The array of
bytes, the modes, is the third: the two arrays of words behind it begin where the number of PEs
lets them (`wellFormed_iff`).
-/

namespace Lamellar.Darc

open Region

/-- `size_of::<usize>()`, and its alignment -/
def sizeOfUsize : ℕ := 8

/-- `size_of::<DarcMode>()`, a `repr(u8)` -/
def sizeOfDarcMode : ℕ := 1

/-- A `usize`, an atomic one or a pointer -/
def wordField : ℕ × ℕ := (sizeOfUsize, sizeOfUsize)

/-- The fields of `DarcInner` -/
def innerFields : List (ℕ × ℕ) :=
  [ wordField, -- id
    wordField, -- my_pe
    wordField, -- num_pes
    wordField, -- local_cnt
    wordField, -- total_local_cnt
    wordField, -- weak_local_cnt
    wordField, -- dist_cnt
    wordField, -- total_dist_cnt
    wordField, -- ref_cnt_addr
    wordField, -- total_ref_cnt_addr
    wordField, -- mode_addr
    wordField, -- mode_ref_cnt_addr
    wordField, -- mode_barrier_addr
    wordField, -- barrier
    wordField, -- am_counters
    wordField, -- team
    wordField, -- item
    wordField, -- drop
    (1, 1) ] -- valid

/-- `size_of::<DarcInner<T>>()` -/
def sizeOfInner : ℕ := structSize innerFields

theorem sizeOfInner_eq : sizeOfInner = 152 := by decide

/-- The `size` of the allocation -/
def allocSize (numPes : ℕ) : ℕ :=
  sizeOfInner + numPes * sizeOfUsize + numPes * sizeOfUsize + numPes * sizeOfDarcMode +
    numPes * sizeOfUsize + numPes * sizeOfUsize

/-- The addresses that the `DarcInner` at `addr` is given -/
structure Addrs where
  refCntAddr : ℕ
  totalRefCntAddr : ℕ
  modeAddr : ℕ
  modeRefCntAddr : ℕ
  modeBarrierAddr : ℕ

def Addrs.new (addr numPes : ℕ) : Addrs where
  refCntAddr := addr + sizeOfInner
  totalRefCntAddr := addr + sizeOfInner + numPes * sizeOfUsize
  modeAddr := addr + sizeOfInner + numPes * sizeOfUsize + numPes * sizeOfUsize
  modeRefCntAddr :=
    addr + sizeOfInner + numPes * sizeOfUsize + numPes * sizeOfUsize + numPes * sizeOfDarcMode
  modeBarrierAddr :=
    addr + sizeOfInner + numPes * sizeOfUsize + numPes * sizeOfUsize + numPes * sizeOfDarcMode +
      numPes * sizeOfUsize

/-! ## Regions -/

/-- The memory that the accesses to a Darc reach: the `DarcInner`, and the slices that
`ref_cnts_as_mut_slice` and its like make -/
def regions (addr numPes : ℕ) : List Region :=
  let addrs := Addrs.new addr numPes
  [ ⟨addr, sizeOfInner⟩,
    ⟨addrs.refCntAddr, numPes * sizeOfUsize⟩,
    ⟨addrs.totalRefCntAddr, numPes * sizeOfUsize⟩,
    ⟨addrs.modeAddr, numPes * sizeOfDarcMode⟩,
    ⟨addrs.modeRefCntAddr, numPes * sizeOfUsize⟩,
    ⟨addrs.modeBarrierAddr, numPes * sizeOfUsize⟩ ]

/-- Where the arrays of `usize` begin -/
def Addrs.words (a : Addrs) : List ℕ :=
  [a.refCntAddr, a.totalRefCntAddr, a.modeRefCntAddr, a.modeBarrierAddr]

theorem regions_eq_carve (addr numPes : ℕ) :
    regions addr numPes = carve addr [sizeOfInner, numPes * sizeOfUsize, numPes * sizeOfUsize,
      numPes * sizeOfDarcMode, numPes * sizeOfUsize, numPes * sizeOfUsize] := rfl

theorem pairwise_regions (addr numPes : ℕ) : (regions addr numPes).Pairwise Region.Disjoint := by
  rw [regions_eq_carve]
  exact pairwise_carve addr _

theorem within_of_mem_regions {addr numPes : ℕ} {r : Region} (h : r ∈ regions addr numPes) :
    r.Within ⟨addr, allocSize numPes⟩ := by
  rw [regions_eq_carve] at h
  have hin := within_of_mem_carve h
  simp only [List.sum_cons, List.sum_nil, Nat.add_zero] at hin
  simpa only [allocSize, Nat.add_assoc] using hin

/-! ## Alignment -/

/-- The arrays before the modes begin at a word. -/
theorem aligned_before_mode {addr : ℕ} (haddr : sizeOfUsize ∣ addr) (numPes : ℕ) :
    sizeOfUsize ∣ (Addrs.new addr numPes).refCntAddr ∧
      sizeOfUsize ∣ (Addrs.new addr numPes).totalRefCntAddr := by
  simp only [Addrs.new, sizeOfInner_eq, sizeOfUsize] at haddr ⊢
  omega

/-- The arrays behind the modes begin at a word if the modes fill words. -/
theorem aligned_after_mode_iff {addr : ℕ} (haddr : sizeOfUsize ∣ addr) (numPes : ℕ) :
    (sizeOfUsize ∣ (Addrs.new addr numPes).modeRefCntAddr ↔ sizeOfUsize ∣ numPes) ∧
      (sizeOfUsize ∣ (Addrs.new addr numPes).modeBarrierAddr ↔ sizeOfUsize ∣ numPes) := by
  simp only [Addrs.new, sizeOfInner_eq, sizeOfUsize, sizeOfDarcMode] at haddr ⊢
  omega

structure WellFormed (addr numPes : ℕ) : Prop where
  disjoint : (regions addr numPes).Pairwise Region.Disjoint
  within : ∀ r ∈ regions addr numPes, r.Within ⟨addr, allocSize numPes⟩
  aligned : ∀ start ∈ (Addrs.new addr numPes).words, sizeOfUsize ∣ start

theorem wellFormed_iff {addr : ℕ} (haddr : sizeOfUsize ∣ addr) (numPes : ℕ) :
    WellFormed addr numPes ↔ sizeOfUsize ∣ numPes := by
  have hbefore := aligned_before_mode haddr numPes
  have hafter := aligned_after_mode_iff haddr numPes
  constructor
  · intro h
    exact hafter.1.mp (h.aligned _ (by simp [Addrs.words]))
  · intro hdvd
    refine ⟨pairwise_regions addr numPes, fun _ => within_of_mem_regions, ?_⟩
    simp only [Addrs.words, List.forall_mem_cons, List.not_mem_nil, false_imp_iff, forall_const,
      and_true]
    exact ⟨hbefore.1, hbefore.2, hafter.1.mpr hdvd, hafter.2.mpr hdvd⟩

theorem wellFormed_iff_eight :
    sizeOfUsize ∣ 4096 ∧ (WellFormed 4096 8 ↔ sizeOfUsize ∣ 8) :=
  ⟨by decide, wellFormed_iff (by decide) 8⟩

/-- Two PEs: the words for the modes begin two bytes past a multiple of 8. -/
theorem unaligned_two : ¬ ∀ addr numPes, sizeOfUsize ∣ addr → WellFormed addr numPes := by
  intro h
  have hdvd := (h 4096 2 (by decide)).aligned (Addrs.new 4096 2).modeRefCntAddr (by decide)
  exact absurd hdvd (by decide)

end Lamellar.Darc
