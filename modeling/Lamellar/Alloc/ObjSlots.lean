import Lamellar.Alloc.FakeMalloc
import Lamellar.Lib.Transition

/-!
# The slots of `ObjAlloc`

`init` cuts the region into slots of one object each, and `try_malloc` and `free` take them from
a stack and put them back. The first slot begins at the first aligned address, and there is a
slot for every multiple of the object's size before the end of the region: the last one reaches
past the end if the size does not divide what is left. So the slots lie inside the region that
`init` has been given if and only if the size divides what is left of it behind the padding
(`obj_slots_exact`).
-/

namespace Lamellar.Alloc.ObjAlloc

open Lamellar.Transition StandardIter

/-- `size_of::<T>()` and `align_of::<T>()` -/
structure ObjType where
  size : ℕ
  align : ℕ
  align_pos : 0 < align
  align_lt : align < word
  align_dvd : align ∣ size

def free (a : ObjAlloc) (addr : ℕ) : ObjAlloc := { a with freeEntries := a.freeEntries ++ [addr] }

/-- The allocator, and the slots that have been handed out and not been freed -/
structure Slots where
  alloc : ObjAlloc
  live : List ℕ

inductive Call where
  | tryMalloc (size : ℕ)
  | free (addr : ℕ)

/-- One call, under the lock. Only a slot that is handed out is freed. -/
def step (s : Slots) : Call → Option Slots
  | .tryMalloc size =>
    (s.alloc.tryMalloc size).map fun (addr, alloc) => ⟨alloc, addr.toList ++ s.live⟩
  | .free addr => if addr ∈ s.live then some ⟨s.alloc.free addr, s.live.erase addr⟩ else none

variable {build : Build} {t : ObjType} {startAddr size : ℕ} {s s' : Slots}

/-- `init` for objects of a type -/
def initFor (build : Build) (t : ObjType) (startAddr size : ℕ) : Option ObjAlloc :=
  init build t.size t.align startAddr size

def Reachable (build : Build) (t : ObjType) (startAddr size : ℕ) : Slots → Prop :=
  Reach (fun s => ∃ a, initFor build t startAddr size = some a ∧ s = ⟨a, []⟩) step fun _ _ => True

/-! ## The slots of a region -/

theorem stepBy_range' {n step : ℕ} (hstep : 0 < step) (base : ℕ) :
    stepBy step (List.range' base n) =
      (List.range (steps step n)).map fun k => base + k * step := by
  obtain ⟨hlen, hget⟩ := stepBy_items hstep (List.range' base n)
  rw [List.length_range'] at hlen hget
  refine List.ext_getElem? fun k => ?_
  rw [List.getElem?_map]
  by_cases hk : k < steps step n
  · have hlt := (lt_steps_iff hstep k n).mp hk
    rw [hget k hk, List.getElem?_range hk, List.getElem?_range' hlt, Nat.one_mul]
    rfl
  · rw [List.getElem?_eq_none (by omega), List.getElem?_eq_none (by simpa using hk)]
    rfl

/-- The slots from `first` on: as many as begin below `stop`. -/
def slots (t : ObjType) (first stop : ℕ) : List ℕ :=
  (List.range (steps t.size (stop - first))).map fun k => first + k * t.size

theorem initFor_eq_some_iff {a : ObjAlloc} : initFor build t startAddr size = some a ↔
    0 < t.size ∧ ∃ first stop,
      build.result (startAddr + calcPadding startAddr t.align) = some first ∧
      build.result (startAddr + size) = some stop ∧ a = ⟨slots t first stop, first, size⟩ := by
  unfold initFor init
  cases build.result (startAddr + calcPadding startAddr t.align) with
  | none => simp
  | some first =>
    cases build.result (startAddr + size) with
    | none => simp
    | some stop =>
      simp only [Option.some.injEq, slots]
      split
      · rename_i hzero
        simp [hzero]
      · rename_i hsize
        have hpos : 0 < t.size := Nat.pos_of_ne_zero hsize
        rw [stepBy_range' hpos]
        simp [hpos, eq_comm]

theorem aligned_of_mem {first stop addr : ℕ} (hfirst : t.align ∣ first)
    (h : addr ∈ slots t first stop) : t.align ∣ addr := by
  obtain ⟨k, _, rfl⟩ := List.mem_map.mp h
  exact Nat.dvd_add hfirst (t.align_dvd.mul_left k)

/-- Two slots do not share a byte. -/
def Apart (t : ObjType) (addr addr' : ℕ) : Prop := addr + t.size ≤ addr' ∨ addr' + t.size ≤ addr

theorem Apart.symm {addr addr' : ℕ} (h : Apart t addr addr') : Apart t addr' addr := Or.symm h

theorem pairwise_slots (first stop : ℕ) : (slots t first stop).Pairwise (Apart t) := by
  rw [slots, List.pairwise_map]
  refine List.pairwise_lt_range.imp fun {j k} hjk => Or.inl ?_
  have hmul : (j + 1) * t.size ≤ k * t.size := Nat.mul_le_mul_right _ hjk
  rw [Nat.succ_mul] at hmul
  omega

theorem lt_of_mem_slots {first stop addr : ℕ} (hpos : 0 < t.size) (h : addr ∈ slots t first stop) :
    first < stop := by
  obtain ⟨k, hk, -⟩ := List.mem_map.mp h
  have hlt := (lt_steps_iff hpos k _).mp (List.mem_range.mp hk)
  omega

theorem first_mem_slots {first stop : ℕ} (hpos : 0 < t.size) (hlt : first < stop) :
    first ∈ slots t first stop := by
  refine List.mem_map.mpr ⟨0, List.mem_range.mpr ((lt_steps_iff hpos 0 _).mpr ?_), by simp⟩
  omega

/-- The last slot ends where the bytes behind `first` do, exactly if the size divides them. -/
theorem inside_iff {first stop : ℕ} (hpos : 0 < t.size) (hlt : first < stop) :
    (∀ addr ∈ slots t first stop, addr + t.size ≤ stop) ↔ t.size ∣ stop - first := by
  have hround := le_steps_mul hpos (stop - first)
  have hsome : 0 < steps t.size (stop - first) := (lt_steps_iff hpos 0 _).mpr (by omega)
  constructor
  · intro hinside
    refine ⟨steps t.size (stop - first), ?_⟩
    have hlast := hinside (first + (steps t.size (stop - first) - 1) * t.size)
      (List.mem_map.mpr ⟨_, List.mem_range.mpr (by omega), rfl⟩)
    have hsucc := Nat.succ_mul (steps t.size (stop - first) - 1) t.size
    rw [Nat.succ_eq_add_one, Nat.sub_add_cancel hsome] at hsucc
    rw [Nat.mul_comm]
    omega
  · rintro ⟨n, hn⟩ addr haddr
    obtain ⟨k, hk, rfl⟩ := List.mem_map.mp haddr
    have hkn := (lt_steps_iff hpos k _).mp (List.mem_range.mp hk)
    rw [hn, Nat.mul_comm t.size] at hkn
    have hle : (k + 1) * t.size ≤ n * t.size :=
      Nat.mul_le_mul_right _ (Nat.lt_of_mul_lt_mul_right hkn)
    rw [Nat.succ_mul, Nat.mul_comm n] at hle
    omega

/-- `init` panics or makes no slot, or the region ends below `word` and its rest behind the padding
is a number of whole objects. -/
def Fits (build : Build) (t : ObjType) (startAddr size : ℕ) : Prop :=
  t.size = 0 ∨ (∀ first stop,
      build.result (startAddr + calcPadding startAddr t.align) = some first →
      build.result (startAddr + size) = some stop → stop ≤ first) ∨
    startAddr + size < word ∧ calcPadding startAddr t.align ≤ size ∧
      t.size ∣ size - calcPadding startAddr t.align

/-! ## Runs -/

theorem tryMalloc_perm {a a' : ObjAlloc} {n : ℕ} {addr : Option ℕ}
    (h : a.tryMalloc n = some (addr, a')) :
    (a'.freeEntries ++ addr.toList).Perm a.freeEntries := by
  unfold tryMalloc at h
  split at h
  · cases h
    rcases List.eq_nil_or_concat a.freeEntries with hnil | ⟨rest, last, hlast⟩
    · rw [hnil]
      rfl
    · rw [hlast]
      simp
  · cases h

/-- The free slots and the live ones stay the same slots. -/
theorem perm_step {fixed : List ℕ} (h : (s.alloc.freeEntries ++ s.live).Perm fixed) {c : Call}
    (hs : step s c = some s') : (s'.alloc.freeEntries ++ s'.live).Perm fixed := by
  cases c with
  | tryMalloc n =>
    obtain ⟨⟨addr, a'⟩, htry, rfl⟩ := Option.map_eq_some_iff.mp hs
    have hperm := tryMalloc_perm htry
    dsimp only
    rw [← List.append_assoc]
    exact (hperm.append_right s.live).trans h
  | free addr =>
    rw [ObjAlloc.step] at hs
    split at hs
    · rename_i hlive
      cases hs
      rw [free, List.append_assoc]
      have hlive' := List.perm_cons_erase hlive
      exact (hlive'.symm.append_left s.alloc.freeEntries).trans h
    · cases hs

theorem Reachable.perm {a : ObjAlloc} (ha : initFor build t startAddr size = some a)
    (h : Reachable build t startAddr size s) :
    (s.alloc.freeEntries ++ s.live).Perm a.freeEntries := by
  refine Reach.invariant ?_ (fun s c s' hs _ hstep => perm_step hs hstep) h
  rintro s ⟨a', ha', rfl⟩
  rw [ha] at ha'
  cases ha'
  rw [List.append_nil]

/-! ## The live slots -/

structure Sound (t : ObjType) (startAddr size : ℕ) (fixed : List ℕ) (s : Slots) : Prop where
  aligned : ∀ addr ∈ s.live, t.align ∣ addr
  /-- In the region that `init` has been given -/
  inside : ∀ addr ∈ s.live, startAddr ≤ addr ∧ addr + t.size ≤ startAddr + size
  apart : s.live.Pairwise (Apart t)
  same : (s.alloc.freeEntries ++ s.live).Perm fixed

/-- In every run the live slots are sound, and the slots are those of `init`. -/
def SlotsSound (build : Build) (t : ObjType) (startAddr size : ℕ) : Prop :=
  ∀ a s, initFor build t startAddr size = some a → Reachable build t startAddr size s →
    Sound t startAddr size a.freeEntries s

/-- Every slot can be handed out: the live ones are the last ones of the stack. -/
theorem reachable_live {a : ObjAlloc} (ha : initFor build t startAddr size = some a)
    {free live : List ℕ} (h : a.freeEntries = free ++ live) :
    Reachable build t startAddr size ⟨{ a with freeEntries := free }, live⟩ := by
  induction live generalizing free with
  | nil =>
    rw [List.append_nil] at h
    exact .init ⟨a, ha, by rw [← h]⟩
  | cons addr live ih =>
    have hprior := @ih (free ++ [addr]) (by rw [h, List.append_assoc]; rfl)
    exact .step (a := .tryMalloc 1) hprior trivial (by simp [ObjAlloc.step, tryMalloc])

theorem SlotsSound.inside (h : SlotsSound build t startAddr size) {a : ObjAlloc}
    (ha : initFor build t startAddr size = some a) {addr : ℕ} (haddr : addr ∈ a.freeEntries) :
    startAddr ≤ addr ∧ addr + t.size ≤ startAddr + size :=
  (h a _ ha (reachable_live ha (List.nil_append a.freeEntries).symm)).inside addr haddr

theorem SlotsSound.fits (h : SlotsSound build t startAddr size) (hstart : startAddr < word)
    (hsize : size < word) : Fits build t startAddr size := by
  by_cases hfits : t.size = 0 ∨ ∀ first stop,
      build.result (startAddr + calcPadding startAddr t.align) = some first →
        build.result (startAddr + size) = some stop → stop ≤ first
  · exact hfits.imp_right Or.inl
  · push Not at hfits
    obtain ⟨hne, first, stop, hfirst, hstop, hlt⟩ := hfits
    have hpos : 0 < t.size := Nat.pos_of_ne_zero hne
    have ha := initFor_eq_some_iff.mpr ⟨hpos, first, stop, hfirst, hstop, rfl⟩
    have hin := h.inside ha (first_mem_slots hpos hlt)
    have hpadding := calcPadding_lt startAddr t.align_pos
    have halign := t.align_lt
    -- a sum that has wrapped around lies below the region
    have hstop' : stop = startAddr + size ∧ startAddr + size < word := by
      unfold Build.result at hstop
      split at hstop
      · cases hstop
        exact ⟨rfl, ‹_›⟩
      · cases build with
        | checked => cases hstop
        | wrapping =>
          cases hstop
          rw [Nat.mod_eq_sub_mod (by omega), Nat.mod_eq_of_lt (by omega)] at hlt
          omega
    have hfirst' : first = startAddr + calcPadding startAddr t.align := by
      unfold Build.result at hfirst
      split at hfirst
      · cases hfirst
        rfl
      · cases build with
        | checked => cases hfirst
        | wrapping =>
          cases hfirst
          rw [Nat.mod_eq_sub_mod (by omega), Nat.mod_eq_of_lt (by omega)] at hin
          omega
    obtain ⟨rfl, hregion⟩ := hstop'
    subst hfirst'
    have hdvd := (inside_iff hpos hlt).mp fun addr haddr => (h.inside ha haddr).2
    rw [Nat.add_sub_add_left] at hdvd
    exact Or.inr (Or.inr ⟨hregion, by omega, hdvd⟩)

/-- The slots are sound exactly if they fit. -/
theorem obj_slots_exact (build : Build) (t : ObjType) (startAddr size : ℕ)
    (hstart : startAddr < word) (hsize : size < word) :
    SlotsSound build t startAddr size ↔ Fits build t startAddr size := by
  refine ⟨fun h => h.fits hstart hsize, fun hfits a s ha hs => ?_⟩
  have hperm := hs.perm ha
  obtain ⟨hpos, first, stop, hfirst, hstop, rfl⟩ := initFor_eq_some_iff.mp ha
  have hmem : ∀ addr ∈ s.live, addr ∈ slots t first stop := fun addr haddr =>
    hperm.mem_iff.mp (List.mem_append_right _ haddr)
  have hpairwise : s.live.Pairwise (Apart t) :=
    (List.pairwise_append.mp ((hperm.pairwise_iff Apart.symm).mpr (pairwise_slots first stop))).2.1
  have hinside : ∀ addr ∈ s.live, t.align ∣ addr ∧ startAddr ≤ addr ∧
      addr + t.size ≤ startAddr + size := by
    intro addr haddr
    have hlt := lt_of_mem_slots hpos (hmem addr haddr)
    rcases hfits with hzero | hnone | ⟨hregion, hpadding, hdvd⟩
    · exact absurd hzero (Nat.ne_of_gt hpos)
    · exact absurd (hnone first stop hfirst hstop) (Nat.not_le.mpr hlt)
    · rw [build.result_of_lt hregion] at hstop
      rw [build.result_of_lt (show startAddr + calcPadding startAddr t.align < word by omega)]
        at hfirst
      cases hstop
      cases hfirst
      rw [← Nat.add_sub_add_left startAddr] at hdvd
      refine ⟨aligned_of_mem (dvd_add_calcPadding startAddr t.align_pos) (hmem addr haddr), ?_,
        (inside_iff hpos hlt).mpr hdvd addr (hmem addr haddr)⟩
      obtain ⟨k, -, rfl⟩ := List.mem_map.mp (hmem addr haddr)
      omega
  exact ⟨fun addr haddr => (hinside addr haddr).1, fun addr haddr => (hinside addr haddr).2,
    hpairwise, hperm⟩

/-- Objects of four bytes in eleven bytes from address 1 on -/
theorem obj_slots_exact_padded :
    SlotsSound .checked ⟨4, 4, by decide, by decide, by decide⟩ 1 11 :=
  (obj_slots_exact .checked ⟨4, 4, by decide, by decide, by decide⟩ 1 11 (by decide)
    (by decide)).mpr (Or.inr (Or.inr (by decide)))

/-- Objects of four bytes in nine bytes from address 1 on: the second slot ends two bytes past the
region. -/
theorem obj_slot_past_end :
    ¬ SlotsSound .checked ⟨4, 4, by decide, by decide, by decide⟩ 1 9 := fun h =>
  absurd (@SlotsSound.inside _ _ _ _ h _ rfl 8 (by decide)).2 (by decide)

end Lamellar.Alloc.ObjAlloc
