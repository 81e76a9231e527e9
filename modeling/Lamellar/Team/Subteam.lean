import Lamellar.Team.Arch
import Mathlib.Logic.Equiv.Basic
import Mathlib.Tactic.Choose

/-!
# Sub-teams: `LamellarArchRT::new`

A blocked or strided team names the PEs `startPe`, `startPe + stride`, … of its parent, and
`new` makes it a team above this parent. For the chains that it makes, `worldPe_iff_teamPe` says,
without an assumption on the ids, that the two translations are inverse to each other.
-/

namespace Lamellar.Team

namespace LamellarArchEnum

def startPe : LamellarArchEnum → ℕ
  | globalArch _ => 0
  | stridedArch _ startPe _ _ | blockedArch _ startPe _ | dynamic _ startPe _ _ _ => startPe

def endPe : LamellarArchEnum → ℕ
  | globalArch numPes => numPes - 1
  | stridedArch _ _ endPe _ | blockedArch _ _ endPe | dynamic _ _ endPe _ _ => endPe

/-- The distance between two PEs that the team names; one where the source has no stride. -/
def stride : LamellarArchEnum → ℕ
  | stridedArch _ _ _ stride => stride
  | globalArch _ | blockedArch _ _ _ | dynamic _ _ _ _ _ => 1

/-- The arguments of `LamellarArchRT::new`: what `StridedArch::new` and `BlockedArch::new`
return. -/
inductive Sub : LamellarArchEnum → Prop
  | strided (startPe stride num : ℕ) (hstride : 0 < stride) :
    Sub (StridedArch.new startPe stride num)
  | blocked (startPe num : ℕ) : Sub (BlockedArch.new startPe num)

/-- The architectures of this file, without a user's own. -/
inductive Static : LamellarArchEnum → Prop
  | global (n : ℕ) : Static (globalArch n)
  | sub {a : LamellarArchEnum} (ha : a.Sub) : Static a

variable {a : LamellarArchEnum} {t p : ℕ}

theorem Sub.endPe_eq (ha : a.Sub) (hnum : 0 < a.numPes) :
    a.endPe = a.startPe + (a.numPes - 1) * a.stride := by
  cases ha with
  | strided startPe stride num hstride => exact strided_endPe _ _ _
  | blocked startPe num =>
    have hpos : 0 < num := hnum
    simp only [BlockedArch.new, endPe, LamellarArchEnum.startPe, numPes, stride, Nat.mul_one]
    omega

theorem globalArch_parentPeId_iff {n : ℕ} :
    (globalArch n).parentPeId t = .ok p ↔ t < n ∧ 0 + t * 1 = p := by
  simp only [parentPeId, Nat.mul_one, Nat.zero_add]
  split <;> simp [*]

theorem globalArch_teamPeId_iff {n : ℕ} :
    (globalArch n).teamPeId p = .ok t ↔ t < n ∧ 0 + t * 1 = p := by
  simp only [teamPeId, Nat.mul_one, Nat.zero_add]
  split <;> simp [*] <;> omega

/-- The numbers that a sub-team names. -/
theorem Sub.parentPeId_iff (ha : a.Sub) :
    a.parentPeId t = .ok p ↔ t < a.numPes ∧ a.startPe + t * a.stride = p := by
  cases ha with
  | strided startPe stride num hstride =>
    simp only [StridedArch.new, parentPeId, strided_endPe, numPes, LamellarArchEnum.startPe,
      LamellarArchEnum.stride]
    constructor
    · intro h
      split at h
      · rename_i hcond
        cases h
        exact ⟨hcond.2.2, rfl⟩
      · cases h
    · rintro ⟨ht, rfl⟩
      have hle : t * stride ≤ (num - 1) * stride := Nat.mul_le_mul_right _ (by omega)
      exact if_pos ⟨by omega, by omega, ht⟩
  | blocked startPe num =>
    simp only [BlockedArch.new, parentPeId, numPes, LamellarArchEnum.startPe,
      LamellarArchEnum.stride, Nat.mul_one]
    constructor
    · intro h
      split at h
      · rename_i hcond
        cases h
        exact ⟨hcond.2.2, rfl⟩
      · cases h
    · rintro ⟨ht, rfl⟩
      exact if_pos ⟨by omega, by omega, ht⟩

theorem Sub.teamPeId_iff (ha : a.Sub) :
    a.teamPeId p = .ok t ↔ t < a.numPes ∧ a.startPe + t * a.stride = p := by
  cases ha with
  | strided startPe stride num hstride =>
    simp only [StridedArch.new, teamPeId, strided_endPe, numPes, LamellarArchEnum.startPe,
      LamellarArchEnum.stride]
    constructor
    · intro h
      split at h
      · rename_i hp
        split at h
        · rename_i hlt
          cases h
          have hmul : (p - startPe) / stride * stride = p - startPe :=
            Nat.div_mul_cancel (Nat.dvd_of_mod_eq_zero hp.2.2)
          exact ⟨hlt, by omega⟩
        · cases h
      · cases h
    · rintro ⟨ht, rfl⟩
      have hle : t * stride ≤ (num - 1) * stride := Nat.mul_le_mul_right _ (by omega)
      rw [Nat.add_sub_cancel_left, Nat.mul_mod_left, Nat.mul_div_cancel _ hstride,
        if_pos ⟨by omega, by omega, rfl⟩, if_pos ht]
  | blocked startPe num =>
    simp only [BlockedArch.new, teamPeId, numPes, LamellarArchEnum.startPe,
      LamellarArchEnum.stride, Nat.mul_one]
    constructor
    · intro h
      split at h
      · split at h
        · rename_i hp hlt
          cases h
          exact ⟨hlt, by omega⟩
        · cases h
      · cases h
    · rintro ⟨ht, rfl⟩
      rw [Nat.add_sub_cancel_left, if_pos ⟨by omega, by omega⟩, if_pos ht]

theorem Static.parentPeId_iff (ha : a.Static) :
    a.parentPeId t = .ok p ↔ t < a.numPes ∧ a.startPe + t * a.stride = p := by
  cases ha with
  | global n => exact globalArch_parentPeId_iff
  | sub ha => exact ha.parentPeId_iff

theorem Static.teamPeId_iff (ha : a.Static) :
    a.teamPeId p = .ok t ↔ t < a.numPes ∧ a.startPe + t * a.stride = p := by
  cases ha with
  | global n => exact globalArch_teamPeId_iff
  | sub ha => exact ha.teamPeId_iff

theorem Static.endPe_eq (ha : a.Static) (hnum : 0 < a.numPes) :
    a.endPe = a.startPe + (a.numPes - 1) * a.stride := by
  cases ha with
  | global n => simp [endPe, startPe, numPes, stride]
  | sub ha => exact ha.endPe_eq hnum

theorem Static.stride_pos (ha : a.Static) : 0 < a.stride := by
  cases ha with
  | global n => exact Nat.one_pos
  | sub ha =>
    cases ha with
    | strided startPe stride num hstride => exact hstride
    | blocked startPe num => exact Nat.one_pos

end LamellarArchEnum

namespace LamellarArchRT

def arch : LamellarArchRT → LamellarArchEnum
  | root arch | sub _ arch => arch

/-- `LamellarArchRT::new`; none where it panics. -/
def new (parent : LamellarArchRT) (arch : LamellarArchEnum) : Option LamellarArchRT :=
  let first := parent.arch.startPe
  let last := parent.arch.endPe
  if arch.numPes ≤ parent.numPes ∧ first ≤ arch.startPe ∧ arch.startPe ≤ last ∧
      first ≤ arch.endPe ∧ arch.endPe ≤ last then
    some (sub parent arch)
  else none

/-- The chains of teams that `new` takes, above the architecture `world`. -/
inductive Built (world : LamellarArchEnum) : LamellarArchRT → Prop
  | world : Built world (root world)
  | new {parent a : LamellarArchRT} {arch : LamellarArchEnum} (hparent : Built world parent)
    (harch : arch.Sub) (hnew : parent.new arch = some a) : Built world a

/-- The members of every team of the chain exist in its parent. -/
def MembersExist : LamellarArchRT → Prop
  | root _ => True
  | sub parent arch =>
    parent.MembersExist ∧ ∀ t p, arch.parentPeId t = .ok p → p < parent.numPes

/-- Number `t` of the team, its number in the parent, and so on up the chain, are numbers of
these teams. -/
def Names : LamellarArchRT → ℕ → Prop
  | root arch, t => t < arch.numPes
  | sub parent arch, t => t < arch.numPes ∧ parent.Names (arch.startPe + t * arch.stride)

variable {world child : LamellarArchEnum} {parent a : LamellarArchRT}

theorem new_eq_some (h : parent.new child = some a) : a = sub parent child := by
  simp only [new] at h
  split at h
  · cases h
    rfl
  · cases h

/-! ## The two translations -/

theorem Built.worldPe_iff (hworld : world.Static) (ha : Built world a) (t w : ℕ) :
    a.worldPe t = .ok w ↔ a.teamPe w = .ok t := by
  induction ha generalizing t with
  | world => exact hworld.parentPeId_iff.trans hworld.teamPeId_iff.symm
  | @new parent a arch hparent harch hnew ih =>
    cases new_eq_some hnew
    rw [worldPe, teamPe]
    constructor
    · intro h
      split at h
      · rename_i q hq
        rw [(ih q).mp h]
        exact harch.teamPeId_iff.mpr (harch.parentPeId_iff.mp hq)
      · cases h
    · intro h
      split at h
      · rename_i q hq
        rw [harch.parentPeId_iff.mpr (harch.teamPeId_iff.mp h)]
        exact (ih q).mpr hq
      · cases h

theorem Built.worldPe_inj (hworld : world.Static) (ha : Built world a) {t t' p : ℕ}
    (h : a.worldPe t = .ok p) (h' : a.worldPe t' = .ok p) : t = t' := by
  rw [ha.worldPe_iff hworld] at h h'
  rw [h] at h'
  cases h'
  rfl

theorem Built.worldPe_ok_iff (hworld : world.Static) (ha : Built world a) (t : ℕ) :
    (∃ w, a.worldPe t = .ok w) ↔ a.Names t := by
  induction ha generalizing t with
  | world =>
    simp only [worldPe, hworld.parentPeId_iff, Names]
    rw [exists_and_left]
    exact and_iff_left ⟨_, rfl⟩
  | @new parent a arch hparent harch hnew ih =>
    cases new_eq_some hnew
    rw [Names, ← ih]
    simp only [worldPe]
    constructor
    · rintro ⟨w, h⟩
      split at h
      · rename_i q hq
        obtain ⟨ht, rfl⟩ := harch.parentPeId_iff.mp hq
        exact ⟨ht, w, h⟩
      · cases h
    · rintro ⟨ht, w, h⟩
      refine ⟨w, ?_⟩
      rw [harch.parentPeId_iff.mpr ⟨ht, rfl⟩]
      exact h

theorem Names.lt {t : ℕ} (h : a.Names t) : t < a.numPes := by
  cases a with
  | root arch => exact h
  | sub parent arch => exact h.1

theorem MembersExist.names (ha : Built world a) (hmem : a.MembersExist)
    {t : ℕ} (ht : t < a.numPes) : a.Names t := by
  induction ha generalizing t with
  | world => exact ht
  | @new parent a arch hparent harch hnew ih =>
    cases new_eq_some hnew
    have htn : t < arch.numPes := ht
    exact ⟨htn, ih hmem.1 (hmem.2 t _ (harch.parentPeId_iff.mpr ⟨htn, rfl⟩))⟩

/-- The numbers of a team and the PEs of its members are in bijection. -/
theorem worldPe_iff_teamPe (hworld : world.Static) (ha : Built world a)
    (hmem : a.MembersExist) :
    (∀ t w, a.worldPe t = .ok w ↔ a.teamPe w = .ok t) ∧
      ∃ e : Fin a.numPes ≃ {w // ∃ t, a.teamPe w = .ok t}, ∀ t : Fin a.numPes,
        a.worldPe t = .ok (e t) := by
  have hiff := ha.worldPe_iff hworld
  refine ⟨hiff, ?_⟩
  have hok : ∀ t : Fin a.numPes, ∃ w, a.worldPe t = .ok w := fun t =>
    (ha.worldPe_ok_iff hworld t).mpr (hmem.names ha t.2)
  choose f hf using hok
  refine ⟨Equiv.ofBijective (fun t => ⟨f t, t, (hiff t (f t)).mp (hf t)⟩) ⟨?_, ?_⟩, hf⟩
  · intro t t' heq
    have hft : f t = f t' := congrArg Subtype.val heq
    exact Fin.ext (ha.worldPe_inj hworld (hf t) (hft ▸ hf t'))
  · rintro ⟨w, t, ht⟩
    have htw := (hiff t w).mpr ht
    have hlt := ((ha.worldPe_ok_iff hworld t).mp ⟨w, htw⟩).lt
    refine ⟨⟨t, hlt⟩, Subtype.ext ?_⟩
    have hfw := hf ⟨t, hlt⟩
    rw [htw] at hfw
    cases hfw
    rfl

/-- The PEs 1, 4 and 7 of ten, and of these the last two. -/
theorem worldPe_iff_teamPe_strided :
    ∃ a, Built (.globalArch 10) a ∧ a.worldPe 1 = .ok 7 ∧ a.teamPe 7 = .ok 1 ∧
      ∃ e : Fin a.numPes ≃ {w // ∃ t, a.teamPe w = .ok t}, ∀ t : Fin a.numPes,
        a.worldPe t = .ok (e t) := by
  have hparent : Built (.globalArch 10) (sub (root (.globalArch 10)) (StridedArch.new 1 3 3)) :=
    .new .world (.strided 1 3 3 (by decide)) rfl
  have ha : Built (.globalArch 10)
      (sub (sub (root (.globalArch 10)) (StridedArch.new 1 3 3)) (BlockedArch.new 1 2)) :=
    .new hparent (.blocked 1 2) rfl
  have hmem : (sub (sub (root (.globalArch 10)) (StridedArch.new 1 3 3))
      (BlockedArch.new 1 2)).MembersExist := by
    refine ⟨⟨trivial, ?_⟩, ?_⟩
    · intro t p h
      obtain ⟨ht, rfl⟩ := (LamellarArchEnum.Sub.strided 1 3 3 (by decide)).parentPeId_iff.mp h
      have ht3 : t < 3 := ht
      show 1 + t * 3 < 10
      omega
    · intro t p h
      obtain ⟨ht, rfl⟩ := (LamellarArchEnum.Sub.blocked 1 2).parentPeId_iff.mp h
      have ht2 : t < 2 := ht
      show 1 + t * 1 < 3
      omega
  obtain ⟨hiff, he⟩ := worldPe_iff_teamPe (.global 10) ha hmem
  exact ⟨_, ha, rfl, (hiff 1 7).mp rfl, he⟩

end LamellarArchRT

end Lamellar.Team
