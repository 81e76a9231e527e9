import Mathlib.Data.List.Nodup
import Mathlib.Data.List.ReduceOption
import Mathlib.Data.List.TakeWhile
import Mathlib.Algebra.Ring.Nat
import Mathlib.Logic.Function.Iterate

/-!
# Teams of PEs: `src/lamellar_arch.rs`

A team numbers its PEs from zero. A `LamellarArchEnum` translates between these numbers and
those of the parent team, and a `LamellarArchRT` is the chain of translations up to the
world team, whose numbers name the PEs themselves.

`LamellarArchEnum.Lawful` says that the translations are inverse to each other and stay in
the parent team. It holds of the strided and blocked teams that fit into their parent; for a
user's own arch (`Dynamic`) it is what the trait asks for. The numbers are naturals here: in a
team that fits into its parent, no sum leaves the words.
-/

namespace Lamellar.Team

structure IdError where
  parentPe : ℕ
  teamPe : ℕ
  deriving DecidableEq

inductive LamellarArchEnum where
  | globalArch (numPes : ℕ)
  | stridedArch (numPes startPe endPe stride : ℕ)
  | blockedArch (numPes startPe endPe : ℕ)
  | dynamic (numPes startPe endPe : ℕ) (parentPeId teamPeId : ℕ → Except IdError ℕ)

/-- `StridedArch::new` -/
def StridedArch.new (startPe stride numTeamPes : ℕ) : LamellarArchEnum :=
  .stridedArch numTeamPes startPe ((· + stride)^[numTeamPes - 1] startPe) stride

/-- `BlockedArch::new` -/
def BlockedArch.new (startPe numTeamPes : ℕ) : LamellarArchEnum :=
  .blockedArch numTeamPes startPe (startPe + numTeamPes - 1)

namespace LamellarArchEnum

def numPes : LamellarArchEnum → ℕ
  | globalArch numPes | stridedArch numPes .. | blockedArch numPes .. | dynamic numPes .. =>
    numPes

def parentPeId (teamPe : ℕ) : LamellarArchEnum → Except IdError ℕ
  | globalArch numPes => if teamPe < numPes then .ok teamPe else .error ⟨teamPe, teamPe⟩
  | stridedArch numPes startPe endPe stride =>
    let parentPe := startPe + teamPe * stride
    if parentPe ≥ startPe ∧ parentPe ≤ endPe ∧ teamPe < numPes then .ok parentPe
    else .error ⟨parentPe, teamPe⟩
  | blockedArch numPes startPe endPe =>
    let parentPe := startPe + teamPe
    if parentPe ≥ startPe ∧ parentPe ≤ endPe ∧ teamPe < numPes then .ok parentPe
    else .error ⟨parentPe, teamPe⟩
  | dynamic _ _ _ parentPeId _ => parentPeId teamPe

/-- The source panics for a stride of zero; `Lawful` leaves that out. -/
def teamPeId (parentPe : ℕ) : LamellarArchEnum → Except IdError ℕ
  | globalArch numPes =>
    if parentPe < numPes then .ok parentPe else .error ⟨parentPe, parentPe⟩
  | stridedArch numPes startPe endPe stride =>
    if parentPe ≥ startPe ∧ parentPe ≤ endPe ∧ (parentPe - startPe) % stride = 0 then
      let teamPe := (parentPe - startPe) / stride
      if teamPe < numPes then .ok teamPe else .error ⟨parentPe, teamPe⟩
    else .error ⟨parentPe, 0⟩
  | blockedArch numPes startPe endPe =>
    if parentPe ≥ startPe ∧ parentPe ≤ endPe then
      let teamPe := parentPe - startPe
      if teamPe < numPes then .ok teamPe else .error ⟨parentPe, teamPe⟩
    else .error ⟨parentPe, 0⟩
  | dynamic _ _ _ _ teamPeId => teamPeId parentPe

/-- The numbers below `numPes` are those of distinct PEs of a parent team of `n` PEs. -/
structure Lawful (a : LamellarArchEnum) (n : ℕ) : Prop where
  numPes_pos : 0 < a.numPes
  parentPeId_ok : ∀ t < a.numPes, ∃ p < n, a.parentPeId t = .ok p ∧ a.teamPeId p = .ok t
  teamPeId_ok : ∀ p t, a.teamPeId p = .ok t → t < a.numPes ∧ a.parentPeId t = .ok p

theorem globalArch_lawful {n : ℕ} (hn : 0 < n) : (globalArch n).Lawful n where
  numPes_pos := hn
  parentPeId_ok t ht := ⟨t, ht, if_pos ht, if_pos ht⟩
  teamPeId_ok p t h := by
    simp only [teamPeId] at h
    split at h
    · rename_i hp
      cases h
      exact ⟨hp, if_pos hp⟩
    · cases h

theorem blockedArch_lawful {startPe num n : ℕ} (hnum : 0 < num) (hfit : startPe + num ≤ n) :
    (BlockedArch.new startPe num).Lawful n where
  numPes_pos := hnum
  parentPeId_ok t ht := by
    have htn : t < num := ht
    refine ⟨startPe + t, by omega, ?_, ?_⟩
    · exact if_pos ⟨by omega, by omega, htn⟩
    · simp only [BlockedArch.new, teamPeId]
      rw [if_pos ⟨by omega, by omega⟩, if_pos (by omega), Nat.add_sub_cancel_left]
  teamPeId_ok p t h := by
    simp only [BlockedArch.new, teamPeId] at h
    split at h
    · rename_i hp
      split at h
      · rename_i hlt
        cases h
        refine ⟨hlt, ?_⟩
        simp only [BlockedArch.new, parentPeId]
        rw [if_pos ⟨by omega, by omega, hlt⟩, Nat.add_sub_cancel' hp.1]
      · cases h
    · cases h

theorem strided_endPe (startPe stride num : ℕ) :
    (· + stride)^[num] startPe = startPe + num * stride := by
  induction num with
  | zero => simp
  | succ num ih =>
    rw [Function.iterate_succ_apply', ih, Nat.succ_mul, Nat.add_assoc]

theorem stridedArch_lawful {startPe stride num n : ℕ} (hnum : 0 < num) (hstride : 0 < stride)
    (hfit : startPe + (num - 1) * stride < n) : (StridedArch.new startPe stride num).Lawful n where
  numPes_pos := hnum
  parentPeId_ok t ht := by
    have htn : t < num := ht
    have hle : t * stride ≤ (num - 1) * stride := Nat.mul_le_mul_right _ (by omega)
    refine ⟨startPe + t * stride, by omega, ?_, ?_⟩
    · simp only [StridedArch.new, parentPeId, strided_endPe]
      rw [if_pos ⟨by omega, by omega, htn⟩]
    · simp only [StridedArch.new, teamPeId, strided_endPe, Nat.add_sub_cancel_left,
        Nat.mul_mod_left, Nat.mul_div_cancel _ hstride]
      rw [if_pos ⟨by omega, by omega, trivial⟩, if_pos htn]
  teamPeId_ok p t h := by
    simp only [StridedArch.new, teamPeId, strided_endPe] at h
    split at h
    · rename_i hp
      split at h
      · rename_i hlt
        cases h
        have hmul : (p - startPe) / stride * stride = p - startPe :=
          Nat.div_mul_cancel (Nat.dvd_of_mod_eq_zero hp.2.2)
        refine ⟨hlt, ?_⟩
        simp only [StridedArch.new, parentPeId, strided_endPe, hmul]
        rw [if_pos ⟨by omega, by omega, hlt⟩, Nat.add_sub_cancel' hp.1]
      · cases h
    · cases h

end LamellarArchEnum

/-! ## Chains of teams -/

/-- A team and its parents, up to the world. -/
inductive LamellarArchRT where
  | root (arch : LamellarArchEnum)
  | sub (parent : LamellarArchRT) (arch : LamellarArchEnum)

namespace LamellarArchRT

def numPes : LamellarArchRT → ℕ
  | root arch | sub _ arch => arch.numPes

def worldPe : LamellarArchRT → ℕ → Except IdError ℕ
  | root arch, teamPe => arch.parentPeId teamPe
  | sub parent arch, teamPe =>
    match arch.parentPeId teamPe with
    | .ok parentPe => parent.worldPe parentPe
    | .error e => .error e

def teamPe : LamellarArchRT → ℕ → Except IdError ℕ
  | root arch, worldPe => arch.teamPeId worldPe
  | sub parent arch, worldPe =>
    match parent.teamPe worldPe with
    | .ok parentPe => arch.teamPeId parentPe
    | .error e => .error e

/-- `team_iter` ends at the first number without a PE. -/
def teamIter (a : LamellarArchRT) : List ℕ :=
  (((List.range a.numPes).map fun t => (a.worldPe t).toOption).takeWhile Option.isSome).reduceOption

/-- Every team of the chain is within its parent, and the first within the `n` PEs. -/
def WellFormed (n : ℕ) : LamellarArchRT → Prop
  | root arch => arch.Lawful n
  | sub parent arch => parent.WellFormed n ∧ arch.Lawful parent.numPes

variable {n : ℕ} {a : LamellarArchRT}

theorem WellFormed.numPes_pos (ha : a.WellFormed n) : 0 < a.numPes := by
  cases a with
  | root arch => exact LamellarArchEnum.Lawful.numPes_pos ha
  | sub parent arch => exact ha.2.numPes_pos

theorem WellFormed.worldPe_ok (ha : a.WellFormed n) {t : ℕ} (ht : t < a.numPes) :
    ∃ p < n, a.worldPe t = .ok p ∧ a.teamPe p = .ok t := by
  induction a generalizing t with
  | root arch => exact LamellarArchEnum.Lawful.parentPeId_ok ha t ht
  | sub parent arch ih =>
    obtain ⟨q, hq, hparent, hteam⟩ := ha.2.parentPeId_ok t ht
    obtain ⟨p, hp, hworld, hback⟩ := ih ha.1 hq
    refine ⟨p, hp, ?_, ?_⟩
    · rw [worldPe, hparent]
      exact hworld
    · rw [teamPe, hback]
      exact hteam

theorem WellFormed.teamPe_ok (ha : a.WellFormed n) {p t : ℕ} (h : a.teamPe p = .ok t) :
    t < a.numPes ∧ a.worldPe t = .ok p := by
  induction a generalizing t with
  | root arch => exact LamellarArchEnum.Lawful.teamPeId_ok ha p t h
  | sub parent arch ih =>
    rw [teamPe] at h
    split at h
    · rename_i q hq
      obtain ⟨ht, hparent⟩ := ha.2.teamPeId_ok q t h
      obtain ⟨-, hworld⟩ := ih ha.1 hq
      refine ⟨ht, ?_⟩
      rw [worldPe, hparent]
      exact hworld
    · cases h

theorem WellFormed.teamPe_worldPe (ha : a.WellFormed n) {p t : ℕ} (h : a.worldPe t = .ok p)
    (ht : t < a.numPes) : a.teamPe p = .ok t := by
  obtain ⟨p', -, hworld, hteam⟩ := ha.worldPe_ok ht
  rw [h] at hworld
  cases hworld
  exact hteam

theorem WellFormed.teamPe_lt (ha : a.WellFormed n) {p t : ℕ} (h : a.teamPe p = .ok t) :
    p < n := by
  obtain ⟨ht, hworld⟩ := ha.teamPe_ok h
  obtain ⟨p', hp', hworld', -⟩ := ha.worldPe_ok ht
  rw [hworld] at hworld'
  cases hworld'
  exact hp'

/-! ## The PEs of a team -/

/-- If every number has a PE, `team_iter` passes through all of them. -/
theorem teamIter_eq (ha : ∀ t < a.numPes, ∃ p, a.worldPe t = .ok p) :
    a.teamIter.map some = (List.range a.numPes).map fun t => (a.worldPe t).toOption := by
  have hsome : ∀ o ∈ (List.range a.numPes).map fun t => (a.worldPe t).toOption,
      o.isSome = true := by
    intro o ho
    obtain ⟨t, ht, rfl⟩ := List.mem_map.mp ho
    obtain ⟨p, hworld⟩ := ha t (List.mem_range.mp ht)
    rw [hworld]
    rfl
  have hreduce : ∀ os : List (Option ℕ), (∀ o ∈ os, o.isSome = true) →
      os.reduceOption.map some = os := by
    intro os hos
    induction os with
    | nil => rfl
    | cons o os ih =>
      obtain ⟨p, rfl⟩ := Option.isSome_iff_exists.mp (hos o List.mem_cons_self)
      rw [List.reduceOption_cons_of_some, List.map_cons,
        ih fun o ho => hos o (List.mem_cons_of_mem _ ho)]
  rw [teamIter, List.takeWhile_eq_self_iff.mpr hsome, hreduce _ hsome]

theorem teamIter_length (ha : ∀ t < a.numPes, ∃ p, a.worldPe t = .ok p) :
    a.teamIter.length = a.numPes := by
  have h := congrArg List.length (teamIter_eq ha)
  simpa using h

theorem teamIter_nodup (ha : ∀ t < a.numPes, ∃ p, a.worldPe t = .ok p)
    (hinj : ∀ t < a.numPes, ∀ t' < a.numPes, ∀ p, a.worldPe t = .ok p →
      a.worldPe t' = .ok p → t = t') : a.teamIter.Nodup := by
  have hmap : (a.teamIter.map some).Nodup := by
    rw [teamIter_eq ha]
    refine List.Nodup.map_on ?_ List.nodup_range
    intro t ht t' ht' heq
    have htn := List.mem_range.mp ht
    have htn' := List.mem_range.mp ht'
    obtain ⟨p, hworld⟩ := ha t htn
    obtain ⟨p', hworld'⟩ := ha t' htn'
    rw [hworld, hworld'] at heq
    cases heq
    exact hinj t htn t' htn' p hworld hworld'
  exact List.Nodup.of_map _ hmap

theorem WellFormed.worldPe_isOk (ha : a.WellFormed n) :
    ∀ t < a.numPes, ∃ p, a.worldPe t = .ok p := by
  intro t ht
  obtain ⟨p, -, hworld, -⟩ := ha.worldPe_ok ht
  exact ⟨p, hworld⟩

theorem WellFormed.teamIter_length (ha : a.WellFormed n) : a.teamIter.length = a.numPes :=
  LamellarArchRT.teamIter_length ha.worldPe_isOk

theorem WellFormed.mem_teamIter (ha : a.WellFormed n) {p : ℕ} :
    p ∈ a.teamIter ↔ ∃ t, a.teamPe p = .ok t := by
  have hmem : p ∈ a.teamIter ↔ some p ∈ a.teamIter.map some := by simp
  rw [hmem, teamIter_eq ha.worldPe_isOk, List.mem_map]
  constructor
  · rintro ⟨t, ht, hp⟩
    have ht' := List.mem_range.mp ht
    obtain ⟨q, -, hworld, hteam⟩ := ha.worldPe_ok ht'
    rw [hworld] at hp
    cases hp
    exact ⟨t, hteam⟩
  · rintro ⟨t, ht⟩
    obtain ⟨hlt, hworld⟩ := ha.teamPe_ok ht
    refine ⟨t, List.mem_range.mpr hlt, ?_⟩
    rw [hworld]
    rfl

theorem WellFormed.teamIter_nodup (ha : a.WellFormed n) : a.teamIter.Nodup := by
  refine LamellarArchRT.teamIter_nodup ha.worldPe_isOk ?_
  intro t ht t' ht' p hworld hworld'
  have hteam := ha.teamPe_worldPe hworld ht
  rw [ha.teamPe_worldPe hworld' ht'] at hteam
  cases hteam
  rfl

end LamellarArchRT

end Lamellar.Team
