import Mathlib.Data.List.Basic
import Mathlib.Algebra.Ring.Nat

/-!
# Tilings of an interval

`Tiles lo ranges hi`: the ranges are not empty, each begins where the one before it ends, and
together they are `[lo, hi)`.
-/

namespace Lamellar.Tiling

def Tiles : ℕ → List (ℕ × ℕ) → ℕ → Prop
  | lo, [], hi => lo = hi
  | lo, r :: rs, hi => r.1 = lo ∧ r.1 < r.2 ∧ Tiles r.2 rs hi

variable {lo mid hi : ℕ} {rs rs' : List (ℕ × ℕ)}

theorem Tiles.append (h : Tiles lo rs mid) (h' : Tiles mid rs' hi) : Tiles lo (rs ++ rs') hi := by
  induction rs generalizing lo with
  | nil =>
    rw [Tiles] at h
    rwa [h]
  | cons r rs ih => exact ⟨h.1, h.2.1, ih h.2.2⟩

theorem Tiles.snoc (h : Tiles lo rs mid) (hlt : mid < hi) : Tiles lo (rs ++ [(mid, hi)]) hi :=
  h.append ⟨rfl, hlt, rfl⟩

theorem Tiles.le (h : Tiles lo rs hi) : lo ≤ hi := by
  induction rs generalizing lo with
  | nil => exact Nat.le_of_eq h
  | cons r rs ih =>
    obtain ⟨rfl, hlt, hrest⟩ := h
    exact Nat.le_trans (Nat.le_of_lt hlt) (ih hrest)

theorem Tiles.eq_nil (h : Tiles lo rs lo) : rs = [] := by
  cases rs with
  | nil => rfl
  | cons r rs =>
    obtain ⟨rfl, hlt, hrest⟩ := h
    exact absurd hrest.le (Nat.not_le.mpr hlt)

/-- A tiling ends at one place. -/
theorem Tiles.unique (h : Tiles lo rs mid) (h' : Tiles lo rs hi) : mid = hi := by
  induction rs generalizing lo with
  | nil => exact h.symm.trans h'
  | cons r rs ih => exact ih h.2.2 h'.2.2

theorem Tiles.bounds (h : Tiles lo rs hi) {r : ℕ × ℕ} (hr : r ∈ rs) :
    lo ≤ r.1 ∧ r.1 < r.2 ∧ r.2 ≤ hi := by
  induction rs generalizing lo with
  | nil => cases hr
  | cons a rs ih =>
    obtain ⟨rfl, hlt, hrest⟩ := h
    rcases List.mem_cons.mp hr with rfl | hr
    · exact ⟨Nat.le_refl _, hlt, hrest.le⟩
    · have := ih hrest hr
      omega

theorem Tiles.pairwise (h : Tiles lo rs hi) : rs.Pairwise fun r r' => r.2 ≤ r'.1 := by
  induction rs generalizing lo with
  | nil => exact .nil
  | cons r rs ih => exact .cons (fun r' hr' => (h.2.2.bounds hr').1) (ih h.2.2)

theorem Tiles.exists_mem {i : ℕ} (h : Tiles lo rs hi) (hlo : lo ≤ i) (hhi : i < hi) :
    ∃ r ∈ rs, r.1 ≤ i ∧ i < r.2 := by
  induction rs generalizing lo with
  | nil =>
    rw [Tiles] at h
    omega
  | cons r rs ih =>
    obtain ⟨rfl, _, hrest⟩ := h
    rcases Nat.lt_or_ge i r.2 with hlt | hge
    · exact ⟨r, List.mem_cons_self, hlo, hlt⟩
    · obtain ⟨r', hr', hin⟩ := ih hrest hge
      exact ⟨r', List.mem_cons_of_mem r hr', hin⟩

/-- What depends on the positions alone may be collected range by range. -/
theorem Tiles.filterMap {β : Type} (h : Tiles lo rs hi) (f : ℕ → Option β) :
    (rs.flatMap fun r => (List.range' r.1 (r.2 - r.1)).filterMap f) =
      (List.range' lo (hi - lo)).filterMap f := by
  induction rs generalizing lo with
  | nil =>
    rw [Tiles] at h
    rw [h, Nat.sub_self]
    rfl
  | cons r rs ih =>
    obtain ⟨rfl, hlt, hrest⟩ := h
    have hle := hrest.le
    rw [List.flatMap_cons, ih hrest, ← List.filterMap_append]
    congr 1
    have happend := @List.range'_append_1 r.1 (r.2 - r.1) (hi - r.2)
    rw [show r.1 + (r.2 - r.1) = r.2 by omega,
      show r.2 - r.1 + (hi - r.2) = hi - r.1 by omega] at happend
    exact happend

/-- What the ranges cut out of a list is the list. -/
theorem Tiles.flatMap {α : Type} {l : List α} (h : Tiles lo rs l.length) :
    (rs.flatMap fun r => (l.drop r.1).take (r.2 - r.1)) = l.drop lo := by
  induction rs generalizing lo with
  | nil =>
    rw [Tiles] at h
    simp [h]
  | cons r rs ih =>
    obtain ⟨rfl, hlt, hrest⟩ := h
    have hdrop : (l.drop r.1).drop (r.2 - r.1) = l.drop r.2 := by
      rw [List.drop_drop, Nat.add_sub_cancel' (Nat.le_of_lt hlt)]
    rw [List.flatMap_cons, ih hrest, ← hdrop, List.take_append_drop]

end Lamellar.Tiling
