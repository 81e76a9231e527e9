import Mathlib.Algebra.BigOperators.Group.List.Basic
import Mathlib.Data.List.GetD
import Lamellar.Lib.Tiling
import Lamellar.TaskGroup.Model

/-!
# The splitting loop of `exec`

The loop goes from boundary to boundary: the next one comes behind the message that takes the
range past `req_size`, or before the one that would take it to the hard limit. A message that
reaches the hard limit on its own is never passed, and the loop sends empty ranges without an
end. Otherwise it ends, and its ranges are not empty and consecutive; but messages behind the
last boundary that take no bytes are not sent. `splits_iff` says that nothing else goes wrong.
-/

namespace Lamellar.TaskGroup

open Tiling While

variable {sizes : List ℕ} {limit : ℕ}

/-- What the messages from `c` on, before `k`, take. -/
def weight (sizes : List ℕ) (c k : ℕ) : ℕ := ((sizes.take k).drop c).sum

theorem weight_self (c : ℕ) : weight sizes c c = 0 := by
  rw [weight, List.drop_eq_nil_of_le (List.length_take_le _ _)]
  rfl

theorem weight_succ {c k : ℕ} (hc : c ≤ k) (hk : k < sizes.length) :
    weight sizes c (k + 1) = weight sizes c k + sizes.getD k 0 := by
  have hlen : (sizes.take k).length = k := List.length_take_of_le (Nat.le_of_lt hk)
  rw [weight, List.take_add_one, List.drop_append_of_le_length (by omega), List.sum_append,
    List.getElem?_eq_getElem hk, List.getD_eq_getElem _ _ hk]
  simp [weight]

/-- Where the messages may be cut -/
inductive Boundary (sizes : List ℕ) (limit : ℕ) : ℕ → Prop where
  | start : Boundary sizes limit 0
  | above {c e : ℕ} (prior : Boundary sizes limit c) (hc : c ≤ e) (he : e < sizes.length)
      (hfits : weight sizes c e ≤ limit) (hover : limit < weight sizes c (e + 1))
      (hhard : weight sizes c (e + 1) < hardLimit) : Boundary sizes limit (e + 1)
  | full {c e : ℕ} (prior : Boundary sizes limit c) (hc : c ≤ e) (he : e < sizes.length)
      (hfits : weight sizes c e ≤ limit) (hhard : hardLimit ≤ weight sizes c (e + 1)) :
      Boundary sizes limit e

/-! ## One turn -/

namespace Splitting

variable {s : Splitting} {amSize : ℕ}

theorem turn_fits (hhard : s.tempSize + amSize < hardLimit) (hfits : s.tempSize + amSize ≤ limit) :
    s.turn limit amSize = ⟨s.i + 1, s.startI, s.tempSize + amSize, s.launched⟩ := by
  have hsend : ¬ s.tempSize + amSize > limit := Nat.not_lt.mpr hfits
  simp [turn, launchIf, hhard, hsend]

theorem turn_over (hhard : s.tempSize + amSize < hardLimit) (hover : limit < s.tempSize + amSize) :
    s.turn limit amSize = ⟨s.i + 1, s.i + 1, 0, s.launched ++ [(s.startI, s.i + 1)]⟩ := by
  simp [turn, launchIf, hhard, hover]

theorem turn_full (hhard : hardLimit ≤ s.tempSize + amSize) :
    s.turn limit amSize = ⟨s.i, s.i, 0, s.launched ++ [(s.startI, s.i)]⟩ := by
  simp [turn, launchIf, Nat.not_lt.mpr hhard]

structure Inv (sizes : List ℕ) (limit : ℕ) (s : Splitting) : Prop where
  boundary : Boundary sizes limit s.startI
  start_le : s.startI ≤ s.i
  i_le : s.i ≤ sizes.length
  temp : s.tempSize = weight sizes s.startI s.i
  fits : s.tempSize ≤ limit
  tiles : Tiles 0 s.launched s.startI

theorem Inv.start : Inv sizes limit .start where
  boundary := .start
  start_le := Nat.le_refl _
  i_le := Nat.zero_le _
  temp := (weight_self 0).symm
  fits := Nat.zero_le _
  tiles := rfl

/-- At a boundary, with the ranges before it launched -/
theorem Inv.at {c : ℕ} {launched : List (ℕ × ℕ)} (hc : Boundary sizes limit c)
    (hle : c ≤ sizes.length) (htiles : Tiles 0 launched c) :
    Inv sizes limit ⟨c, c, 0, launched⟩ where
  boundary := hc
  start_le := Nat.le_refl _
  i_le := hle
  temp := (weight_self c).symm
  fits := Nat.zero_le _
  tiles := htiles

theorem Inv.turn (h : s.Inv sizes limit) (hlt : s.i < sizes.length)
    (hhard : sizes.getD s.i 0 < hardLimit) : (s.turn limit (sizes.getD s.i 0)).Inv sizes limit := by
  have hsum := weight_succ h.start_le hlt
  have hfits := h.fits
  rw [← h.temp] at hsum
  rw [h.temp] at hfits
  by_cases hsize : s.tempSize + sizes.getD s.i 0 < hardLimit
  · by_cases hover : limit < s.tempSize + sizes.getD s.i 0
    · rw [turn_over hsize hover]
      rw [← hsum] at hsize hover
      exact .at (.above h.boundary h.start_le hlt hfits hover hsize) hlt
        (h.tiles.snoc (Nat.lt_succ_of_le h.start_le))
    · rw [turn_fits hsize (Nat.not_lt.mp hover)]
      exact {
        boundary := h.boundary
        start_le := Nat.le_succ_of_le h.start_le
        i_le := hlt
        temp := hsum.symm
        fits := Nat.not_lt.mp hover
        tiles := h.tiles }
  · have hfull := Nat.not_lt.mp hsize
    rw [turn_full hfull]
    -- The message fits on its own, so the range before it is not empty.
    have hne : s.startI ≠ s.i := by
      intro heq
      rw [h.temp, heq, weight_self] at hfull
      omega
    rw [← hsum] at hfull
    exact .at (.full h.boundary h.start_le hlt hfits hfull) (Nat.le_of_lt hlt)
      (h.tiles.snoc (Nat.lt_of_le_of_ne h.start_le hne))

/-- What a turn leaves to do -/
def toDo (sizes : List ℕ) (s : Splitting) : ℕ :=
  2 * (sizes.length - s.i) + if s.tempSize > 0 then 1 else 0

theorem turn_toDo (hlt : s.i < sizes.length) (hhard : sizes.getD s.i 0 < hardLimit) :
    (s.turn limit (sizes.getD s.i 0)).toDo sizes < s.toDo sizes := by
  by_cases hsize : s.tempSize + sizes.getD s.i 0 < hardLimit
  · by_cases hover : limit < s.tempSize + sizes.getD s.i 0
    · rw [turn_over hsize hover]
      simp only [toDo]
      split <;> split <;> omega
    · rw [turn_fits hsize (Nat.not_lt.mp hover)]
      simp only [toDo]
      split <;> split <;> omega
  · rw [turn_full (Nat.not_lt.mp hsize)]
    have htemp : s.tempSize > 0 := by omega
    simp only [toDo, if_pos htemp, if_neg (Nat.lt_irrefl 0)]
    omega

end Splitting

/-! ## The loop -/

/-- The condition and the body of the loop -/
abbrev more (sizes : List ℕ) (s : Splitting) : Bool := s.i < sizes.length

abbrev next (sizes : List ℕ) (limit : ℕ) (s : Splitting) : Splitting :=
  s.turn limit (sizes.getD s.i 0)

theorem getD_lt (h : ∀ a ∈ sizes, a < hardLimit) {k : ℕ} (hk : k < sizes.length) :
    sizes.getD k 0 < hardLimit := by
  rw [List.getD_eq_getElem _ _ hk]
  exact h _ (List.getElem_mem hk)

theorem splitLoop_inv (h : ∀ a ∈ sizes, a < hardLimit) {fuel : ℕ} {s : Splitting}
    (hend : splitLoop sizes limit fuel .start = some s) :
    s.Inv sizes limit ∧ s.i = sizes.length := by
  obtain ⟨hinv, hnot⟩ := loop_inv (P := Splitting.Inv sizes limit)
    (fun t ht hmore => by
      have hlt := of_decide_eq_true hmore
      exact ht.turn hlt (getD_lt h hlt)) .start hend
  exact ⟨hinv, Nat.le_antisymm hinv.i_le (Nat.not_lt.mp (of_decide_eq_false hnot))⟩

theorem exists_splitLoop (h : ∀ a ∈ sizes, a < hardLimit) (limit : ℕ) :
    ∃ fuel s, splitLoop sizes limit fuel .start = some s :=
  exists_loop (Splitting.toDo sizes) (fun s hmore => by
    have hlt : s.i < sizes.length := of_decide_eq_true hmore
    exact Splitting.turn_toDo hlt (getD_lt h hlt)) .start

/-- A message that reaches the hard limit is never passed. -/
theorem splitLoop_eq_none {a : ℕ} (ha : a ∈ sizes) (hhard : hardLimit ≤ a) (limit fuel : ℕ) :
    splitLoop sizes limit fuel .start = none := by
  obtain ⟨k, hk, rfl⟩ := List.mem_iff_getElem.mp ha
  refine loop_eq_none (P := fun s : Splitting => s.i ≤ k)
    (fun s hs => decide_eq_true (Nat.lt_of_le_of_lt hs hk)) (fun s hs => ?_) (Nat.zero_le k) fuel
  by_cases hsize : s.tempSize + sizes.getD s.i 0 < hardLimit
  · have hne : s.i ≠ k := by
      intro heq
      rw [heq, List.getD_eq_getElem _ _ hk] at hsize
      omega
    by_cases hover : limit < s.tempSize + sizes.getD s.i 0
    · rw [Splitting.turn_over hsize hover]
      exact Nat.lt_of_le_of_ne hs hne
    · rw [Splitting.turn_fits hsize (Nat.not_lt.mp hover)]
      exact Nat.lt_of_le_of_ne hs hne
  · rw [Splitting.turn_full (Nat.not_lt.mp hsize)]
    exact hs

/-- From a boundary on, the range grows as long as it is within `limit`. -/
theorem turns_grow (hlimit : limit < hardLimit) {c e : ℕ} (hc : c ≤ e) (he : e ≤ sizes.length)
    (hfits : weight sizes c e ≤ limit) (launched : List (ℕ × ℕ)) :
    Turns (more sizes) (next sizes limit) ⟨c, c, 0, launched⟩
      ⟨e, c, weight sizes c e, launched⟩ := by
  induction e, hc using Nat.le_induction with
  | base =>
    rw [weight_self]
    exact .refl
  | succ e hc ih =>
    have hsum := weight_succ hc he
    rw [hsum] at hfits ⊢
    refine (ih (Nat.le_of_lt he) (Nat.le_trans (Nat.le_add_right _ _) hfits)).tail
      ⟨decide_eq_true he, ?_⟩
    exact (Splitting.turn_fits (s := ⟨e, c, weight sizes c e, launched⟩)
      (Nat.lt_of_le_of_lt hfits hlimit) hfits).symm

/-- The loop comes by every boundary. -/
theorem Boundary.turns (hlimit : limit < hardLimit) {c : ℕ} (h : Boundary sizes limit c) :
    ∃ launched, Turns (more sizes) (next sizes limit) .start ⟨c, c, 0, launched⟩ := by
  induction h with
  | start => exact ⟨[], .refl⟩
  | @above c e prior hc he hfits hover hhard ih =>
    obtain ⟨launched, hturns⟩ := ih
    rw [weight_succ hc he] at hover hhard
    have hturn := Splitting.turn_over (s := ⟨e, c, weight sizes c e, launched⟩) hhard hover
    exact ⟨_, (hturns.trans (turns_grow hlimit hc (Nat.le_of_lt he) hfits launched)).tail
      ⟨decide_eq_true he, hturn.symm⟩⟩
  | @full c e prior hc he hfits hhard ih =>
    obtain ⟨launched, hturns⟩ := ih
    rw [weight_succ hc he] at hhard
    have hturn : next sizes limit ⟨e, c, weight sizes c e, launched⟩ = _ :=
      Splitting.turn_full hhard
    exact ⟨_, (hturns.trans (turns_grow hlimit hc (Nat.le_of_lt he) hfits launched)).tail
      ⟨decide_eq_true he, hturn.symm⟩⟩

/-- Behind a boundary, messages that take no bytes are not sent. -/
theorem Boundary.finish_eq (hlimit : limit < hardLimit) {c : ℕ} (h : Boundary sizes limit c)
    (hc : c ≤ sizes.length) (hempty : weight sizes c sizes.length = 0) {fuel : ℕ} {s : Splitting}
    (hend : splitLoop sizes limit fuel .start = some s) : s.startI = c ∧ s.tempSize = 0 := by
  obtain ⟨launched, hturns⟩ := h.turns hlimit
  have hrest := turns_grow hlimit hc (Nat.le_refl _) (hempty ▸ Nat.zero_le limit) launched
  have heq := Turns.loop_eq (hturns.trans hrest) (decide_eq_false (Nat.lt_irrefl _)) hend
  rw [heq]
  exact ⟨rfl, hempty⟩

/-- No message reaches the hard limit, and no boundary is followed by messages without bytes
only. -/
structure Splits (sizes : List ℕ) (limit : ℕ) : Prop where
  small : ∀ a ∈ sizes, a < hardLimit
  tail : ∀ c < sizes.length, Boundary sizes limit c → 0 < weight sizes c sizes.length

theorem Splitting.Inv.tiles_finish_iff {s : Splitting} (h : s.Inv sizes limit)
    (hi : s.i = sizes.length) :
    Tiles 0 s.finish sizes.length ↔ s.tempSize = 0 → s.startI = sizes.length := by
  rw [Splitting.finish]
  split
  · rename_i hpos
    refine iff_of_true ?_ fun hzero => absurd hzero (Nat.ne_of_gt hpos)
    have hne : s.startI ≠ s.i := by
      intro heq
      rw [h.temp, heq, weight_self] at hpos
      exact Nat.lt_irrefl 0 hpos
    rw [← hi]
    exact h.tiles.snoc (Nat.lt_of_le_of_ne h.start_le hne)
  · rename_i hpos
    constructor
    · exact fun htiles _ => h.tiles.unique htiles
    · intro hstart
      rw [← hstart (Nat.eq_zero_of_not_pos hpos)]
      exact h.tiles

theorem splits_iff (hlimit : limit < hardLimit) :
    (∃ fuel s, splitLoop sizes limit fuel .start = some s ∧ Tiles 0 s.finish sizes.length) ↔
      Splits sizes limit := by
  constructor
  · rintro ⟨fuel, s, hend, htiles⟩
    have hsmall : ∀ a ∈ sizes, a < hardLimit := by
      intro a ha
      refine Nat.lt_of_not_le fun hhard => ?_
      rw [splitLoop_eq_none ha hhard] at hend
      cases hend
    obtain ⟨hinv, hi⟩ := splitLoop_inv hsmall hend
    refine ⟨hsmall, fun c hc hboundary => Nat.pos_of_ne_zero fun hempty => ?_⟩
    obtain ⟨hstart, hzero⟩ := hboundary.finish_eq hlimit (Nat.le_of_lt hc) hempty hend
    have := (hinv.tiles_finish_iff hi).mp htiles hzero
    omega
  · rintro ⟨hsmall, htail⟩
    obtain ⟨fuel, s, hend⟩ := exists_splitLoop hsmall limit
    obtain ⟨hinv, hi⟩ := splitLoop_inv hsmall hend
    refine ⟨fuel, s, hend, (hinv.tiles_finish_iff hi).mpr fun hzero => ?_⟩
    refine Classical.byContradiction fun hne => ?_
    have hstart := hinv.start_le
    have hpos := htail s.startI (by omega) hinv.boundary
    rw [← hi, ← hinv.temp] at hpos
    omega

theorem reqSize_lt (size : ℕ) : reqSize size < hardLimit := by
  have hsplit : reqSize size < splitSize :=
    Nat.div_lt_of_lt_mul (Nat.mul_comm _ _ ▸ Nat.lt_mul_div_succ size (by decide))
  exact Nat.lt_trans hsplit (by decide)

end Lamellar.TaskGroup
