import Lamellar.Array.IndexMap
import Lamellar.Memregion.Model

/-!
# Views of views: `sub_array`

`sub_array` checks that a range ends in the view, and not that it starts before its end: in a
build without overflow checks the length of such a range wraps around, and the view that is
returned reaches out of its parent (`insideParent_iff`). The offsets of nested views add up, so
that a view of a view is the view that the sums describe, unless the first range is such a one
and the sums are not in the parent (`composes_iff`).
-/

namespace Lamellar.Array.UnsafeArrayInner

open Memregion (Bound)
open Memregion.View (start)

variable {a b : UnsafeArrayInner} {build : Build} {len : ℕ}

/-- The end of a range, exclusive -/
def stop (build : Build) (a : UnsafeArrayInner) : Bound → Option ℕ
  | .included idx => build.result (idx + 1)
  | .excluded idx => some idx
  | .unbounded => some a.size

/-- `sub_array`, or none where it panics. -/
def subArray (build : Build) (a : UnsafeArrayInner) (range : Bound × Bound) :
    Option UnsafeArrayInner := do
  let start ← start build range.1
  let stop ← a.stop build range.2
  if a.size < stop then none
  else
    let offset ← build.result (a.offset + start)
    let size ← build.sub stop start
    some { a with offset, size }

/-- `b` is a view of a part of `a`. -/
structure Inside (b a : UnsafeArrayInner) : Prop where
  same : b = { a with offset := b.offset, size := b.size }
  offset_le : a.offset ≤ b.offset
  end_le : b.offset + b.size ≤ a.offset + a.size

theorem Inside.wellFormed (h : b.Inside a) (ha : a.WellFormed len) : b.WellFormed len := by
  rw [h.same]
  exact ⟨ha.pos, ha.le, ha.elemPerPe, Nat.le_trans h.end_le ha.fits⟩

/-- The elements of a view of a part are elements of the parent. -/
theorem Inside.physicalSlot (h : b.Inside a) (ha : a.WellFormed len) {i : ℕ} (hi : i < b.size) :
    b.physicalSlot i = a.physicalSlot (b.offset - a.offset + i) := by
  have hle := h.offset_le
  have hend := h.end_le
  have hsame := h.same
  rw [physicalSlot_eq_home (h.wellFormed ha) hi, physicalSlot_eq_home ha (by omega), hsame]
  congr 2
  dsimp only
  omega

/-! ## What `sub_array` returns -/

theorem subArray_eq_some {range : Bound × Bound} : a.subArray build range = some b ↔
    ∃ first last offset size, start build range.1 = some first ∧
      a.stop build range.2 = some last ∧ last ≤ a.size ∧
      build.result (a.offset + first) = some offset ∧ build.sub last first = some size ∧
      { a with offset, size } = b := by
  simp only [subArray, Option.bind_eq_bind, Option.bind_eq_some_iff]
  constructor
  · rintro ⟨first, hfirst, last, hlast, hb⟩
    split at hb
    · cases hb
    · obtain ⟨offset, hoffset, hb⟩ := Option.bind_eq_some_iff.mp hb
      obtain ⟨size, hsize, hb⟩ := Option.bind_eq_some_iff.mp hb
      exact ⟨first, last, offset, size, hfirst, hlast, by omega, hoffset, hsize,
        Option.some.inj hb⟩
  · rintro ⟨first, last, offset, size, hfirst, hlast, hle, hoffset, hsize, rfl⟩
    refine ⟨first, hfirst, last, hlast, ?_⟩
    rw [if_neg (by omega), hoffset, hsize]
    rfl

/-- The range starts before its end, or `sub_array` panics at the end. -/
def Ordered (build : Build) (a : UnsafeArrayInner) (range : Bound × Bound) : Prop :=
  ∀ first last, start build range.1 = some first → a.stop build range.2 = some last →
    last ≤ a.size → first ≤ last

/-- `sub_array` panics, or returns a view of a part. -/
def InsideParent (build : Build) (a : UnsafeArrayInner) (range : Bound × Bound) : Prop :=
  ∀ b, a.subArray build range = some b → b.Inside a

theorem inside_of_ordered (ha : a.offset + a.size < word) {first last offset size : ℕ}
    (hle : first ≤ last) (hlast : last ≤ a.size) (hoffset : build.result (a.offset + first) =
      some offset) (hsize : build.sub last first = some size) :
    offset = a.offset + first ∧ size = last - first := by
  rw [Build.result_of_lt _ (by omega)] at hoffset
  rw [Build.sub_of_le _ hle] at hsize
  exact ⟨(Option.some.inj hoffset).symm, (Option.some.inj hsize).symm⟩

/-- The values of a bound are words. -/
def BoundFits : Bound → Prop
  | .included idx | .excluded idx => idx < word
  | .unbounded => True

theorem start_lt {bound : Bound} (hfits : BoundFits bound) {first : ℕ}
    (h : start build bound = some first) : first < word := by
  cases bound with
  | included idx =>
    cases h
    exact hfits
  | excluded idx => exact Build.result_lt h
  | unbounded =>
    cases h
    decide

theorem insideParent_iff (ha : a.offset + a.size < word) {range : Bound × Bound}
    (hfits : BoundFits range.1) :
    InsideParent build a range ↔ build = .checked ∨ Ordered build a range := by
  constructor
  · intro h
    cases build with
    | checked => exact Or.inl rfl
    | wrapping =>
      refine Or.inr fun first last hfirst hlast hle => Nat.le_of_not_lt fun hlt => ?_
      have hword := start_lt hfits hfirst
      have hinside := h _ (subArray_eq_some.mpr ⟨first, last, _, _, hfirst, hlast, hle,
        Build.wrapping_result _, Build.wrapping_sub_of_lt hlt, rfl⟩)
      have hoffset := hinside.offset_le
      have hend := hinside.end_le
      dsimp only at hoffset hend
      rcases Nat.lt_or_ge (a.offset + first) word with hsum | hsum
      · rw [Nat.mod_eq_of_lt hsum] at hend
        omega
      · rw [Nat.mod_eq_sub_mod hsum, Nat.mod_eq_of_lt (by omega)] at hoffset
        omega
  · intro h b hb
    obtain ⟨first, last, offset, size, hfirst, hlast, hle, hoffset, hsize, rfl⟩ :=
      subArray_eq_some.mp hb
    have horder : first ≤ last := by
      rcases h with rfl | h
      · refine Nat.le_of_not_lt fun hlt => ?_
        rw [Build.sub_eq_none_iff.mpr ⟨rfl, hlt⟩] at hsize
        cases hsize
      · exact h first last hfirst hlast hle
    obtain ⟨rfl, rfl⟩ := inside_of_ordered ha horder hle hoffset hsize
    exact ⟨rfl, Nat.le_add_right _ _, by dsimp only; omega⟩

/-! ## Views of views -/

/-- `x..y` -/
def between (x y : ℕ) : Bound × Bound := (.included x, .excluded y)

theorem subArray_between {x y : ℕ} : a.subArray build (between x y) = some b ↔
    ∃ offset size, y ≤ a.size ∧ build.result (a.offset + x) = some offset ∧
      build.sub y x = some size ∧ { a with offset, size } = b := by
  rw [subArray_eq_some]
  constructor
  · rintro ⟨_, _, offset, size, ⟨⟩, ⟨⟩, h⟩
    exact ⟨offset, size, h⟩
  · rintro ⟨offset, size, h⟩
    exact ⟨x, y, offset, size, rfl, rfl, h⟩

/-- If `a.sub_array(x..y).sub_array(z..w)` returns a view, so does `a.sub_array(x + z..x + w)`,
and it is the same one. -/
def Composes (build : Build) (a : UnsafeArrayInner) (x y z w : ℕ) : Prop :=
  ∀ b c, a.subArray build (between x y) = some b → b.subArray build (between z w) = some c →
    ∃ first last, build.result (x + z) = some first ∧ build.result (x + w) = some last ∧
      a.subArray build (between first last) = some c

/-- The sums are in the view `a`, or one of the two calls panics. -/
def SumsFit (a : UnsafeArrayInner) (x y w : ℕ) : Prop :=
  a.size < y ∨ word + y - x < w ∨ (x + w) % word ≤ a.size

theorem composes_checked (ha : a.offset + a.size < word) (x y z w : ℕ) :
    Composes .checked a x y z w := by
  intro b c hb hc
  obtain ⟨offset, size, hy, hoffset, hsize, rfl⟩ := subArray_between.mp hb
  have hxy : x ≤ y := Nat.le_of_not_lt fun hlt => by
    rw [Build.sub_eq_none_iff.mpr ⟨rfl, hlt⟩] at hsize
    cases hsize
  obtain ⟨rfl, rfl⟩ := inside_of_ordered ha hxy hy hoffset hsize
  obtain ⟨offset, size, hw, hoffset, hsize, rfl⟩ := subArray_between.mp hc
  have hzw : z ≤ w := Nat.le_of_not_lt fun hlt => by
    rw [Build.sub_eq_none_iff.mpr ⟨rfl, hlt⟩] at hsize
    cases hsize
  dsimp only at hw hoffset
  refine ⟨x + z, x + w, Build.result_of_lt _ (by omega), Build.result_of_lt _ (by omega),
    subArray_between.mpr ⟨offset, size, by omega, ?_, ?_, rfl⟩⟩
  · rwa [← Nat.add_assoc]
  · rw [Build.sub_of_le _ hzw] at hsize
    rw [Build.sub_of_le _ (by omega), Nat.add_sub_add_left]
    exact hsize

theorem wrapping_sub_eq {x y : ℕ} (hx : x < word) (hy : y < word) :
    Build.wrapping.sub y x = some ((word + y - x) % word) := by
  rcases Nat.lt_or_ge y x with hlt | hle
  · rw [Build.wrapping_sub_of_lt hlt, Nat.mod_eq_of_lt (by omega)]
  · rw [Build.sub_of_le _ hle, Nat.add_sub_assoc hle, Nat.add_mod_left,
      Nat.mod_eq_of_lt (by omega)]

theorem subArray_wrapping {x y : ℕ} (hx : x < word) (hy : y < word) :
    a.subArray .wrapping (between x y) = some b ↔ y ≤ a.size ∧
      { a with offset := (a.offset + x) % word, size := (word + y - x) % word } = b := by
  rw [subArray_between, Build.wrapping_result, wrapping_sub_eq hx hy]
  constructor
  · rintro ⟨_, _, hle, ⟨⟩, ⟨⟩, hb⟩
    exact ⟨hle, hb⟩
  · rintro ⟨hle, hb⟩
    exact ⟨_, _, hle, rfl, rfl, hb⟩

/-- Without overflow checks, what is missing is that the sums are in the view. -/
theorem composes_wrapping {x y z w : ℕ} (hx : x < word) (hy : y < word) (hz : z < word)
    (hw : w < word) : Composes .wrapping a x y z w ↔
      (y ≤ a.size → w ≤ (word + y - x) % word → (x + w) % word ≤ a.size) := by
  have hmod (n : ℕ) : n % word < word := Nat.mod_lt n (by decide)
  constructor
  · intro h hle hle'
    obtain ⟨first, last, _, hlast, hsub⟩ := h _ _ ((subArray_wrapping hx hy).mpr ⟨hle, rfl⟩)
      ((subArray_wrapping hz hw).mpr ⟨hle', rfl⟩)
    rw [Build.wrapping_result] at hlast
    cases hlast
    obtain ⟨_, _, hle, _⟩ := subArray_between.mp hsub
    exact hle
  · intro h b c hb hc
    obtain ⟨hle, rfl⟩ := (subArray_wrapping hx hy).mp hb
    obtain ⟨hle', rfl⟩ := (subArray_wrapping hz hw).mp hc
    refine ⟨_, _, Build.wrapping_result _, Build.wrapping_result _,
      (subArray_wrapping (hmod _) (hmod _)).mpr ⟨h hle hle', ?_⟩⟩
    dsimp only
    congr 1
    · rw [Nat.add_mod_mod, Nat.mod_add_mod, Nat.add_assoc]
    · unfold word at hz hw ⊢
      omega

theorem composes_iff (ha : a.offset + a.size < word) {x y z w : ℕ} (hx : x < word)
    (hy : y < word) (hz : z < word) (hw : w < word) :
    Composes build a x y z w ↔ build = .checked ∨ x ≤ y ∨ a.SumsFit x y w := by
  cases build with
  | checked => exact ⟨fun _ => Or.inl rfl, fun _ => composes_checked ha x y z w⟩
  | wrapping =>
    rw [composes_wrapping hx hy hz hw, SumsFit]
    rcases Nat.lt_or_ge y x with hlt | hle
    · rw [Nat.mod_eq_of_lt (show word + y - x < word by omega)]
      constructor
      · intro h
        by_cases hfits : y ≤ a.size ∧ w ≤ word + y - x
        · exact Or.inr (Or.inr (Or.inr (Or.inr (h hfits.1 hfits.2))))
        · exact Or.inr (Or.inr (by omega))
      · rintro (h | h | h | h | h) hy hw
        · cases h
        all_goals omega
    · refine ⟨fun _ => Or.inr (Or.inl hle), fun _ hy hw => ?_⟩
      rw [Nat.add_sub_assoc hle, Nat.add_mod_left, Nat.mod_eq_of_lt (by omega)] at hw
      rw [Nat.mod_eq_of_lt (by omega)]
      omega

/-! ## Both -/

/-- `sub_array` of a view of an array of `len` elements. -/
theorem sub_array_exact (ha : a.WellFormed len) (hlen : len < word) (build : Build) :
    (∀ range, BoundFits range.1 → BoundFits range.2 →
      (InsideParent build a range ↔ build = .checked ∨ Ordered build a range)) ∧
    ∀ x y z w, x < word → y < word → z < word → w < word →
      (Composes build a x y z w ↔ build = .checked ∨ x ≤ y ∨ a.SumsFit x y w) := by
  have hfits := ha.fits
  exact ⟨fun range hfirst _ => insideParent_iff (by omega) hfirst,
    fun x y z w hx hy hz hw => composes_iff (by omega) hx hy hz hw⟩

/-- Views of ten elements on three PEs -/
theorem sub_array_exact_ten : Composes .wrapping (view 0 3 10 .block 2 6) 1 5 2 3 :=
  ((sub_array_exact (view_wellFormed (by decide) (by decide) (by decide)) (by decide)
    .wrapping).2 1 5 2 3 (by decide) (by decide) (by decide) (by decide)).mpr
      (Or.inr (Or.inl (by decide)))

/-- Without overflow checks, `sub_array(5..3)` is a view of almost all words. -/
theorem sub_array_outside :
    ¬ InsideParent .wrapping (view 0 3 10 .block 0 10) (.included 5, .excluded 3) := by
  intro h
  have hinside := h (view 0 3 10 .block 5 (word - 2)) rfl
  exact absurd hinside.end_le (by decide)

end Lamellar.Array.UnsafeArrayInner
