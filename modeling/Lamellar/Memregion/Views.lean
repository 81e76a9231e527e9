import Lamellar.Memregion.Model

/-!
# Views of memory regions

What the accessors of a view agree on. `at` takes its index for one of the whole region, and the
transfers stop at the end of the whole region, so that the accessors of a view agree and end where
it ends only if it is the whole region. What is inside of a view is found by slices, pointers and
transfers in every build, and with overflow checks a view is inside of its parent.
-/

namespace Lamellar.Memregion

variable {build : Build} {size n index : ℕ}

theorem ok_bind {α β : Type} (a : α) (f : α → Except Failure β) : (Except.ok a >>= f) = f a := rfl

theorem orPanic_result {k : ℕ} (h : k < word) : orPanic (build.result k) = .ok k := by
  rw [build.result_of_lt h]
  rfl

theorem orPanic_checked (k : ℕ) :
    orPanic (Build.checked.result k) = .ok k ∨
      orPanic (Build.checked.result k) = .error .panicked := by
  unfold Build.result
  split
  · exact Or.inl rfl
  · exact Or.inr rfl

/-! ## The parts of a region -/

/-- Memory for `n` elements of `size` bytes. -/
structure MemoryRegion.Holds (mr : MemoryRegion) (size n : ℕ) : Prop where
  addr_ne : mr.addr ≠ 0
  numBytes_eq : mr.numBytes = n * size
  size_pos : 0 < size
  fits : mr.addr + n * size < word

section Region

variable {mr : MemoryRegion} {data : Slice} {pe : Option ℕ}

theorem MemoryRegion.Holds.asCastedSlice (h : mr.Holds size n) :
    mr.asCastedSlice size = .ok ⟨mr.addr, n⟩ := by
  rw [MemoryRegion.asCastedSlice, if_pos h.addr_ne, h.numBytes_eq,
    if_pos (Nat.mul_mod_left n size), Nat.mul_div_cancel n h.size_pos]

theorem MemoryRegion.Holds.castedAt (h : mr.Holds size n) (index : ℕ) :
    mr.castedAt size index =
      if index < n then .ok (mr.addr + index * size) else .error .panicked := by
  rw [MemoryRegion.castedAt, if_pos h.addr_ne, h.numBytes_eq, if_pos (Nat.mul_mod_left n size),
    Nat.mul_div_cancel n h.size_pos, Slice.get]

/-- Sums and products stay below a word inside of a region. -/
theorem MemoryRegion.Holds.mul_lt (h : mr.Holds size n) {k : ℕ} (hk : k ≤ n) :
    k < word ∧ k * size < word ∧ mr.addr + k * size < word := by
  have hle := Nat.mul_le_mul_right size hk
  have hself := Nat.le_mul_of_pos_right k h.size_pos
  have hfits := h.fits
  omega

theorem MemoryRegion.Holds.transfer (h : mr.Holds size n) (hle : index + data.len ≤ n) :
    mr.transfer build size pe index ⟨.ok data.addr, data.len⟩ =
      .ok ⟨pe, data.addr, mr.addr + index * size, data.len * size⟩ := by
  obtain ⟨hlen, hstop, -⟩ := h.mul_lt hle
  obtain ⟨-, hstart, haddr⟩ := h.mul_lt (Nat.le_trans (Nat.le_add_right index data.len) hle)
  obtain ⟨-, hbytes, -⟩ := h.mul_lt (Nat.le_trans (Nat.le_add_left data.len index) hle)
  have hbound : (index + data.len) * size ≤ mr.numBytes := by
    rw [h.numBytes_eq]
    exact Nat.mul_le_mul_right size hle
  rw [MemoryRegion.transfer, orPanic_result hlen, ok_bind, orPanic_result hstop, ok_bind,
    if_pos hbound, orPanic_result hbytes, ok_bind]
  simp only
  rw [orPanic_result hstart, ok_bind, orPanic_result haddr, ok_bind]

/-- With overflow checks a transfer that passes the end of the region panics. -/
theorem MemoryRegion.Holds.transfer_past (h : mr.Holds size n) (hlt : n < index + data.len) :
    mr.transfer .checked size pe index ⟨.ok data.addr, data.len⟩ = .error .panicked := by
  have hbound : ¬ (index + data.len) * size ≤ mr.numBytes := by
    rw [h.numBytes_eq, Nat.not_le]
    exact Nat.mul_lt_mul_of_pos_right hlt h.size_pos
  rw [MemoryRegion.transfer]
  rcases orPanic_checked (index + data.len) with hlen | hlen
  · rw [hlen, ok_bind]
    rcases orPanic_checked ((index + data.len) * size) with hstop | hstop
    · rw [hstop, ok_bind, if_neg hbound]
    · rw [hstop]
      rfl
  · rw [hlen]
    rfl

end Region

/-! ## Views inside of a region -/

/-- The first index of a range with this bound -/
def Bound.first : Bound → ℕ
  | .included idx => idx
  | .excluded idx => idx + 1
  | .unbounded => 0

namespace View

variable {v u : View}

/-- The address of element `i` of the view -/
def elem (v : View) (size i : ℕ) : ℕ := v.mr.addr + (v.subRegionOffset + i) * size

/-- The view is inside of a region of `n` elements. -/
def Inside (v : View) (n : ℕ) : Prop := v.subRegionOffset + v.subRegionSize ≤ n

theorem asSlice_eq (h : v.mr.Holds size n) (hin : v.Inside n) :
    v.asSlice build size = .ok ⟨v.mr.addr + v.subRegionOffset * size, v.subRegionSize⟩ := by
  have hrange : v.subRegionOffset ≤ v.subRegionOffset + v.subRegionSize ∧
      v.subRegionOffset + v.subRegionSize ≤ n := ⟨Nat.le_add_right _ _, hin⟩
  rw [asSlice, h.asCastedSlice, ok_bind, orPanic_result (h.mul_lt hin).1, ok_bind, Slice.range,
    if_pos hrange, Nat.add_sub_cancel_left]

theorem asSlice_get (h : v.mr.Holds size n) (hin : v.Inside n) (i : ℕ) :
    (v.asSlice build size >>= fun slice => slice.get size i) =
      if i < v.subRegionSize then .ok (v.elem size i) else .error .panicked := by
  rw [asSlice_eq h hin, ok_bind, Slice.get, elem, Nat.add_mul, Nat.add_assoc]

theorem addr_eq (h : v.mr.Holds size n) (hin : v.Inside n) :
    v.addr build size = .ok (v.elem size 0) := by
  obtain ⟨-, hstart, haddr⟩ := h.mul_lt (Nat.le_trans (Nat.le_add_right _ _) hin)
  rw [addr, orPanic_result hstart, ok_bind, orPanic_result haddr]
  rfl

/-- What a `sub_region` that does not panic has computed. -/
theorem exists_of_subRegion {range : Bound × Bound} (h : v.subRegion build range = some u) :
    ∃ start stop offset len, View.start build range.1 = some start ∧
      v.stop build range.2 = some stop ∧ stop ≤ v.subRegionSize ∧
      build.result (v.subRegionOffset + start) = some offset ∧ build.sub stop start = some len ∧
      u = ⟨v.mr, offset, len⟩ := by
  simp only [subRegion, Option.bind_eq_bind, Option.bind_eq_some_iff] at h
  obtain ⟨start, hstart, stop, hstop, h⟩ := h
  split at h
  · rename_i hle
    simp only [Option.bind_eq_some_iff, Option.some.injEq] at h
    obtain ⟨offset, hoffset, len, hlen, rfl⟩ := h
    exact ⟨start, stop, offset, len, hstart, hstop, hle, hoffset, hlen, rfl⟩
  · cases h

theorem subRegion_mr {range : Bound × Bound} (h : v.subRegion build range = some u) :
    u.mr = v.mr := by
  obtain ⟨_, _, _, _, -, -, -, -, -, rfl⟩ := exists_of_subRegion h
  rfl

theorem checked_start {b : Bound} {start : ℕ} (h : View.start .checked b = some start) :
    start = b.first := by
  cases b with
  | included idx => exact (Option.some.inj h).symm
  | excluded idx => exact (Build.checked_result_eq_some_iff.mp h).2
  | unbounded => exact (Option.some.inj h).symm

/-- With overflow checks `sub_region` gives a view that starts at the first element of the range,
and is inside of its parent. -/
theorem checked_subRegion {range : Bound × Bound} (h : v.subRegion .checked range = some u) :
    u.subRegionOffset = v.subRegionOffset + range.1.first ∧
      u.subRegionOffset + u.subRegionSize ≤ v.subRegionOffset + v.subRegionSize := by
  obtain ⟨start, stop, offset, len, hstart, -, hle, hoffset, hlen, rfl⟩ := exists_of_subRegion h
  obtain ⟨-, rfl⟩ := Build.checked_result_eq_some_iff.mp hoffset
  rw [← checked_start hstart]
  refine ⟨rfl, ?_⟩
  by_cases hlt : start ≤ stop
  · rw [Build.sub_of_le _ hlt] at hlen
    obtain rfl := Option.some.inj hlen
    change v.subRegionOffset + start + (stop - start) ≤ _
    omega
  · rw [Build.sub_eq_none_iff.mpr ⟨rfl, Nat.lt_of_not_le hlt⟩] at hlen
    cases hlen

end View

/-! ## The accessors of a handle -/

/-- The PEs that take part in a transfer -/
def Rdma.target (op : Rdma) (pe : ℕ) : Option ℕ :=
  match op with
  | .putAll => none
  | _ => some pe

namespace LamellarMemoryRegion

variable {r r' : LamellarMemoryRegion} {op : Rdma} {pe : ℕ} {data : Slice}

/-- The data is on the calling PE. -/
def IsLocal : LamellarMemoryRegion → Prop
  | .shared _ => True
  | .oneSided v => v.pe = v.myPe

/-- The PEs that a transfer may name -/
def HasPe (pe : ℕ) : LamellarMemoryRegion → Prop
  | .shared _ => True
  | .oneSided v => v.pe = pe

theorem at'_eq (h : r.view.mr.Holds size n) (index : ℕ) : r.at' size index =
    if index < n then .ok (r.view.mr.addr + index * size) else .error .panicked := by
  cases r <;> exact h.castedAt index

theorem asSlice_eq (h : r.IsLocal) : r.asSlice build size = r.view.asSlice build size := by
  cases r with
  | shared v => rfl
  | oneSided v => exact if_pos h

theorem asPtr_eq (h : r.IsLocal) : r.asPtr build size = r.view.addr build size := by
  cases r with
  | shared v => rfl
  | oneSided v => exact if_pos h

/-- The transfers differ in the PEs only. -/
theorem rdma_eq (h : r.HasPe pe) : r.rdma build size op pe index data = (do
    r.view.mr.transfer build size (op.target pe) (← r.view.index build index)
      ⟨.ok data.addr, data.len⟩) := by
  cases r with
  | shared v => cases op <;> rfl
  | oneSided v =>
    have hpe : v.pe = pe := h
    cases op <;> first | rfl | exact if_pos hpe

/-- The handle with another view -/
def withView (v : View) : LamellarMemoryRegion → LamellarMemoryRegion
  | .shared _ => .shared v
  | .oneSided w => .oneSided { w with view := v }

@[simp] theorem view_withView (v : View) : (r.withView v).view = v := by cases r <;> rfl

@[simp] theorem withView_view : r.withView r.view = r := by cases r <;> rfl

@[simp] theorem withView_withView (v u : View) : (r.withView v).withView u = r.withView u := by
  cases r <;> rfl

theorem subRegion_eq (range : Bound × Bound) :
    r.subRegion build range = (r.view.subRegion build range).map fun u => r.withView u := by
  cases r with
  | shared v => rfl
  | oneSided v =>
    rw [subRegion, OneSidedMemoryRegion.subRegion, Option.map_map]
    rfl

/-- A chain of `sub_region` calls -/
def subRegions (build : Build) (r : LamellarMemoryRegion) (ranges : List (Bound × Bound)) :
    Option LamellarMemoryRegion := ranges.foldlM (fun r range => r.subRegion build range) r

/-- The slices, pointers and transfers of what is inside of the view. -/
structure Denotes (r : LamellarMemoryRegion) (build : Build) (size : ℕ) : Prop where
  slice : ∀ i < r.len,
    (r.asSlice build size >>= fun slice => slice.get size i) = .ok (r.view.elem size i)
  ptr : ∀ i < r.len, (r.asPtr build size).map (fun ptr => ptr + i * size) =
    .ok (r.view.elem size i)
  rdma : ∀ op pe index data, r.HasPe pe → index + data.len ≤ r.len →
    r.rdma build size op pe index data =
      .ok ⟨op.target pe, data.addr, r.view.elem size index, data.len * size⟩

/-- All accessors find the elements of the view, and none passes its end. -/
structure Consistent (r : LamellarMemoryRegion) (build : Build) (size : ℕ) : Prop
    extends Denotes r build size where
  at_inside : ∀ i < r.len, r.at' size i = .ok (r.view.elem size i)
  subRegion : ∀ range r', r.subRegion build range = some r' →
    r.view.subRegionOffset ≤ r'.view.subRegionOffset ∧
      r'.view.subRegionOffset + r'.len ≤ r.view.subRegionOffset + r.len
  at_past : ∀ i, r.len ≤ i → r.at' size i = .error .panicked
  slice_past : ∀ i, r.len ≤ i →
    (r.asSlice build size >>= fun slice => slice.get size i) = .error .panicked
  rdma_past : ∀ op pe index data, r.HasPe pe → index < word → r.len < index + data.len →
    r.rdma build size op pe index data = .error .panicked

theorem subRegions_spec {ranges : List (Bound × Bound)} (h : r.subRegions build ranges = some r') :
    ∃ u, r' = r.withView u ∧ u.mr = r.view.mr ∧ (build = .checked →
      u.subRegionOffset = r.view.subRegionOffset + (ranges.map fun range => range.1.first).sum ∧
        u.subRegionOffset + u.subRegionSize ≤ r.view.subRegionOffset + r.view.subRegionSize) := by
  induction ranges generalizing r with
  | nil =>
    obtain rfl := Option.some.inj h
    exact ⟨r.view, withView_view.symm, rfl, fun _ => ⟨rfl, Nat.le_refl _⟩⟩
  | cons range ranges ih =>
    rw [subRegions, List.foldlM_cons, subRegion_eq] at h
    obtain ⟨r₁, hfirst, hrest⟩ := Option.bind_eq_some_iff.mp h
    obtain ⟨v, hv, rfl⟩ := Option.map_eq_some_iff.mp hfirst
    obtain ⟨u, rfl, hmr, hchecked⟩ := ih hrest
    rw [view_withView] at hmr hchecked
    refine ⟨u, withView_withView v u, hmr.trans (View.subRegion_mr hv), fun hbuild => ?_⟩
    obtain ⟨hoffset, hend⟩ := hchecked hbuild
    subst hbuild
    obtain ⟨hstart, hstop⟩ := View.checked_subRegion hv
    rw [List.map_cons, List.sum_cons]
    omega

theorem denotes (h : r.view.mr.Holds size n) (hlocal : r.IsLocal) (hin : r.view.Inside n) :
    r.Denotes build size := by
  refine ⟨fun i hi => ?_, fun i hi => ?_, fun op pe index data hpe hle => ?_⟩
  · rw [asSlice_eq hlocal, View.asSlice_get h hin]
    exact if_pos hi
  · rw [asPtr_eq hlocal, View.addr_eq h hin]
    simp only [Except.map, View.elem, Nat.add_zero, Nat.add_mul, Nat.add_assoc]
  · have hstop : r.view.subRegionOffset + index + data.len ≤ n := by
      have hlen : r.view.subRegionOffset + r.view.subRegionSize ≤ n := hin
      have hview : index + data.len ≤ r.view.subRegionSize := hle
      omega
    have hindex := (h.mul_lt (Nat.le_trans (Nat.le_add_right _ data.len) hstop)).1
    rw [rdma_eq hpe, View.index, orPanic_result hindex, ok_bind, h.transfer hstop]
    rfl

/-- With overflow checks the accessors of a whole region are consistent. -/
theorem consistent (h : r.view.mr.Holds size n) (hlocal : r.IsLocal)
    (hoffset : r.view.subRegionOffset = 0) (hlen : r.len = n) : r.Consistent .checked size := by
  have hin : r.view.Inside n := by
    rw [View.Inside, hoffset, Nat.zero_add]
    exact Nat.le_of_eq hlen
  refine ⟨denotes h hlocal hin, fun i hi => ?_, fun range r' hr' => ?_, fun i hi => ?_,
    fun i hi => ?_, fun op pe index data hpe _ hlt => ?_⟩
  · rw [at'_eq h, if_pos (hlen ▸ hi), View.elem, hoffset, Nat.zero_add]
  · rw [subRegion_eq] at hr'
    obtain ⟨u, hu, rfl⟩ := Option.map_eq_some_iff.mp hr'
    obtain ⟨hstart, hstop⟩ := View.checked_subRegion hu
    rw [len, len, view_withView]
    omega
  · rw [at'_eq h, if_neg (Nat.not_lt.mpr (hlen ▸ hi))]
  · rw [asSlice_eq hlocal, View.asSlice_get h hin]
    exact if_neg (Nat.not_lt.mpr hi)
  · rw [rdma_eq hpe, View.index, hoffset, Nat.zero_add]
    rcases orPanic_checked index with hindex | hindex
    · rw [hindex, ok_bind, h.transfer_past (hlen ▸ hlt)]
    · rw [hindex]
      rfl

/-- `at` finds the elements of a view that is the whole region only. -/
theorem whole_of_at (h : r.view.mr.Holds size n) (hpos : 0 < n)
    (hinside : ∀ i < r.len, r.at' size i = .ok (r.view.elem size i))
    (hpast : ∀ i, r.len ≤ i → r.at' size i = .error .panicked) :
    r.view.subRegionOffset = 0 ∧ r.len = n := by
  have hat := at'_eq h
  have hend := hpast r.len (Nat.le_refl _)
  rw [hat] at hend
  have hle : n ≤ r.len := by
    refine Nat.le_of_not_lt fun hlt => ?_
    rw [if_pos hlt] at hend
    cases hend
  have hge : r.len ≤ n := by
    refine Nat.le_of_not_lt fun hlt => ?_
    have hlast := hinside n hlt
    rw [hat, if_neg (Nat.lt_irrefl n)] at hlast
    cases hlast
  refine ⟨?_, Nat.le_antisymm hge hle⟩
  have hfirst := hinside 0 (Nat.lt_of_lt_of_le hpos hle)
  rw [hat, if_pos hpos, View.elem, Except.ok.injEq, Nat.add_left_cancel_iff] at hfirst
  exact (Nat.eq_of_mul_eq_mul_right h.size_pos hfirst).symm

/-- Without overflow checks a `sub_region` that ends before it starts is outside. -/
theorem not_consistent_wrapping (h : r.view.mr.Holds size n)
    (hoffset : r.view.subRegionOffset = 0) (hlen : r.len = n) : ¬ r.Consistent .wrapping size := by
  intro hconsistent
  have hword : n < word := (h.mul_lt (Nat.le_refl n)).1
  have hsub : r.view.subRegion .wrapping (.included 1, .excluded 0) =
      some ⟨r.view.mr, 1, word - 1⟩ := by
    have hone : Build.wrapping.result (0 + 1) = some 1 := rfl
    have hlen : Build.wrapping.sub 0 1 = some (word - 1) := rfl
    simp only [View.subRegion, View.start, View.stop, Option.bind_eq_bind, Option.bind_some,
      if_pos (Nat.zero_le _), hoffset, hone, hlen]
  obtain ⟨-, hstop⟩ := hconsistent.subRegion _ _ ((subRegion_eq _).trans (congrArg _ hsub))
  rw [view_withView, len, view_withView, hoffset, hlen] at hstop
  change 1 + (word - 1) ≤ 0 + n at hstop
  omega

theorem not_isLocal_slice (h : ¬ r.IsLocal) : r.asSlice build size = .error .notLocal := by
  cases r with
  | shared v => exact absurd trivial h
  | oneSided v => exact if_neg h

/-- The accessors of a view are consistent exactly with overflow checks, where the view is the
whole region and the data is on this PE. With overflow checks every view is inside of the region,
and starts at the sum of the starts; inside of any view, slices, pointers and transfers find its
elements. -/
theorem views_exact {addr : ℕ} {whole : LamellarMemoryRegion} {ranges : List (Bound × Bound)}
    (hnew : View.tryNew size addr n = some whole.view) (haddr : addr ≠ 0)
    (hfits : addr + n * size < word) (hchain : whole.subRegions build ranges = some r) :
    (r.Consistent build size ↔ build = .checked ∧ r = whole ∧ r.IsLocal) ∧
    (build = .checked → r.view.Inside n ∧
      r.view.subRegionOffset = (ranges.map fun range => range.1.first).sum) ∧
    (r.IsLocal → r.view.Inside n → r.Denotes build size) := by
  obtain ⟨hpos, hwhole⟩ := Option.ite_none_right_eq_some.mp hnew
  have hview : whole.view = ⟨⟨addr, n * size⟩, 0, n⟩ := (Option.some.inj hwhole).symm
  have hn : 0 < n := Nat.pos_of_mul_pos_right hpos
  have hsize : 0 < size := Nat.pos_of_mul_pos_left hpos
  obtain ⟨u, rfl, hmr, hchecked⟩ := subRegions_spec hchain
  have hholds : (whole.withView u).view.mr.Holds size n := by
    rw [view_withView, hmr, hview]
    exact ⟨haddr, rfl, hsize, hfits⟩
  refine ⟨⟨fun hconsistent => ?_, ?_⟩, fun hbuild => ?_, fun hlocal hin =>
    denotes hholds hlocal hin⟩
  · obtain ⟨hoffset, hlen⟩ :=
      whole_of_at hholds hn hconsistent.at_inside hconsistent.at_past
    refine ⟨?_, ?_, ?_⟩
    · cases build with
      | checked => rfl
      | wrapping => exact absurd hconsistent (not_consistent_wrapping hholds hoffset hlen)
    · have heq : u = whole.view := by
        rw [len, view_withView] at hlen
        rw [view_withView] at hoffset
        rw [hview] at hmr ⊢
        cases u
        simp only at hmr hoffset hlen
        rw [hmr, hoffset, hlen]
      rw [heq, withView_view]
    · refine Classical.byContradiction fun hlocal => ?_
      have hslice := hconsistent.slice 0 (hlen ▸ hn)
      rw [not_isLocal_slice hlocal] at hslice
      cases hslice
  · rintro ⟨rfl, heq, hlocal⟩
    have hsame : (whole.withView u).view = ⟨⟨addr, n * size⟩, 0, n⟩ := by rw [heq, hview]
    exact consistent hholds hlocal (congrArg View.subRegionOffset hsame)
      (congrArg View.subRegionSize hsame)
  · obtain ⟨hoffset, hstop⟩ := hchecked hbuild
    rw [hview, Nat.zero_add] at hoffset hstop
    rw [view_withView]
    exact ⟨hstop, hoffset⟩

/-- A region of four elements of 8 bytes -/
def fourElems : LamellarMemoryRegion := .shared ⟨⟨4096, 32⟩, 0, 4⟩

/-- The region itself, and `sub_region(1..4).sub_region(1..=1)`, which is its third element -/
theorem views_exact_fourElems : fourElems.Consistent .checked 8 ∧
    ∃ r, fourElems.subRegions .checked
        [(.included 1, .excluded 4), (.included 1, .included 1)] = some r ∧
      r.view.subRegionOffset = 2 ∧ r.view.subRegionSize = 1 ∧ r.Denotes .checked 8 ∧
      ¬ r.Consistent .checked 8 := by
  have hnew : View.tryNew 8 4096 4 = some fourElems.view := rfl
  have haddr : 4096 ≠ 0 := by decide
  have hfits : 4096 + 4 * 8 < word := by decide
  have hwhole : fourElems.subRegions .checked [] = some fourElems := rfl
  refine ⟨(views_exact hnew haddr hfits hwhole).1.mpr ⟨rfl, rfl, trivial⟩, ?_⟩
  have hchain : fourElems.subRegions .checked
      [(.included 1, .excluded 4), (.included 1, .included 1)] =
        some (.shared ⟨⟨4096, 32⟩, 2, 1⟩) := rfl
  obtain ⟨hconsistent, hinside, hdenotes⟩ := views_exact hnew haddr hfits hchain
  obtain ⟨hin, hoffset⟩ := hinside rfl
  refine ⟨_, hchain, hoffset, rfl, hdenotes trivial hin, fun h => ?_⟩
  cases (hconsistent.mp h).2.1

/-- `at(0)` of `sub_region(1..4)` is the first element of the region. -/
theorem at_ignores_offset : ∃ r,
    fourElems.subRegions .checked [(.included 1, .excluded 4)] = some r ∧
      r.at' 8 0 = .ok 4096 ∧ r.view.elem 8 0 = 4104 ∧ ¬ r.Consistent .checked 8 := by
  refine ⟨_, rfl, rfl, rfl, fun hconsistent => ?_⟩
  have hat := hconsistent.at_inside 0 (by decide)
  cases hat

end LamellarMemoryRegion

end Lamellar.Memregion
