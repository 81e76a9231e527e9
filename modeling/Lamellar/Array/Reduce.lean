import Lamellar.Array.LocalIndex
import Lamellar.Lib.Reduction

/-!
# Reductions: `create_reduction` in `impl/src/array_reduce.rs`

A reduction message for the PEs from `start_pe` to `end_pe` of a view launches one for each half,
on the first PE of the half, and combines what they return. The message for one PE folds the
elements that are there, and `unwrap`s: a PE without elements panics, and nothing is returned to
the message that waits for it (`none`). With elements on every PE, the messages fold the local
elements of every PE once, and what is returned is the fold of the view.
-/

namespace Lamellar.Array

open Reduction

variable {T : Type} {a : UnsafeArrayInner} {len : ℕ}

namespace UnsafeArrayInner

/-- The local elements of a view on PE `pe`. -/
def localData (a : UnsafeArrayInner) (r : MemoryRegion T) (pe : ℕ) : Option (List T) :=
  (a.onPe pe).localAsMutSlice.map fun (start, stop) =>
    (List.range' start (stop - start)).map (r.cell pe)

/-- The elements of the view in the order of their indices -/
def elements (a : UnsafeArrayInner) (r : MemoryRegion T) : Option (List T) :=
  (List.range a.size).mapM (a.element r)

/-- `exec` of a reduction message on PE `currentPe`. A message has `start_pe <= end_pe`; one that
had not would launch messages without an end. -/
def reduceExec (a : UnsafeArrayInner) (r : MemoryRegion T) (op : T → T → T)
    (currentPe startPe endPe : ℕ) : Option T :=
  if startPe = endPe then do
    let dataSlice ← a.localData r currentPe
    reduce op dataSlice
  else if startPe < endPe then do
    let midPe := (startPe + endPe) / 2
    let left ← a.reduceExec r op startPe startPe midPe
    let right ← a.reduceExec r op (midPe + 1) (midPe + 1) endPe
    some (op left right)
  else none
termination_by endPe - startPe

/-- `reduce_data`, called by PE `teamPe` of the team, or by a PE outside of it. -/
def reduceData (a : UnsafeArrayInner) (r : MemoryRegion T) (op : T → T → T)
    (teamPe : Option ℕ) : Option T :=
  match teamPe with
  | some myPe => a.reduceExec r op myPe 0 (a.numPes - 1)
  | none => a.reduceExec r op 0 0 (a.numPes - 1)

/-- The messages that one launches, itself included: the PE that runs it, `start_pe` and
`end_pe`. -/
def reduceAms (currentPe startPe endPe : ℕ) : List (ℕ × ℕ × ℕ) :=
  if startPe < endPe then
    let midPe := (startPe + endPe) / 2
    (currentPe, startPe, endPe) ::
      (reduceAms startPe startPe midPe ++ reduceAms (midPe + 1) (midPe + 1) endPe)
  else [(currentPe, startPe, endPe)]
termination_by endPe - startPe

/-! ## The tree of messages -/

theorem range'_halves {s e : ℕ} (h : s < e) : List.range' s (e + 1 - s) =
    List.range' s ((s + e) / 2 + 1 - s) ++
      List.range' ((s + e) / 2 + 1) (e + 1 - ((s + e) / 2 + 1)) := by
  have hmid : s ≤ (s + e) / 2 ∧ (s + e) / 2 < e := by omega
  rw [show e + 1 - s = ((s + e) / 2 + 1 - s) + (e + 1 - ((s + e) / 2 + 1)) by omega,
    ← List.range'_append_1, show s + ((s + e) / 2 + 1 - s) = (s + e) / 2 + 1 by omega]

/-- Every PE from `startPe` to `endPe` has an element. -/
def AllHave (l : ℕ → List T) (startPe endPe : ℕ) : Prop :=
  ∀ pe, startPe ≤ pe → pe ≤ endPe → l pe ≠ []

theorem allHave_halves {l : ℕ → List T} {s e : ℕ} (h : s < e) :
    AllHave l s e ↔ AllHave l s ((s + e) / 2) ∧ AllHave l ((s + e) / 2 + 1) e := by
  constructor
  · exact fun hall => ⟨fun pe hs he => hall pe hs (by omega), fun pe hs he => hall pe (by omega) he⟩
  · rintro ⟨hleft, hright⟩ pe hs he
    rcases Nat.lt_or_ge ((s + e) / 2) pe with hlt | hge
    · exact hright pe hlt he
    · exact hleft pe hs hge

/-- The elements of the PEs from `startPe` to `endPe` -/
def gathered (l : ℕ → List T) (startPe endPe : ℕ) : List T :=
  (List.range' startPe (endPe + 1 - startPe)).flatMap l

theorem AllHave.gathered_ne_nil {l : ℕ → List T} {s e : ℕ} (h : AllHave l s e) (hle : s ≤ e) :
    gathered l s e ≠ [] := by
  have hmem : s ∈ List.range' s (e + 1 - s) := List.mem_range'_1.mpr ⟨Nat.le_refl _, by omega⟩
  exact fun hnil => h s (Nat.le_refl s) hle (List.flatMap_eq_nil_iff.mp hnil s hmem)

theorem gathered_halves {l : ℕ → List T} {s e : ℕ} (h : s < e) : gathered l s e =
    gathered l s ((s + e) / 2) ++ gathered l ((s + e) / 2 + 1) e := by
  rw [gathered, range'_halves h, List.flatMap_append]
  rfl

/-- A message returns the fold of the elements of its PEs, or nothing. -/
theorem reduceExec_eq {r : MemoryRegion T} (op : T → T → T) [Std.Associative op] {l : ℕ → List T}
    {currentPe startPe endPe : ℕ} (hle : startPe ≤ endPe)
    (hleaf : startPe = endPe → currentPe = startPe)
    (hlocal : ∀ pe ≤ endPe, a.localData r pe = some (l pe)) :
    (AllHave l startPe endPe →
      a.reduceExec r op currentPe startPe endPe = reduce op (gathered l startPe endPe)) ∧
    (¬ AllHave l startPe endPe → a.reduceExec r op currentPe startPe endPe = none) := by
  induction hn : endPe - startPe using Nat.strongRecOn generalizing currentPe startPe endPe with
  | ind n ih =>
    rw [reduceExec]
    by_cases heq : startPe = endPe
    · obtain rfl := hleaf heq
      subst heq
      have hone : currentPe + 1 - currentPe = 1 := by omega
      rw [if_pos rfl, hlocal currentPe (Nat.le_refl _), gathered, hone, List.range'_one,
        List.flatMap_singleton, Option.bind_eq_bind, Option.bind_some]
      refine ⟨fun _ => rfl, fun hnot => reduce_eq_none_iff.mpr ?_⟩
      refine Classical.byContradiction fun hne => hnot fun pe hs he => ?_
      rw [Nat.le_antisymm he hs]
      exact hne
    · have hlt : startPe < endPe := Nat.lt_of_le_of_ne hle heq
      obtain ⟨hleft, hleft'⟩ := ih ((startPe + endPe) / 2 - startPe) (by omega) (by omega)
        (fun _ => rfl) (fun pe hpe => hlocal pe (by omega)) rfl
      obtain ⟨hright, hright'⟩ := ih (endPe - ((startPe + endPe) / 2 + 1)) (by omega) (by omega)
        (fun _ => rfl) hlocal rfl
      rw [if_neg heq, if_pos hlt, allHave_halves hlt, gathered_halves hlt]
      constructor
      · rintro ⟨hfirst, hsecond⟩
        rw [reduce_append (hfirst.gathered_ne_nil (by omega)) (hsecond.gathered_ne_nil (by omega)),
          ← hleft hfirst, ← hright hsecond]
        simp only [Option.map_eq_bind]
        rfl
      · intro hnot
        by_cases hfirst : AllHave l startPe ((startPe + endPe) / 2)
        · have hnone := hright' fun hsecond => hnot ⟨hfirst, hsecond⟩
          simp [hnone]
        · simp [hleft' hfirst]

/-- The messages for one PE: there is one for each, and it runs on its PE. -/
theorem reduceAms_leaves {currentPe startPe endPe : ℕ} (hle : startPe ≤ endPe)
    (hleaf : startPe = endPe → currentPe = startPe) :
    (reduceAms currentPe startPe endPe).filter (fun am => am.2.1 = am.2.2) =
      (List.range' startPe (endPe + 1 - startPe)).map fun pe => (pe, pe, pe) := by
  induction hn : endPe - startPe using Nat.strongRecOn generalizing currentPe startPe endPe with
  | ind n ih =>
    rw [reduceAms]
    by_cases heq : startPe = endPe
    · obtain rfl := hleaf heq
      subst heq
      have hone : currentPe + 1 - currentPe = 1 := by omega
      simp [hone]
    · have hlt : startPe < endPe := Nat.lt_of_le_of_ne hle heq
      have hleft := ih ((startPe + endPe) / 2 - startPe) (by omega) (by omega) (fun _ => rfl) rfl
      have hright := ih (endPe - ((startPe + endPe) / 2 + 1)) (by omega) (by omega)
        (fun _ => rfl) rfl
      rw [if_pos hlt, List.filter_cons_of_neg (by simpa using heq), List.filter_append, hleft,
        hright, range'_halves hlt, List.map_append]

/-! ## The elements of the view -/

/-- The indices of the local elements of PE `pe` -/
def localIndices (a : UnsafeArrayInner) (pe : ℕ) : List ℕ :=
  (List.range (a.numElemsPe pe)).filterMap (a.onPe pe).subarrayIndexFromLocal

theorem exists_value (h : a.WellFormed len) (hs : 0 < a.size) (r : MemoryRegion T) :
    ∃ f : ℕ → T, ∀ g < a.size, a.element r g = some (f g) := by
  have hsome : ∀ g < a.size, (a.element r g).isSome := by
    intro g hg
    simp only [element, physicalSlot_eq_home h hg, Option.bind_eq_bind, Option.bind_some]
    rfl
  have hfirst := hsome 0 hs
  refine ⟨fun g => (a.element r g).getD ((a.element r 0).get hfirst), fun g hg => ?_⟩
  obtain ⟨x, hx⟩ := Option.isSome_iff_exists.mp (hsome g hg)
  have hget : (a.element r g).getD ((a.element r 0).get hfirst) = x := by rw [hx, Option.getD_some]
  exact hx.trans (congrArg some hget.symm)

theorem exists_localIndices (h : a.WellFormed len) {pe : ℕ} (hpe : pe < a.numPes) :
    ∃ first, a.localIndices pe =
        (List.range (a.numElemsPe pe)).map (fun j => first + j * a.stride) ∧
      ∀ j < a.numElemsPe pe, first + j * a.stride < a.size ∧
        (a.onPe pe).subarrayIndexFromLocal j = some (first + j * a.stride) := by
  obtain ⟨first, hidx, hlt⟩ := exists_first h hpe
  refine ⟨first, ?_, fun j hj => ⟨hlt j hj, (hidx j).trans (if_pos (hlt j hj))⟩⟩
  rw [localIndices, ← List.filterMap_eq_map]
  refine List.filterMap_congr fun j hj => ?_
  rw [hidx, if_pos (hlt j (List.mem_range.mp hj))]
  rfl

theorem localData_eq (h : a.WellFormed len) (hs : 0 < a.size) {r : MemoryRegion T} {f : ℕ → T}
    (hf : ∀ g < a.size, a.element r g = some (f g)) {pe : ℕ} (hpe : pe < a.numPes) :
    a.localData r pe = some ((a.localIndices pe).map f) := by
  obtain ⟨first, hindices, hidx⟩ := exists_localIndices h hpe
  rw [localData, localAsMutSlice_fst hs, Option.map_some, hindices, List.map_map]
  simp only [Nat.add_sub_cancel_left, List.range'_eq_map_range, List.map_map]
  refine congrArg some (List.map_congr_left fun j hj => ?_)
  have hj := List.mem_range.mp hj
  obtain ⟨hlt, hindex⟩ := hidx j hj
  have helement := element_of_local r h hpe hj hindex
  rw [hf _ hlt] at helement
  exact (Option.some.inj helement).symm

/-- On a block distribution the PEs have the indices in order. -/
theorem localIndices_block (h : a.WellFormed len) (hd : a.distribution = .block) :
    (List.range a.numPes).flatMap a.localIndices = List.range a.size := by
  have hmono := Segments.cut_strictMono h.pos h.le
  have hindex {pe g : ℕ} (hg : g ∈ a.localIndices pe) :
      Segments.cut len a.numPes pe ≤ a.offset + g ∧
        a.offset + g < Segments.cut len a.numPes (pe + 1) := by
    obtain ⟨j, hj, heq⟩ := List.mem_filterMap.mp hg
    have hj := List.mem_range.mp hj
    rw [numElemsPe_block h hd] at hj
    rw [subarrayIndexFromLocal_block h hd] at heq
    split at heq
    · cases heq
      omega
    · cases heq
  refine List.Perm.eq_of_pairwise' ?_ List.pairwise_lt_range (localIndices_perm h)
  rw [List.pairwise_flatMap]
  constructor
  · intro pe hpe
    obtain ⟨first, hindices, -⟩ := exists_localIndices h (List.mem_range.mp hpe)
    rw [hindices, List.pairwise_map]
    refine List.pairwise_lt_range.imp fun {j j'} hlt => ?_
    have hmul := Nat.mul_lt_mul_of_pos_right hlt (stride_pos h)
    omega
  · refine List.pairwise_lt_range.imp fun {pe pe'} hlt g hg g' hg' => ?_
    have hle : Segments.cut len a.numPes (pe + 1) ≤ Segments.cut len a.numPes pe' :=
      hmono.monotone hlt
    have hbefore := hindex hg
    have hafter := hindex hg'
    omega

/-- What is gathered from all PEs are the elements of the view, in order if the PEs have them in
order. -/
theorem exists_gathered (h : a.WellFormed len) (hs : 0 < a.size) (r : MemoryRegion T) :
    ∃ (l : ℕ → List T) (items : List T), (∀ pe < a.numPes, a.localData r pe = some (l pe)) ∧
      (∀ pe < a.numPes, (l pe).length = a.numElemsPe pe) ∧ a.elements r = some items ∧
      items.length = a.size ∧ (gathered l 0 (a.numPes - 1)).Perm items ∧
      (a.distribution = .block → gathered l 0 (a.numPes - 1) = items) := by
  obtain ⟨f, hf⟩ := exists_value h hs r
  have hall : gathered (fun pe => (a.localIndices pe).map f) 0 (a.numPes - 1) =
      ((List.range a.numPes).flatMap a.localIndices).map f := by
    have hpos := h.pos
    rw [gathered, Nat.sub_add_cancel hpos, Nat.sub_zero, ← List.range_eq_range', List.map_flatMap]
  refine ⟨fun pe => (a.localIndices pe).map f, (List.range a.size).map f,
    fun pe hpe => localData_eq h hs hf hpe, fun pe hpe => ?_, ?_, by simp, ?_, fun hd => ?_⟩
  · obtain ⟨first, hindices, -⟩ := exists_localIndices h hpe
    rw [List.length_map, hindices, List.length_map, List.length_range]
  · have hvalues : ((List.range a.size).map id).mapM (a.element r) = _ :=
      Folds.mapM_map_eq_some fun g hg => hf g (List.mem_range.mp hg)
    rw [List.map_id] at hvalues
    exact hvalues
  · rw [hall]
    exact (localIndices_perm h).map f
  · rw [hall, localIndices_block h hd]

theorem allHave_iff {l : ℕ → List T} (h : a.WellFormed len)
    (hlength : ∀ pe < a.numPes, (l pe).length = a.numElemsPe pe) :
    AllHave l 0 (a.numPes - 1) ↔ ∀ pe < a.numPes, 0 < a.numElemsPe pe := by
  have hpos := h.pos
  constructor
  · intro hall pe hpe
    rw [← hlength pe hpe, List.length_pos_iff]
    exact hall pe (Nat.zero_le pe) (by omega)
  · intro hall pe _ hle
    have hpe : pe < a.numPes := by omega
    rw [← List.length_pos_iff, hlength pe hpe]
    exact hall pe hpe

theorem reduceData_eq (r : MemoryRegion T) (op : T → T → T) (teamPe : Option ℕ) :
    a.reduceData r op teamPe = a.reduceExec r op (teamPe.getD 0) 0 (a.numPes - 1) := by
  cases teamPe <;> rfl

/-- `reduce` returns the fold of the view exactly if every PE has an element of it: there is one
message for the elements of each PE, and it panics if there is none. -/
theorem reduce_exact (h : a.WellFormed len) (hs : 0 < a.size) (r : MemoryRegion T)
    (op : T → T → T) [Std.Associative op]
    (hcomm : a.distribution = .cyclic → Std.Commutative op) (teamPe : Option ℕ)
    (hteam : ∀ pe, teamPe = some pe → pe < a.numPes) :
    (reduceAms (teamPe.getD 0) 0 (a.numPes - 1)).filter (fun am => am.2.1 = am.2.2) =
      (List.range a.numPes).map (fun pe => (pe, pe, pe)) ∧
    ∃ items, a.elements r = some items ∧ items ≠ [] ∧
      (a.reduceData r op teamPe = reduce op items ↔ ∀ pe < a.numPes, 0 < a.numElemsPe pe) := by
  obtain ⟨l, items, hlocal, hlength, hitems, hsize, hperm, hblock⟩ := exists_gathered h hs r
  have hpos := h.pos
  have hne : items ≠ [] := by
    rw [← List.length_pos_iff, hsize]
    exact hs
  have hleaf : 0 = a.numPes - 1 → teamPe.getD 0 = 0 := by
    intro hone
    cases teamPe with
    | none => rfl
    | some pe =>
      have hpe := hteam pe rfl
      rw [Option.getD_some]
      omega
  obtain ⟨hfold, hpanic⟩ := reduceExec_eq op (Nat.zero_le _) hleaf
    fun pe hpe => hlocal pe (by omega)
  refine ⟨?_, items, hitems, hne, ?_⟩
  · rw [reduceAms_leaves (Nat.zero_le _) hleaf, Nat.sub_add_cancel hpos, Nat.sub_zero,
      List.range_eq_range']
  · rw [reduceData_eq, ← allHave_iff h hlength]
    constructor
    · intro heq
      refine Classical.byContradiction fun hnot => hne ?_
      rw [hpanic hnot] at heq
      exact reduce_eq_none_iff.mp heq.symm
    · intro hall
      rw [hfold hall]
      cases hd : a.distribution with
      | block => rw [hblock hd]
      | cyclic =>
        have := hcomm hd
        exact reduce_perm hperm

/-- Three elements on two PEs -/
theorem reduce_exact_three :
    ∃ items,
      (view 0 2 3 .block 0 3).elements (⟨2, fun pe i => pe + i⟩ : MemoryRegion ℕ) = some items ∧
      (view 0 2 3 .block 0 3).reduceData ⟨2, fun pe i => pe + i⟩ (· + ·) (some 0) =
        reduce (· + ·) items := by
  have hwf : (view 0 2 3 .block 0 3).WellFormed 3 :=
    view_wellFormed (by decide) (by decide) (by decide)
  have hteam : ∀ pe, some 0 = some pe → pe < (view 0 2 3 .block 0 3).numPes := by
    rintro pe ⟨⟩
    decide
  obtain ⟨-, items, hitems, -, hiff⟩ := reduce_exact hwf (by decide) ⟨2, fun pe i => pe + i⟩
    (· + ·) (fun hd => by cases hd) (some 0) hteam
  exact ⟨items, hitems, hiff.mpr (by decide +kernel)⟩

/-- PE 1 has no element of the view. -/
theorem reduce_panics :
    (view 0 2 2 .block 0 1).elements (⟨1, fun pe _ => pe⟩ : MemoryRegion ℕ) = some [0] ∧
      (view 0 2 2 .block 0 1).reduceData (⟨1, fun pe _ => pe⟩ : MemoryRegion ℕ) (· + ·) (some 0) =
        none := by
  have hempty : (view 0 2 2 .block 0 1).localData (⟨1, fun pe _ => pe⟩ : MemoryRegion ℕ) 1 =
      some [] := by decide +kernel
  have hright : (view 0 2 2 .block 0 1).reduceExec (⟨1, fun pe _ => pe⟩ : MemoryRegion ℕ)
      (· + ·) 1 1 1 = none := by
    rw [reduceExec, if_pos rfl, hempty]
    rfl
  refine ⟨by decide +kernel, ?_⟩
  have hroot : (view 0 2 2 .block 0 1).numPes - 1 = 1 := rfl
  have hmid : (0 + 1) / 2 = 0 := rfl
  simp only [reduceData, hroot]
  rw [reduceExec]
  simp [hmid, hright]

end UnsafeArrayInner

end Lamellar.Array
