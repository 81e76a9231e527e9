import Lamellar.Alloc.Coalescing
import Lamellar.Alloc.LinearAlloc
import Lamellar.Lib.StandardIter

/-!
# What `fake_malloc` predicts

Each allocator answers without allocating whether `try_malloc` would find something.
`LinearAlloc` runs the same search; `BTreeAlloc` looks and merges as `try_malloc` does, and a
merge does not change which bytes are free. `ObjAlloc` asks for more than one free slot, so it
denies the last one (`obj_last_slot`).
-/

namespace Lamellar.Alloc

/-! ## `LinearAlloc` -/

namespace LinearAlloc

/-- The loop of `fake_malloc`: `prev_end` when it ends. -/
def fakeFit (build : Build) (size align : ℕ) : ℕ → List Vma → Option ℕ
  | prevEnd, [] => some prevEnd
  | prevEnd, e :: es =>
    match build.sub e.addr prevEnd, build.result (size + calcPadding prevEnd align) with
    | some gap, some full =>
      if full ≤ gap then some prevEnd
      else
        (build.result (e.addr + e.size + e.padding)).bind fun prevEnd =>
          fakeFit build size align prevEnd es
    | _, _ => none

/-- None where it panics. The allocator is only read. -/
def fakeMalloc (build : Build) (a : LinearAlloc) (size align : ℕ) : Option Bool :=
  if 0 < a.entries.length then
    match fakeFit build size align a.startAddr a.entries with
    | none => none
    | some prevEnd =>
      match build.result (prevEnd + size + calcPadding prevEnd align),
        build.result (a.startAddr + a.maxSize) with
      | some stop, some regionEnd => if stop ≤ regionEnd then some true else some false
      | _, _ => none
  else
    match build.result (size + calcPadding a.startAddr align),
      build.result (a.startAddr + a.maxSize) with
    | some full, some regionEnd => if full ≤ regionEnd then some true else some false
    | _, _ => none

variable {build : Build} {size align : ℕ}

/-- Both loops end at the same place. -/
theorem fakeFit_eq (prevEnd idx : ℕ) (es : List Vma) :
    fakeFit build size align prevEnd es =
      (firstFit build size align prevEnd idx es).map Prod.fst := by
  induction es generalizing prevEnd idx with
  | nil => rfl
  | cons e es ih =>
    rw [fakeFit, firstFit]
    cases build.sub e.addr prevEnd with
    | none => rfl
    | some gap =>
      cases build.result (size + calcPadding prevEnd align) with
      | none => rfl
      | some full =>
        simp only
        split
        · rfl
        · cases build.result (e.addr + e.size + e.padding) with
          | none => rfl
          | some next => exact ih next (idx + 1)

/-- Nothing is allocated, the request fits by the comparison, and the aligned address is not a
`usize`. -/
def Overflows (build : Build) (a : LinearAlloc) (size align : ℕ) : Prop :=
  build = .checked ∧ a.entries = [] ∧
    size + calcPadding a.startAddr align ≤ a.startAddr + a.maxSize ∧
    a.startAddr + a.maxSize < word ∧ word ≤ a.startAddr + calcPadding a.startAddr align

theorem fakeMalloc_iff_of_entries (a : LinearAlloc) (hne : 0 < a.entries.length) :
    a.fakeMalloc build size align = some true ↔
      ∃ addr a', a.tryMalloc build size align = (some (some addr), a') := by
  unfold fakeMalloc tryMalloc
  rw [if_pos hne, if_pos hne, fakeFit_eq a.startAddr 0]
  cases firstFit build size align a.startAddr 0 a.entries with
  | none => simp
  | some found =>
    obtain ⟨p, idx⟩ := found
    simp only [Option.map_some]
    cases hstop : build.result (p + size + calcPadding p align) with
    | none => simp
    | some stop =>
      cases build.result (a.startAddr + a.maxSize) with
      | none => simp
      | some regionEnd =>
        obtain ⟨full, hfull⟩ := Build.exists_result_of_le hstop
          (show size + calcPadding p align ≤ _ by omega)
        obtain ⟨padded, hpadded⟩ := Build.exists_result_of_le hstop
          (show p + calcPadding p align ≤ _ by omega)
        simp only [hfull, hpadded, Option.map_some]
        split <;> simp

theorem fakeMalloc_iff_of_nil (a : LinearAlloc) (hnil : a.entries = []) :
    (a.fakeMalloc build size align = some true ↔
      ∃ addr a', a.tryMalloc build size align = (some (some addr), a')) ↔
        ¬ a.Overflows build size align := by
  have hempty : ¬ 0 < a.entries.length := by simp [hnil]
  simp only [fakeMalloc, tryMalloc, if_neg hempty]
  cases hfull : build.result (size + calcPadding a.startAddr align) with
  | none =>
    have hnot : ¬ a.Overflows build size align := by
      rintro ⟨-, -, hle, hlt, -⟩
      rw [build.result_of_lt (Nat.lt_of_le_of_lt hle hlt)] at hfull
      cases hfull
    simp [hnot]
  | some full =>
    cases hregion : build.result (a.startAddr + a.maxSize) with
    | none =>
      have hnot : ¬ a.Overflows build size align := by
        rintro ⟨-, -, -, hlt, -⟩
        rw [build.result_of_lt hlt] at hregion
        cases hregion
      simp [hnot]
    | some regionEnd =>
      simp only
      cases build with
      | wrapping =>
        have hnot : ¬ a.Overflows .wrapping size align := fun h => by cases h.1
        simp only [hnot, not_false_eq_true, iff_true, Build.wrapping_result, Option.map_some]
        split <;> simp
      | checked =>
        obtain ⟨-, rfl⟩ := Build.checked_result_eq_some_iff.mp hfull
        obtain ⟨hlt, rfl⟩ := Build.checked_result_eq_some_iff.mp hregion
        by_cases hle : size + calcPadding a.startAddr align ≤ a.startAddr + a.maxSize
        · rw [if_pos hle, if_pos hle]
          by_cases hword : a.startAddr + calcPadding a.startAddr align < word
          · simp [Overflows, Build.result_of_lt _ hword, Nat.not_le.mpr hword]
          · have hnone :
                Build.checked.result (a.startAddr + calcPadding a.startAddr align) = none :=
              if_neg hword
            simp [Overflows, hnone, hnil, hle, hlt, Nat.le_of_not_lt hword]
        · rw [if_neg hle, if_neg hle]
          simp [Overflows, hle]

theorem fakeMalloc_iff (a : LinearAlloc) :
    (a.fakeMalloc build size align = some true ↔
      ∃ addr a', a.tryMalloc build size align = (some (some addr), a')) ↔
        ¬ a.Overflows build size align := by
  by_cases hnil : a.entries = []
  · exact a.fakeMalloc_iff_of_nil hnil
  · have hpos := List.length_pos_iff.mpr hnil
    exact iff_of_true (a.fakeMalloc_iff_of_entries hpos) fun h => hnil h.2.1

end LinearAlloc

/-! ## `ObjAlloc` -/

structure ObjAlloc where
  freeEntries : List ℕ
  startAddr : ℕ
  maxSize : ℕ
deriving DecidableEq

namespace ObjAlloc

/-- `new` and `init` for objects of `objSize` bytes. None where it panics: `step_by` does if the
objects have no size. -/
def init (build : Build) (objSize objAlign startAddr size : ℕ) : Option ObjAlloc :=
  match build.result (startAddr + calcPadding startAddr objAlign),
    build.result (startAddr + size) with
  | some first, some stop =>
    if objSize = 0 then none
    else some
      { freeEntries := StandardIter.stepBy objSize (List.range' first (stop - first))
        startAddr := first
        maxSize := size }
  | _, _ => none

/-- None if the assertion on the size fails. -/
def tryMalloc (a : ObjAlloc) (size : ℕ) : Option (Option ℕ × ObjAlloc) :=
  if size = 1 then
    some (a.freeEntries.getLast?, { a with freeEntries := a.freeEntries.dropLast })
  else none

def fakeMalloc (a : ObjAlloc) (size : ℕ) : Option Bool :=
  if size = 1 then some (decide (1 < a.freeEntries.length)) else none

theorem fakeMalloc_iff (a : ObjAlloc) (size : ℕ) :
    (a.fakeMalloc size = some true ↔ ∃ addr a', a.tryMalloc size = some (some addr, a')) ↔
      ¬ (size = 1 ∧ a.freeEntries.length = 1) := by
  unfold fakeMalloc tryMalloc
  by_cases hsize : size = 1
  · have hsome : (∃ addr, a.freeEntries.getLast? = some addr) ↔ 0 < a.freeEntries.length := by
      rw [← Option.isSome_iff_exists, List.getLast?_isSome, List.length_pos_iff]
    have htry : (∃ addr a', (if size = 1 then
        some (a.freeEntries.getLast?, { a with freeEntries := a.freeEntries.dropLast })
          else none) = some (some addr, a')) ↔ 0 < a.freeEntries.length := by
      rw [← hsome]
      simp [hsize]
    rw [htry]
    simp only [hsize, if_true, Option.some.injEq, decide_eq_true_eq, true_and]
    omega
  · simp [hsize]

end ObjAlloc

/-! ## `BTreeAlloc` -/

variable {S : Type} [LawfulIndexSet S] {build : Build} {startAddr maxSize size align upper : ℕ}
  {s s' : BTreeAlloc S}

/-- The state with one more call -/
def BTreeAlloc.called (s : BTreeAlloc S) (c : Call) : BTreeAlloc S :=
  { s with calls := s.calls ++ [c] }

omit [LawfulIndexSet S] in
theorem BTreeAlloc.called_getElem? (s : BTreeAlloc S) (c : Call) :
    (s.called c).calls[s.calls.length]? = some c := by
  simp [called]

omit [LawfulIndexSet S] in
theorem BTreeAlloc.called_setCall (s : BTreeAlloc S) (c c' : Call) :
    (s.called c).setCall s.calls.length c' = s.called c' := by
  simp [called, setCall]

theorem BTreeAlloc.step_tryMalloc (s : BTreeAlloc S) (hargs : 0 < size ∧ 0 < align) :
    s.step build (.tryMalloc size align) = some (s.called (.tryMalloc size align .start)) := by
  simp only [step, if_pos hargs, called]

theorem BTreeAlloc.step_called (s : BTreeAlloc S) (size align : ℕ) (pc : MallocPc) :
    (s.called (.tryMalloc size align pc)).step build (.run s.calls.length) =
      (s.called (.tryMalloc size align pc)).runTryMalloc build s.calls.length size align pc := by
  simp only [step, s.called_getElem?]

variable (build) in
/-- `try_malloc`, called next, returns an address. -/
def BTreeAlloc.Finds (s : BTreeAlloc S) (size align : ℕ) : Prop :=
  ∃ n s' addr, Transition.run (BTreeAlloc.step build) s
      (.tryMalloc size align :: List.replicate n (.run s.calls.length)) = some s' ∧
    s'.calls[s.calls.length]? = some (.tryMalloc size align (.returned (some addr)))

/-- The call at `k` has found nothing so far, and will not. -/
def BTreeAlloc.Misses (build : Build) (fe : FreeEntries S) (k size align : ℕ)
    (s : BTreeAlloc S) : Prop :=
  ∃ pc, s.calls[k]? = some (.tryMalloc size align pc) ∧
    (s.freeEntries = fe ∧ (pc = .start ∨
        ∃ upper, upperSize build size align = some upper ∧ pc = .waiting upper) ∨
      pc.left = 0 ∧ ∀ addr, pc ≠ .returned (some addr))

theorem BTreeAlloc.Misses.step {fe : FreeEntries S} {k : ℕ}
    (hnot : ∀ upper, upperSize build size align = some upper → fe.available build upper = false)
    (h : s.Misses build fe k size align) (hstep : s.step build (.run k) = some s') :
    s'.Misses build fe k size align := by
  obtain ⟨pc, hk, ⟨rfl, rfl | ⟨upper, hupper, rfl⟩⟩ | ⟨hleft, -⟩⟩ := h
  · have hlt := (List.getElem?_eq_some_iff.mp hk).1
    simp only [BTreeAlloc.step, hk, runTryMalloc] at hstep
    split at hstep
    · rename_i upper hupper
      have hnone := (firstFrom_eq_none_of_not_available (hnot upper hupper)).1
      rw [s.takeFrom_of_none k size align _ hnone] at hstep
      cases hstep
      exact ⟨_, s.setCall_getElem? hlt _, Or.inl ⟨rfl, Or.inr ⟨upper, hupper, rfl⟩⟩⟩
    · cases hstep
      exact ⟨_, s.setCall_getElem? hlt _, Or.inr ⟨rfl, by simp⟩⟩
  · have hlt := (List.getElem?_eq_some_iff.mp hk).1
    simp only [BTreeAlloc.step, hk, runTryMalloc] at hstep
    split at hstep
    · rename_i fe hmerge
      have hnone := (firstFrom_eq_none_of_not_available (hnot upper hupper)).2 fe hmerge
      rw [s.takeFrom_of_none k size align _ hnone] at hstep
      cases hstep
      exact ⟨_, s.setCall_getElem? hlt _, Or.inr ⟨rfl, by simp⟩⟩
    · cases hstep
      exact ⟨_, s.setCall_getElem? hlt _, Or.inr ⟨rfl, by simp⟩⟩
  · simp only [BTreeAlloc.step, hk] at hstep
    cases pc with
    | start => cases hleft
    | waiting upper => cases hleft
    | taken a => cases hleft
    | returned addr => cases hstep
    | panicked => cases hstep

theorem BTreeAlloc.Misses.run {fe : FreeEntries S} {k : ℕ}
    (hnot : ∀ upper, upperSize build size align = some upper → fe.available build upper = false)
    (n : ℕ) (h : s.Misses build fe k size align)
    (hrun : Transition.run (BTreeAlloc.step build) s (List.replicate n (.run k)) = some s') :
    s'.Misses build fe k size align := by
  induction n generalizing s with
  | zero =>
    cases hrun
    exact h
  | succ n ih =>
    simp only [List.replicate, Transition.run] at hrun
    split at hrun
    · exact ih (h.step hnot ‹_›) hrun
    · cases hrun

theorem BTreeAlloc.not_finds (hargs : 0 < size ∧ 0 < align)
    (hnot : ∀ upper, upperSize build size align = some upper →
      s.freeEntries.available build upper = false) : ¬ s.Finds build size align := by
  rintro ⟨n, s', addr, hrun, hcall⟩
  simp only [Transition.run, s.step_tryMalloc hargs] at hrun
  have hstart : (s.called (.tryMalloc size align .start)).Misses build s.freeEntries
      s.calls.length size align :=
    ⟨.start, s.called_getElem? _, Or.inl ⟨rfl, Or.inl rfl⟩⟩
  obtain ⟨pc, hk, hpc⟩ := hstart.run hnot n hrun
  rw [hcall] at hk
  cases hk
  rcases hpc with ⟨-, hstart | ⟨_, -, hwaiting⟩⟩ | ⟨-, hne⟩
  · cases hstart
  · cases hwaiting
  · exact hne addr rfl

/-- A search that finds a block gives it to the call. -/
theorem BTreeAlloc.exists_returned {k : ℕ} {fe fe' : FreeEntries S} {a full padded : ℕ}
    (s : BTreeAlloc S) (notFound : MallocPc) (hk : k < s.calls.length)
    (hfound : fe.search build upper size align = .found (some a) fe')
    (hfull : build.result (size + calcPadding a align) = some full)
    (hpadded : build.result (a + calcPadding a align) = some padded) :
    ∃ s', (s.takeFrom build k upper size align fe notFound).step build (.run k) = some s' ∧
      s'.calls[k]? = some (.tryMalloc size align (.returned (some padded))) := by
  have hcall : (s.setCall k (.tryMalloc size align (.taken a))).calls[k]? =
      some (.tryMalloc size align (.taken a)) := s.setCall_getElem? hk _
  have hlt := (List.getElem?_eq_some_iff.mp hcall).1
  simp only [takeFrom, hfound, step, hcall, runTryMalloc, hfull, hpadded]
  exact ⟨_, rfl, BTreeAlloc.setCall_getElem? _ hlt _⟩

/-- The search of a call, before or after a merge. -/
theorem BTreeAlloc.Sound.search_found (h : s.Sound build) (hargs : 0 < size ∧ 0 < align)
    (hupper : upperSize build size align = some upper) {fe : FreeEntries S}
    (hfe : fe = s.freeEntries ∨ s.freeEntries.merge build = .ok fe)
    (hsome : fe.sizes.firstFrom upper ≠ none) :
    ∃ a fe' full padded, fe.search build upper size align = .found (some a) fe' ∧
      build.result (size + calcPadding a align) = some full ∧
      build.result (a + calcPadding a align) = some padded := by
  rcases h with h | ⟨-, h⟩
  · have heq : fe = s.freeEntries := by
      rcases hfe with rfl | hmerge
      · rfl
      · rcases h.merge with ⟨-, herror⟩ | ⟨-, hok⟩
        · rw [herror] at hmerge
          cases hmerge
        · rw [hok] at hmerge
          cases hmerge
          rfl
    subst heq
    obtain ⟨a, fe', hfound⟩ := h.search_found hargs hupper hsome
    rcases upperSize_cases hargs.1 hupper with rfl | ⟨rfl, -⟩
    · exact absurd (h.firstFrom hargs (Or.inl rfl)) hsome
    · exact ⟨a, fe', _, _, hfound, Build.wrapping_result _, Build.wrapping_result _⟩
  · have hspec : fe.Mirror ∧ fe.Apart ∧ fe.Within (s.startAddr + s.maxSize) := by
      rcases hfe with rfl | hmerge
      · exact ⟨h.mirror, h.apart, h.within⟩
      · rcases h.merge with ⟨-, herror⟩ | ⟨fe', -, hok, hmirror, -, hapart, hin⟩
        · rw [herror] at hmerge
          cases hmerge
        · rw [hok] at hmerge
          cases hmerge
          exact ⟨hmirror, hapart, hin⟩
    obtain ⟨hmirror, hapart, hin⟩ := hspec
    obtain ⟨a, fe', hfound⟩ := h.search_found hmirror hapart hin hargs hupper hsome
    rcases upperSize_cases hargs.1 hupper with rfl | ⟨rfl, -⟩
    · have hnat := hfound
      rw [FreeEntries.search_eq build h.bound hmirror hin hargs.1 hargs.2] at hnat
      obtain ⟨n, hget, hle, -⟩ := FreeEntries.search_get? hmirror hargs.1 hargs.2 hnat
      have hend := hin.le hget
      have hbound := h.bound
      exact ⟨a, fe', _, _, hfound, build.result_of_lt (by omega), build.result_of_lt (by omega)⟩
    · exact ⟨a, fe', _, _, hfound, Build.wrapping_result _, Build.wrapping_result _⟩

theorem BTreeAlloc.Sound.finds (h : s.Sound build) (hargs : 0 < size ∧ 0 < align)
    (hupper : upperSize build size align = some upper)
    (havailable : s.freeEntries.available build upper = true) : s.Finds build size align := by
  have hlt : s.calls.length < (s.called (.tryMalloc size align .start)).calls.length := by
    simp [called]
  have hstart : (s.called (.tryMalloc size align .start)).step build (.run s.calls.length) =
      some ((s.called (.tryMalloc size align .start)).takeFrom build s.calls.length upper size align
        s.freeEntries (.waiting upper)) := by
    simp only [s.step_called, runTryMalloc, hupper]
    rfl
  by_cases hnow : s.freeEntries.sizes.firstFrom upper = none
  · rw [FreeEntries.available, hnow, Option.isSome_none, Bool.false_or] at havailable
    split at havailable
    · rename_i fe hmerge
      obtain ⟨a, fe', full, padded, hfound, hfull, hpadded⟩ := h.search_found hargs hupper
        (Or.inr hmerge) (Option.isSome_iff_ne_none.mp havailable)
      have hwaiting : (s.called (.tryMalloc size align (.waiting upper))).step build
          (.run s.calls.length) = some ((s.called (.tryMalloc size align (.waiting upper))).takeFrom
            build s.calls.length upper size align fe (.returned none)) := by
        have hmerge' : (s.called (.tryMalloc size align (.waiting upper))).freeEntries.merge build =
          .ok fe := hmerge
        simp only [s.step_called, runTryMalloc, hmerge']
      set s₁ := s.called (.tryMalloc size align (.waiting upper)) with hs₁
      have hlt' : s.calls.length < s₁.calls.length := by simp [hs₁, called]
      obtain ⟨s', hstep, hcall⟩ :=
        s₁.exists_returned (.returned none) hlt' hfound hfull hpadded
      refine ⟨3, s', padded, ?_, hcall⟩
      rw [BTreeAlloc.takeFrom_of_none _ _ _ _ _ hnow, s.called_setCall] at hstart
      have hstart' : (s.called (.tryMalloc size align .start)).step build (.run s.calls.length) =
          some s₁ := hstart
      simp only [Transition.run, s.step_tryMalloc hargs, List.replicate, hstart', hwaiting, hstep]
    · cases havailable
  · obtain ⟨a, fe', full, padded, hfound, hfull, hpadded⟩ :=
      h.search_found hargs hupper (Or.inl rfl) hnow
    obtain ⟨s', hstep, hcall⟩ := (s.called (.tryMalloc size align .start)).exists_returned
      (.waiting upper) hlt hfound hfull hpadded
    refine ⟨2, s', padded, ?_, hcall⟩
    simp only [Transition.run, s.step_tryMalloc hargs, List.replicate, hstart, hstep]

theorem BTreeAlloc.Sound.finds_iff (h : s.Sound build) (hargs : 0 < size ∧ 0 < align) :
    s.Finds build size align ↔
      ∃ upper, upperSize build size align = some upper ∧
        s.freeEntries.available build upper = true := by
  constructor
  · intro hfinds
    by_contra hnone
    push Not at hnone
    exact BTreeAlloc.not_finds hargs
      (fun upper hupper => eq_false_of_ne_true (hnone upper hupper)) hfinds
  · rintro ⟨upper, hupper, havailable⟩
    exact h.finds hargs hupper havailable

/-- The byte at `x` is free. -/
def BTreeAlloc.Free (s : BTreeAlloc S) (x : ℕ) : Prop :=
  ∃ b ∈ s.freeEntries.blocks, b.1 ≤ x ∧ x < b.1 + b.2

/-- What `fake_malloc` answers, and what it leaves. -/
theorem BTreeAlloc.exists_fakeMalloc (s : BTreeAlloc S) (build : Build)
    (hargs : 0 < size ∧ 0 < align) :
    ∃ s₁ s' pc fe, s.step build (.fakeMalloc size align) = some s₁ ∧
      s₁.calls[s.calls.length]? = some (.fakeMalloc size align .start) ∧
      s₁.step build (.run s.calls.length) = some s' ∧
      s'.calls[s.calls.length]? = some (.fakeMalloc size align pc) ∧
      s'.freeEntries = fe ∧ s'.allocatedAddrs = s.allocatedAddrs ∧
      (pc = .returned true ↔ ∃ upper, upperSize build size align = some upper ∧
        s.freeEntries.available build upper = true) ∧
      (fe = s.freeEntries ∨ s.freeEntries.merge build = .error fe ∨
        (∀ upper, upperSize build size align = some upper →
          s.freeEntries.sizes.firstFrom upper = none) ∧ s.freeEntries.merge build = .ok fe) := by
  have hstart : s.step build (.fakeMalloc size align) =
      some (s.called (.fakeMalloc size align .start)) := by
    simp only [step, if_pos hargs, called]
  have hrun : (s.called (.fakeMalloc size align .start)).step build (.run s.calls.length) =
      (s.called (.fakeMalloc size align .start)).runFakeMalloc build s.calls.length size align
        .start := by
    simp only [step, s.called_getElem?]
  have hfe : (s.called (.fakeMalloc size align .start)).freeEntries = s.freeEntries := rfl
  have hget := fun c => s.called_getElem? c
  simp only [runFakeMalloc, s.called_setCall, hfe] at hrun
  cases hupper : upperSize build size align with
  | none =>
    rw [hupper] at hrun
    exact ⟨_, _, .panicked, _, hstart, hget _, hrun, hget _, rfl, rfl, by simp, Or.inl rfl⟩
  | some upper =>
    simp only [hupper] at hrun
    by_cases hnow : (s.freeEntries.sizes.firstFrom upper).isSome
    · rw [if_pos hnow] at hrun
      exact ⟨_, _, .returned true, _, hstart, hget _, hrun, hget _, rfl, rfl,
        by simp [FreeEntries.available, hnow], Or.inl rfl⟩
    · have hnone : s.freeEntries.sizes.firstFrom upper = none := by simpa using hnow
      rw [if_neg hnow] at hrun
      cases hmerge : s.freeEntries.merge build with
      | error fe =>
        rw [hmerge] at hrun
        exact ⟨_, _, .panicked, fe, hstart, hget _, hrun, hget _, rfl, rfl,
          by simp [FreeEntries.available, hnone, hmerge], Or.inr (Or.inl rfl)⟩
      | ok fe =>
        rw [hmerge] at hrun
        refine ⟨_, _, .returned (fe.sizes.firstFrom upper).isSome, fe, hstart, hget _, hrun,
          hget _, rfl, rfl, by simp [FreeEntries.available, hnone, hmerge],
          Or.inr (Or.inr ⟨?_, rfl⟩)⟩
        rintro _ ⟨⟩
        exact hnone

/-- A second merge finds nothing more. -/
theorem BTreeAlloc.Sound.merge_merged (h : s.Sound build) {fe : FreeEntries S}
    (hmerge : s.freeEntries.merge build = .ok fe) :
    fe.merge build = .ok fe ∧ Blocks.Same s.freeEntries.blocks fe.blocks := by
  rcases h with h | ⟨-, h⟩
  · rcases h.merge with ⟨-, herror⟩ | ⟨-, hok⟩
    · rw [herror] at hmerge
      cases hmerge
    · rw [hok] at hmerge
      cases hmerge
      exact ⟨hok, .of_perm (.refl _)⟩
  · rcases h.merge with ⟨-, herror⟩ | ⟨fe', hnat, hok, hmirror, hsame, -, hin⟩
    · rw [herror] at hmerge
      cases hmerge
    · rw [hok] at hmerge
      cases hmerge
      have hmerged := FreeEntries.mergeNat_mergedTo h.mirror hnat
      have hne : fe.addrs.entries ≠ [] := by
        intro hnil
        have hfirst := hmerged.first
        rw [FreeEntries.firstAddr, FreeEntries.firstAddr, hnil, List.head?_nil, Option.map_none,
          eq_comm, Option.map_eq_none_iff, List.head?_eq_none_iff] at hfirst
        rw [FreeEntries.mergeNat, if_pos hfirst] at hnat
        cases hnat
      refine ⟨?_, hsame⟩
      rw [FreeEntries.merge_eq build h.bound hmirror hin,
        FreeEntries.mergeNat_of_apart hmirror hmerged.apart hne]

theorem BTreeAlloc.Sound.merge_error (h : s.Sound build) {fe : FreeEntries S}
    (hmerge : s.freeEntries.merge build = .error fe) : fe = s.freeEntries := by
  rcases h with h | ⟨-, h⟩
  · rcases h.merge with ⟨-, herror⟩ | ⟨-, hok⟩
    · rw [herror] at hmerge
      cases hmerge
      rfl
    · rw [hok] at hmerge
      cases hmerge
  · rcases h.merge with ⟨-, herror⟩ | ⟨fe', -, hok, -⟩
    · rw [herror] at hmerge
      cases hmerge
      rfl
    · rw [hok] at hmerge
      cases hmerge

theorem Reachable.fakeMalloc (hs : Reachable build s) (hargs : 0 < size ∧ 0 < align) :
    ∃ s' pc, Transition.run (BTreeAlloc.step build) s
        [.fakeMalloc size align, .run s.calls.length] = some s' ∧
      s'.calls[s.calls.length]? = some (.fakeMalloc size align pc) ∧
      (pc = .returned true ↔ s.Finds build size align) ∧
      (s'.Finds build size align ↔ s.Finds build size align) ∧
      s'.allocatedAddrs = s.allocatedAddrs ∧ ∀ x, s'.Free x ↔ s.Free x := by
  obtain ⟨s₁, s', pc, fe, hstep, hget, hrun, hcall, rfl, hallocated, hpc, hfe⟩ :=
    s.exists_fakeMalloc build hargs
  have hs' : Reachable build s' := by
    refine .step (a := .run s.calls.length) (.step (a := .fakeMalloc size align) hs trivial hstep)
      (fun c hc => ?_) hrun
    rw [hget] at hc
    cases hc
    trivial
  have hsound := hs.sound
  have hiff := hsound.finds_iff hargs
  have hsame : (∀ upper, upperSize build size align = some upper →
      s'.freeEntries.available build upper = s.freeEntries.available build upper) ∧
        Blocks.Same s.freeEntries.blocks s'.freeEntries.blocks := by
    rcases hfe with heq | herror | ⟨hnone, hmerge⟩
    · rw [heq]
      exact ⟨fun _ _ => rfl, .of_perm (.refl _)⟩
    · rw [hsound.merge_error herror]
      exact ⟨fun _ _ => rfl, .of_perm (.refl _)⟩
    · obtain ⟨hagain, hsame⟩ := hsound.merge_merged hmerge
      refine ⟨fun upper hupper => ?_, hsame⟩
      simp [FreeEntries.available, hnone upper hupper, hmerge, hagain]
  refine ⟨s', pc, ?_, hcall, hpc.trans hiff.symm, ?_, hallocated,
    fun x => ⟨FreeEntries.mem_of_same hsame.2.symm, FreeEntries.mem_of_same hsame.2⟩⟩
  · simp only [Transition.run, hstep, hrun]
  · rw [hs'.sound.finds_iff hargs, hiff]
    refine exists_congr fun upper => and_congr_right fun hupper => ?_
    rw [hsame.1 upper hupper]

/-- `fake_malloc` answers as `try_malloc` does next and leaves the free and the allocated bytes
as they are: in every state of a `BTreeAlloc`; of a `LinearAlloc` exactly if it does not give the
first block at an address that is no `usize`; of an `ObjAlloc` exactly if it is not asked for one
object with one slot left. -/
theorem fake_malloc_exact (S : Type) [LawfulIndexSet S] (build : Build) {size align : ℕ}
    (hsize : 0 < size) (halign : 0 < align) :
    (∀ a : LinearAlloc, (a.fakeMalloc build size align = some true ↔
      ∃ addr a', a.tryMalloc build size align = (some (some addr), a')) ↔
        ¬ a.Overflows build size align) ∧
    (∀ s : BTreeAlloc S, Reachable build s →
      ∃ s' pc, Transition.run (BTreeAlloc.step build) s
          [.fakeMalloc size align, .run s.calls.length] = some s' ∧
        s'.calls[s.calls.length]? = some (.fakeMalloc size align pc) ∧
        (pc = .returned true ↔ s.Finds build size align) ∧
        (s'.Finds build size align ↔ s.Finds build size align) ∧
        s'.allocatedAddrs = s.allocatedAddrs ∧ ∀ x, s'.Free x ↔ s.Free x) ∧
    ∀ a : ObjAlloc,
      (a.fakeMalloc size = some true ↔ ∃ addr a', a.tryMalloc size = some (some addr, a')) ↔
        ¬ (size = 1 ∧ a.freeEntries.length = 1) :=
  ⟨fun a => a.fakeMalloc_iff, fun _ hs => hs.fakeMalloc ⟨hsize, halign⟩,
    fun a => a.fakeMalloc_iff size⟩

/-- A `BTreeAlloc` of 16 bytes that is asked for 4 bytes aligned to 8 -/
theorem fake_malloc_exact_btree : ∃ s s' : BTreeAlloc ItemList, s.freeEntries.blocks = [(0, 16)] ∧
    Transition.run (BTreeAlloc.step .checked) s [.fakeMalloc 4 8, .run 0] = some s' ∧
      ∀ x, s'.Free x ↔ s.Free x := by
  have hs : Reachable .checked ((BTreeAlloc.new : BTreeAlloc ItemList).init 0 16) :=
    .step (a := .init 0 16) (.init rfl) (by decide) rfl
  obtain ⟨s', -, hrun, -, -, -, -, hfree⟩ :=
    (@fake_malloc_exact ItemList _ .checked 4 8 (by decide) (by decide)).2.1 _ hs
  exact ⟨_, s', rfl, hrun, hfree⟩

/-- An `ObjAlloc` for one byte -/
theorem obj_last_slot : ∃ a, ObjAlloc.init .checked 1 1 0 1 = some a ∧
    a.fakeMalloc 1 = some false ∧ a.tryMalloc 1 = some (some 0, ⟨[], 0, 1⟩) :=
  ⟨⟨[0], 0, 1⟩, by decide, by decide, by decide⟩

end Lamellar.Alloc
