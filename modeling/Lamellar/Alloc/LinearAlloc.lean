import Lamellar.Alloc.FreeEntries
import Lamellar.Lib.Transition
import Lamellar.Lib.Word
import Mathlib.Algebra.Order.BigOperators.Group.List
import Mathlib.Algebra.Order.Ring.Nat

/-!
# The linear heap: `LinearAlloc` of `src/lamellar_alloc.rs`

First fit over a sorted list of the allocated blocks. `init` has the allocator for itself,
`try_malloc`, `fake_malloc` and `free` hold the lock of the entries from beginning to end: each of
them is one step.

`try_malloc` compares with the end of the region, except when nothing is allocated: there it
leaves out where the region starts, so that a block may reach past its end
(`linear_past_the_end`).
-/

namespace Lamellar.Alloc

structure Vma where
  /-- Where the padding begins -/
  addr : ℕ
  padding : ℕ
  size : ℕ
deriving DecidableEq

structure LinearAlloc where
  entries : List Vma
  startAddr : ℕ
  maxSize : ℕ
  lastIdx : ℕ
  freeSpace : ℕ
deriving DecidableEq

namespace LinearAlloc

def new : LinearAlloc := ⟨[], 0, 0, 0, 0⟩

def init (a : LinearAlloc) (startAddr size : ℕ) : LinearAlloc :=
  { a with startAddr := startAddr, maxSize := size, freeSpace := size }

/-- The loop of `try_malloc`: `prev_end` and `idx` when it ends. -/
def firstFit (build : Build) (size align : ℕ) : ℕ → ℕ → List Vma → Option (ℕ × ℕ)
  | prevEnd, idx, [] => some (prevEnd, idx)
  | prevEnd, idx, e :: es =>
    match build.sub e.addr prevEnd, build.result (size + calcPadding prevEnd align) with
    | some gap, some full =>
      if full ≤ gap then some (prevEnd, idx)
      else
        (build.result (e.addr + e.size + e.padding)).bind fun prevEnd =>
          firstFit build size align prevEnd (idx + 1) es
    | _, _ => none

/-- The result, or none where it panics, and the allocator afterwards -/
def tryMalloc (build : Build) (a : LinearAlloc) (size align : ℕ) :
    Option (Option ℕ) × LinearAlloc :=
  if 0 < a.entries.length then
    match firstFit build size align a.startAddr 0 a.entries with
    | none => (none, a)
    | some (prevEnd, idx) =>
      let padding := calcPadding prevEnd align
      match build.result (prevEnd + size + padding), build.result (a.startAddr + a.maxSize) with
      | some stop, some regionEnd =>
        if stop ≤ regionEnd then
          let a := { a with entries := a.entries.insertIdx idx { addr := prevEnd, padding, size } }
          match build.result (size + padding) with
          | none => (none, a)
          | some full =>
            ((build.result (prevEnd + padding)).map some,
              { a with freeSpace := wrappingSub a.freeSpace full })
        else (some none, a)
      | _, _ => (none, a)
  else
    let padding := calcPadding a.startAddr align
    match build.result (size + padding), build.result (a.startAddr + a.maxSize) with
    | some full, some regionEnd =>
      if full ≤ regionEnd then
        ((build.result (a.startAddr + padding)).map some,
          { a with
            entries := a.entries ++ [{ addr := a.startAddr, padding, size }]
            freeSpace := wrappingSub a.freeSpace full })
      else (some none, a)
    | _, _ => (none, a)

/-- The loop of `free`: the index of the entry that is removed. -/
def find (build : Build) (addr : ℕ) : ℕ → List Vma → Option (Option ℕ)
  | _, [] => some none
  | i, e :: es =>
    match build.sub addr e.padding with
    | some unpadded => if unpadded = e.addr then some (some i) else find build addr (i + 1) es
    | none => none

/-- None where it panics, before it changes anything -/
def free (build : Build) (a : LinearAlloc) (addr : ℕ) : Option (Except ℕ Unit × LinearAlloc) :=
  match find build addr 0 a.entries with
  | some (some i) =>
    a.entries[i]?.bind fun e =>
      (build.result (e.size + e.padding)).map fun full =>
        let entries := a.entries.eraseIdx i
        (.ok (),
          { a with
            entries
            freeSpace := wrappingAdd a.freeSpace full
            lastIdx :=
              if entries.length ≤ a.lastIdx ∧ a.lastIdx ≠ 0 then a.lastIdx - 1 else a.lastIdx })
  | some none => some (.error addr, a)
  | none => none

end LinearAlloc

/-- What a caller has been given. -/
structure Grant where
  addr : ℕ
  size : ℕ
  align : ℕ

/-- The allocator and what its callers have and have not freed. -/
structure LinearHeap where
  alloc : LinearAlloc
  granted : List Grant

inductive LinearAction where
  | init (startAddr size : ℕ)
  | tryMalloc (size align : ℕ)
  | free (addr : ℕ)

namespace LinearHeap

def step (build : Build) (h : LinearHeap) : LinearAction → Option LinearHeap
  | .init startAddr size => some { h with alloc := h.alloc.init startAddr size }
  | .tryMalloc size align =>
    if 0 < size ∧ 0 < align then
      match h.alloc.tryMalloc build size align with
      | (some (some addr), alloc) => some ⟨alloc, { addr, size, align } :: h.granted⟩
      | (_, alloc) => some { h with alloc }
    else none
  | .free addr =>
    match h.alloc.free build addr with
    | some (.ok (), alloc) => some ⟨alloc, h.granted.filter fun g => g.addr ≠ addr⟩
    | some (.error _, alloc) => some { h with alloc }
    | none => some h

/-- What the allocator promises between the calls. -/
structure Sound (h : LinearHeap) : Prop where
  /-- The entries are sorted and have no byte in common. -/
  sorted : h.alloc.entries.Pairwise fun e f => e.addr + e.padding + e.size ≤ f.addr
  inside : ∀ e ∈ h.alloc.entries, 0 < e.size ∧ h.alloc.startAddr ≤ e.addr ∧
    e.addr + e.padding + e.size ≤ h.alloc.startAddr + h.alloc.maxSize
  /-- The entries are what the callers have been given. -/
  granted : (h.granted.map fun g => (g.addr, g.size)).Perm
    (h.alloc.entries.map fun e => (e.addr + e.padding, e.size))
  aligned : ∀ g ∈ h.granted, g.align ∣ g.addr
  freeSpace : h.alloc.freeSpace + (h.alloc.entries.map fun e => e.size + e.padding).sum =
    h.alloc.maxSize
  region : h.alloc.startAddr + h.alloc.maxSize < word

/-- The region ends below `word` and is not changed while something is allocated, and where nothing
is allocated a request does not fit only because of where the region starts. -/
def Keeps (h : LinearHeap) : LinearAction → Prop
  | .init startAddr size => h.alloc.entries = [] ∧ startAddr + size < word
  | .tryMalloc size align =>
    h.alloc.entries = [] →
      let full := size + calcPadding h.alloc.startAddr align
      full ≤ h.alloc.startAddr + h.alloc.maxSize → full ≤ h.alloc.maxSize
  | .free _ => True

/-- Without overflow checks, no block that would begin where the region or an entry ends is so
large that its end wraps around. -/
def NoWrap (build : Build) (h : LinearHeap) : LinearAction → Prop
  | .tryMalloc size align => build = .checked ∨
    ∀ p ∈ h.alloc.startAddr :: h.alloc.entries.map fun e => e.addr + e.size + e.padding,
      p + size + calcPadding p align < word
  | .init _ _ | .free _ => True

end LinearHeap

/-! ## `try_malloc` -/

theorem insertIdx_length {α : Type} (pre post : List α) (x : α) :
    (pre ++ post).insertIdx pre.length x = pre ++ x :: post := by
  induction pre with
  | nil => cases post <;> rfl
  | cons y pre ih => simp only [List.cons_append, List.length_cons, List.insertIdx_succ_cons, ih]

variable {build : Build} {size align : ℕ}

/-- The loop ends at the end of one entry, in front of the next one the block fits; or a sum
panics. -/
theorem LinearAlloc.firstFit_spec {es : List Vma} {prevEnd : ℕ} (idx : ℕ)
    (hsorted : es.Pairwise fun e f => e.addr + e.padding + e.size ≤ f.addr)
    (hfrom : ∀ e ∈ es, prevEnd ≤ e.addr) (hword : ∀ e ∈ es, e.addr + e.padding + e.size < word)
    (hwrap : build = .checked ∨
      ∀ p ∈ prevEnd :: es.map fun e => e.addr + e.size + e.padding,
        p + size + calcPadding p align < word) :
    firstFit build size align prevEnd idx es = none ∨
    ∃ pre post p, es = pre ++ post ∧
      firstFit build size align prevEnd idx es = some (p, idx + pre.length) ∧ prevEnd ≤ p ∧
      (∀ e ∈ pre, e.addr + e.padding + e.size ≤ p) ∧
      (∀ e ∈ post, p + calcPadding p align + size ≤ e.addr) ∧
      (build = .checked ∨ p + size + calcPadding p align < word) := by
  induction es generalizing prevEnd idx with
  | nil =>
    refine Or.inr ⟨[], [], prevEnd, rfl, rfl, Nat.le_refl _, by simp, by simp, ?_⟩
    exact hwrap.imp_right fun hall => hall prevEnd List.mem_cons_self
  | cons e es ih =>
    obtain ⟨hnext, hsorted⟩ := List.pairwise_cons.mp hsorted
    have hle := hfrom e List.mem_cons_self
    have hend := hword e List.mem_cons_self
    have hhere : build = .checked ∨ prevEnd + size + calcPadding prevEnd align < word :=
      hwrap.imp_right fun hall => hall prevEnd List.mem_cons_self
    rw [firstFit, build.sub_of_le hle]
    cases hfull : build.result (size + calcPadding prevEnd align) with
    | none => exact Or.inl rfl
    | some full =>
      obtain ⟨rfl, -⟩ := Build.result_eq hfull (hhere.imp_right fun h => by omega)
      simp only
      split
      · refine Or.inr ⟨[], e :: es, prevEnd, rfl, rfl, Nat.le_refl _, by simp, ?_, hhere⟩
        intro f hf
        rcases List.mem_cons.mp hf with rfl | hf
        · omega
        · have := hnext f hf
          omega
      · have hlater : ∀ f ∈ es, e.addr + e.size + e.padding ≤ f.addr := by
          intro f hf
          have := hnext f hf
          omega
        rw [build.result_of_lt (show e.addr + e.size + e.padding < word by omega),
          Option.bind_some]
        rcases ih (idx + 1) hsorted hlater (fun f hf => hword f (List.mem_cons_of_mem _ hf))
          (hwrap.imp_right fun hall p hp => hall p (List.mem_cons_of_mem _ hp)) with
          hnone | ⟨pre, post, p, rfl, hfit, hp, hpre, hpost, hwrap'⟩
        · exact Or.inl hnone
        · refine Or.inr ⟨e :: pre, post, p, rfl, ?_, by omega, fun f hf => ?_, hpost, hwrap'⟩
          · rw [hfit, List.length_cons, Nat.add_right_comm, Nat.add_assoc]
          · rcases List.mem_cons.mp hf with rfl | hf
            · omega
            · exact hpre f hf

/-- Entries between two addresses are not longer than what lies between them. -/
theorem add_sum_le {es : List Vma} {start stop : ℕ} (hle : start ≤ stop)
    (hsorted : es.Pairwise fun e f => e.addr + e.padding + e.size ≤ f.addr)
    (hinside : ∀ e ∈ es, start ≤ e.addr ∧ e.addr + e.padding + e.size ≤ stop) :
    start + (es.map fun e => e.size + e.padding).sum ≤ stop := by
  induction es generalizing start with
  | nil => simpa using hle
  | cons e es ih =>
    obtain ⟨hnext, hsorted⟩ := List.pairwise_cons.mp hsorted
    obtain ⟨hstart, hstop⟩ := hinside e List.mem_cons_self
    have hrest := ih hstop hsorted fun f hf =>
      ⟨hnext f hf, (hinside f (List.mem_cons_of_mem _ hf)).2⟩
    rw [List.map_cons, List.sum_cons]
    omega

namespace LinearHeap

variable {h h' : LinearHeap}

/-- A block between the entries `pre` and `post`. -/
theorem Sound.insert (hs : h.Sound) {pre post : List Vma} {p : ℕ} (hsize : 0 < size)
    (halign : 0 < align) (hentries : h.alloc.entries = pre ++ post)
    (hpre : ∀ e ∈ pre, e.addr + e.padding + e.size ≤ p)
    (hpost : ∀ e ∈ post, p + calcPadding p align + size ≤ e.addr)
    (hstart : h.alloc.startAddr ≤ p)
    (hend : p + calcPadding p align + size ≤ h.alloc.startAddr + h.alloc.maxSize) :
    Sound
      { alloc :=
          { h.alloc with
            entries := pre ++ { addr := p, padding := calcPadding p align, size } :: post
            freeSpace := wrappingSub h.alloc.freeSpace (size + calcPadding p align) }
        granted := { addr := p + calcPadding p align, size, align } :: h.granted } := by
  have hsorted := hs.sorted
  have hinside := hs.inside
  have hfree := hs.freeSpace
  have hgranted := hs.granted
  rw [hentries] at hsorted hinside hfree hgranted
  obtain ⟨hsortedPre, hsortedPost, hacross⟩ := List.pairwise_append.mp hsorted
  have hsumPre := add_sum_le hstart hsortedPre fun e he =>
    ⟨(hinside e (List.mem_append_left _ he)).2.1, hpre e he⟩
  have hsumPost := add_sum_le hend hsortedPost fun e he =>
    ⟨hpost e he, (hinside e (List.mem_append_right _ he)).2.2⟩
  rw [List.map_append, List.sum_append] at hfree
  have hregion := hs.region
  refine ⟨?_, ?_, ?_, ?_, ?_, hs.region⟩
  · refine List.pairwise_append.mpr ⟨hsortedPre, ?_, fun e he f hf => ?_⟩
    · exact List.pairwise_cons.mpr ⟨hpost, hsortedPost⟩
    · rcases List.mem_cons.mp hf with rfl | hf
      · exact hpre e he
      · exact hacross e he f hf
  · intro e he
    rcases List.mem_append.mp he with he | he
    · exact hinside e (List.mem_append_left _ he)
    · rcases List.mem_cons.mp he with rfl | he
      · exact ⟨hsize, hstart, hend⟩
      · exact hinside e (List.mem_append_right _ he)
  · simp only [List.map_append, List.map_cons] at hgranted ⊢
    exact (hgranted.cons _).trans List.perm_middle.symm
  · intro g hg
    rcases List.mem_cons.mp hg with rfl | hg
    · exact dvd_add_calcPadding p halign
    · exact hs.aligned g hg
  · simp only [List.map_append, List.map_cons, List.sum_append, List.sum_cons]
    rw [wrappingSub_of_le (by omega) (by omega)]
    omega

/-- The entry at `e` is removed. -/
theorem Sound.remove (hs : h.Sound) {pre post : List Vma} {e : Vma}
    (hentries : h.alloc.entries = pre ++ e :: post) (lastIdx : ℕ) :
    Sound
      { alloc :=
          { h.alloc with
            entries := pre ++ post
            freeSpace := wrappingAdd h.alloc.freeSpace (e.size + e.padding)
            lastIdx }
        granted := h.granted.filter fun g => g.addr ≠ e.addr + e.padding } := by
  have hsorted := hs.sorted
  have hinside := hs.inside
  have hfree := hs.freeSpace
  have hgranted := hs.granted
  rw [hentries] at hsorted hinside hfree hgranted
  obtain ⟨hsortedPre, hsortedPost, hacross⟩ := List.pairwise_append.mp hsorted
  obtain ⟨hnext, hsortedPost⟩ := List.pairwise_cons.mp hsortedPost
  have hmem : ∀ f ∈ pre ++ post, f ∈ pre ++ e :: post := fun f hf => by
    rcases List.mem_append.mp hf with hf | hf
    · exact List.mem_append_left _ hf
    · exact List.mem_append_right _ (List.mem_cons_of_mem _ hf)
  have hother : ∀ f ∈ pre ++ post, f.addr + f.padding ≠ e.addr + e.padding := by
    intro f hf
    have hpos := (hinside f (hmem f hf)).1
    have hpos' := (hinside e (List.mem_append_right _ List.mem_cons_self)).1
    rcases List.mem_append.mp hf with hf | hf
    · have := hacross f hf e List.mem_cons_self
      omega
    · have := hnext f hf
      omega
  have hregion := hs.region
  refine ⟨?_, fun f hf => hinside f (hmem f hf), ?_, ?_, ?_, hs.region⟩
  · exact List.pairwise_append.mpr ⟨hsortedPre, hsortedPost, fun f hf g hg =>
      hacross f hf g (List.mem_cons_of_mem _ hg)⟩
  · have hfilter := hgranted.filter fun q => q.1 ≠ e.addr + e.padding
    rw [List.filter_map, List.filter_map] at hfilter
    have hkept : (pre ++ e :: post).filter
        ((fun q : ℕ × ℕ => decide (q.1 ≠ e.addr + e.padding)) ∘ fun f : Vma =>
          (f.addr + f.padding, f.size)) = pre ++ post := by
      rw [List.filter_append, List.filter_cons_of_neg (by simp), ← List.filter_append]
      exact List.filter_eq_self.mpr fun f hf => by simpa using hother f hf
    rw [hkept] at hfilter
    exact hfilter
  · exact fun g hg => hs.aligned g (List.mem_of_mem_filter hg)
  · simp only [List.map_append, List.map_cons, List.sum_append, List.sum_cons] at hfree ⊢
    rw [wrappingAdd_of_lt (by omega)]
    omega

theorem Sound.tryMalloc (hs : h.Sound) (hsize : 0 < size) (halign : 0 < align)
    (hkeeps : h.Keeps (.tryMalloc size align)) (hwrap : h.NoWrap build (.tryMalloc size align))
    (hstep : h.step build (.tryMalloc size align) = some h') : h'.Sound := by
  have hregion := hs.region
  simp only [step, if_pos (And.intro hsize halign), LinearAlloc.tryMalloc,
    build.result_of_lt hregion] at hstep
  by_cases hempty : 0 < h.alloc.entries.length
  · rw [if_pos hempty] at hstep
    rcases LinearAlloc.firstFit_spec 0 hs.sorted (fun e he => (hs.inside e he).2.1)
      (fun e he => Nat.lt_of_le_of_lt (hs.inside e he).2.2 hregion) hwrap with
      hnone | ⟨pre, post, p, hentries, hfit, hstart, hpre, hpost, hwrap'⟩
    · rw [hnone] at hstep
      cases hstep
      exact hs
    · rw [hfit, Nat.zero_add] at hstep
      simp only at hstep
      cases hstop : build.result (p + size + calcPadding p align) with
      | none =>
        rw [hstop] at hstep
        cases hstep
        exact hs
      | some stop =>
        obtain ⟨rfl, hlt⟩ := Build.result_eq hstop hwrap'
        simp only [hstop, build.result_of_lt (show size + calcPadding p align < word by omega),
          build.result_of_lt (show p + calcPadding p align < word by omega), Option.map_some]
          at hstep
        by_cases hend : p + size + calcPadding p align ≤ h.alloc.startAddr + h.alloc.maxSize
        · rw [if_pos hend] at hstep
          cases hstep
          rw [hentries, insertIdx_length]
          exact hs.insert hsize halign hentries hpre hpost hstart (by omega)
        · rw [if_neg hend] at hstep
          cases hstep
          exact hs
  · have hnil : h.alloc.entries = [] := by simpa using hempty
    rw [if_neg hempty] at hstep
    cases hfull : build.result (size + calcPadding h.alloc.startAddr align) with
    | none =>
      rw [hfull] at hstep
      cases hstep
      exact hs
    | some full =>
      have hfits : build = .checked ∨ size + calcPadding h.alloc.startAddr align < word :=
        hwrap.imp_right fun hall => by
          have := hall h.alloc.startAddr List.mem_cons_self
          omega
      obtain ⟨rfl, -⟩ := Build.result_eq hfull hfits
      simp only [hfull] at hstep
      by_cases hle : size + calcPadding h.alloc.startAddr align ≤
          h.alloc.startAddr + h.alloc.maxSize
      · have hend : size + calcPadding h.alloc.startAddr align ≤ h.alloc.maxSize := hkeeps hnil hle
        rw [if_pos hle, build.result_of_lt
          (show h.alloc.startAddr + calcPadding h.alloc.startAddr align < word by omega)] at hstep
        cases hstep
        rw [hnil]
        exact hs.insert hsize halign (hnil.trans (List.append_nil []).symm) (by simp) (by simp)
          (Nat.le_refl _) (by omega)
      · rw [if_neg hle] at hstep
        cases hstep
        exact hs

/-! ## `free` -/

theorem sub_eq_addr {addr unpadded : ℕ} {e : Vma} (hword : e.addr + e.padding < word)
    (hsub : build.sub addr e.padding = some unpadded) :
    unpadded = e.addr ↔ addr = e.addr + e.padding := by
  unfold Build.sub at hsub
  split at hsub
  · cases hsub
    omega
  · cases build with
    | checked => cases hsub
    | wrapping =>
      cases hsub
      constructor <;> omega

theorem find_eq_some {addr j : ℕ} {es : List Vma} (i : ℕ)
    (hword : ∀ e ∈ es, e.addr + e.padding < word)
    (hfind : LinearAlloc.find build addr i es = some (some j)) :
    ∃ pre e post, es = pre ++ e :: post ∧ j = i + pre.length ∧ addr = e.addr + e.padding := by
  induction es generalizing i with
  | nil => cases hfind
  | cons e es ih =>
    rw [LinearAlloc.find] at hfind
    split at hfind
    · rename_i unpadded hsub
      have haddr := sub_eq_addr (hword e List.mem_cons_self) hsub
      split at hfind
      · rename_i heq
        cases hfind
        exact ⟨[], e, es, rfl, rfl, haddr.mp heq⟩
      · obtain ⟨pre, f, post, rfl, rfl, hf⟩ :=
          ih (i + 1) (fun f hf => hword f (List.mem_cons_of_mem _ hf)) hfind
        exact ⟨e :: pre, f, post, rfl, by simp only [List.length_cons]; omega, hf⟩
    · cases hfind

/-- An address that is not allocated is compared with every entry. -/
theorem find_eq_none_iff {addr : ℕ} {es : List Vma} (i : ℕ)
    (hword : ∀ e ∈ es, e.addr + e.padding < word)
    (hother : ∀ e ∈ es, addr ≠ e.addr + e.padding) :
    LinearAlloc.find build addr i es = some none ↔
      build = .wrapping ∨ ∀ e ∈ es, e.padding ≤ addr := by
  induction es generalizing i with
  | nil => simp [LinearAlloc.find]
  | cons e es ih =>
    have hrest := ih (i + 1) (fun f hf => hword f (List.mem_cons_of_mem _ hf))
      fun f hf => hother f (List.mem_cons_of_mem _ hf)
    rw [LinearAlloc.find]
    cases hsub : build.sub addr e.padding with
    | some unpadded =>
      have hne : unpadded ≠ e.addr := fun heq =>
        hother e List.mem_cons_self ((sub_eq_addr (hword e List.mem_cons_self) hsub).mp heq)
      simp only [if_neg hne, hrest, List.forall_mem_cons]
      refine or_congr_right' fun hchecked => ?_
      have hle : e.padding ≤ addr := by
        by_contra hlt
        cases build with
        | checked =>
          rw [Build.sub_eq_none_iff.mpr ⟨rfl, Nat.lt_of_not_le hlt⟩] at hsub
          cases hsub
        | wrapping => exact hchecked rfl
      simp only [hle, true_and]
    | none =>
      obtain ⟨rfl, hlt⟩ := Build.sub_eq_none_iff.mp hsub
      simp [Nat.not_le.mpr hlt]

theorem Sound.addr_lt (hs : h.Sound) {e : Vma} (he : e ∈ h.alloc.entries) :
    e.addr + e.padding < word := by
  have hend := (hs.inside e he).2.2
  have hregion := hs.region
  omega

theorem Sound.free (hs : h.Sound) {addr : ℕ} (hstep : h.step build (.free addr) = some h') :
    h'.Sound := by
  simp only [step, LinearAlloc.free] at hstep
  cases hfind : LinearAlloc.find build addr 0 h.alloc.entries with
  | none =>
    simp only [hfind] at hstep
    cases hstep
    exact hs
  | some found =>
    cases found with
    | none =>
      simp only [hfind] at hstep
      cases hstep
      exact hs
    | some i =>
      obtain ⟨pre, e, post, hentries, rfl, rfl⟩ :=
        find_eq_some 0 (fun e he => hs.addr_lt he) hfind
      have hget : (pre ++ e :: post)[0 + pre.length]? = some e := by simp
      have herase : (pre ++ e :: post).eraseIdx (0 + pre.length) = pre ++ post := by
        rw [Nat.zero_add, List.eraseIdx_append_of_length_le (Nat.le_refl _), Nat.sub_self]
        rfl
      have hin := (hs.inside e (hentries ▸ List.mem_append_right _ List.mem_cons_self)).2.2
      have hregion := hs.region
      simp only [hfind] at hstep
      simp only [hentries, hget, herase, Option.bind_some, Option.map_some,
        build.result_of_lt (show e.size + e.padding < word by omega)] at hstep
      cases hstep
      exact hs.remove hentries _

/-! ## Runs -/

theorem Sound.init (hs : h.Sound) {startAddr size : ℕ}
    (hkeeps : h.Keeps (.init startAddr size))
    (hstep : h.step build (.init startAddr size) = some h') : h'.Sound := by
  obtain ⟨hnil, hregion⟩ := hkeeps
  cases hstep
  have hgranted : h.granted = [] := by
    have hperm := hs.granted
    rw [hnil] at hperm
    simpa using hperm.eq_nil
  refine ⟨?_, ?_, ?_, ?_, ?_, hregion⟩ <;> simp [LinearAlloc.init, hnil, hgranted]

theorem Sound.keeps_init (hs : h.Sound) {startAddr size : ℕ}
    (hstep : h.step build (.init startAddr size) = some h') (hs' : h'.Sound) :
    h.Keeps (.init startAddr size) := by
  cases hstep
  refine ⟨?_, hs'.region⟩
  have hfree := hs'.freeSpace
  simp only [LinearAlloc.init] at hfree
  by_contra hne
  obtain ⟨e, he⟩ := List.exists_mem_of_ne_nil _ hne
  have hpos := (hs.inside e he).1
  have hle := List.le_sum_of_mem
    (List.mem_map_of_mem (f := fun e : Vma => e.size + e.padding) he)
  omega

/-- What reaches past the end of the region is recorded, whatever the call returns. -/
theorem Sound.keeps_tryMalloc (hs : h.Sound)
    (hstep : h.step build (.tryMalloc size align) = some h') (hs' : h'.Sound) :
    h.Keeps (.tryMalloc size align) := by
  intro hnil full hle
  have hregion := hs.region
  have hempty : ¬ 0 < h.alloc.entries.length := by simp [hnil]
  have hfull : build.result (size + calcPadding h.alloc.startAddr align) = some full :=
    build.result_of_lt (Nat.lt_of_le_of_lt hle hregion)
  have hentries : h'.alloc.entries =
        [⟨h.alloc.startAddr, calcPadding h.alloc.startAddr align, size⟩] ∧
      h'.alloc.startAddr = h.alloc.startAddr ∧ h'.alloc.maxSize = h.alloc.maxSize := by
    simp only [step, LinearAlloc.tryMalloc, if_neg hempty, build.result_of_lt hregion, hfull,
      if_pos hle] at hstep
    split at hstep
    · cases hpadded : build.result (h.alloc.startAddr + calcPadding h.alloc.startAddr align) <;>
        rw [hpadded] at hstep <;> cases hstep <;> simp [hnil]
    · cases hstep
  have hinside := (hs'.inside _ (hentries.1 ▸ List.mem_singleton_self _)).2.2
  rw [hentries.2.1, hentries.2.2] at hinside
  simp only at hinside
  omega

theorem Sound.step_iff (hs : h.Sound) {a : LinearAction} (hwrap : h.NoWrap build a)
    (hstep : h.step build a = some h') : h'.Sound ↔ h.Keeps a := by
  cases a with
  | init startAddr size =>
    exact ⟨hs.keeps_init hstep, fun hkeeps => hs.init hkeeps hstep⟩
  | tryMalloc size align =>
    have hpos : 0 < size ∧ 0 < align := by
      by_contra hnot
      simp only [step, if_neg hnot] at hstep
      cases hstep
    exact ⟨hs.keeps_tryMalloc hstep, fun hkeeps =>
      hs.tryMalloc hpos.1 hpos.2 hkeeps hwrap hstep⟩
  | free addr => exact ⟨fun _ => trivial, fun _ => hs.free hstep⟩

theorem Sound.new : Sound ⟨.new, []⟩ := by
  refine ⟨?_, ?_, ?_, ?_, ?_, ?_⟩ <;> simp [LinearAlloc.new, word]

/-- What the allocator promises holds in every run whose steps keep it and wrap nothing around; of
the steps that wrap nothing around only these keep it; and of the addresses that are not allocated
`free` refuses all that are at least as large as every padding, the others too if the build has no
overflow checks. -/
theorem linear_sound (hs : Transition.Reach (· = ⟨.new, []⟩) (step build)
    (fun h a => h.Keeps a ∧ h.NoWrap build a) h) :
    h.Sound ∧
      (∀ a h', h.NoWrap build a → h.step build a = some h' → (h'.Sound ↔ h.Keeps a)) ∧
      ∀ addr, (∀ g ∈ h.granted, g.addr ≠ addr) →
        (h.alloc.free build addr = some (.error addr, h.alloc) ↔
          build = .wrapping ∨ ∀ e ∈ h.alloc.entries, e.padding ≤ addr) := by
  have hsound : h.Sound := hs.invariant (fun _ heq => heq ▸ .new) fun _ _ _ hprior hok hstep =>
    (hprior.step_iff hok.2 hstep).mpr hok.1
  refine ⟨hsound, fun a h' hwrap hstep => hsound.step_iff hwrap hstep, fun addr haddr => ?_⟩
  have hother : ∀ e ∈ h.alloc.entries, addr ≠ e.addr + e.padding := by
    intro e he heq
    have hmem := hsound.granted.mem_iff.mpr (List.mem_map_of_mem he)
    obtain ⟨g, hg, hgrant⟩ := List.mem_map.mp hmem
    exact haddr g hg ((congrArg Prod.fst hgrant).trans heq.symm)
  rw [← find_eq_none_iff 0 (fun e he => hsound.addr_lt he) hother]
  unfold LinearAlloc.free
  cases hfind : LinearAlloc.find build addr 0 h.alloc.entries with
  | none => simp
  | some found =>
    cases found with
    | none => simp
    | some i =>
      obtain ⟨pre, e, post, hentries, -, heq⟩ :=
        find_eq_some 0 (fun e he => hsound.addr_lt he) hfind
      exact absurd heq (hother e (hentries ▸ List.mem_append_right _ List.mem_cons_self))

instance (h : LinearHeap) : ∀ a, Decidable (h.Keeps a)
  | .init startAddr size =>
    inferInstanceAs (Decidable (h.alloc.entries = [] ∧ startAddr + size < word))
  | .tryMalloc size align => inferInstanceAs (Decidable (h.alloc.entries = [] →
      size + calcPadding h.alloc.startAddr align ≤ h.alloc.startAddr + h.alloc.maxSize →
        size + calcPadding h.alloc.startAddr align ≤ h.alloc.maxSize))
  | .free _ => .isTrue trivial

instance (build : Build) (h : LinearHeap) : ∀ a, Decidable (h.NoWrap build a)
  | .tryMalloc size align => inferInstanceAs (Decidable (build = .checked ∨
    ∀ p ∈ h.alloc.startAddr :: h.alloc.entries.map fun e => e.addr + e.size + e.padding,
      p + size + calcPadding p align < word))
  | .init _ _ | .free _ => .isTrue trivial

/-- In a region of 16 bytes from address 8 on: 3 bytes, then 4 bytes that are aligned to 8. -/
theorem linear_sound_aligned : ∃ h : LinearHeap,
    h.alloc.entries = [⟨8, 0, 3⟩, ⟨11, 5, 4⟩] ∧ h.alloc.freeSpace = 4 ∧ h.Sound := by
  have hrun : ∃ h, Transition.run (Transition.guarded (step .wrapping)
      fun h a => h.Keeps a ∧ h.NoWrap .wrapping a) ⟨.new, []⟩
      [.init 8 16, .tryMalloc 3 1, .tryMalloc 4 8] = some h ∧
        h.alloc.entries = [⟨8, 0, 3⟩, ⟨11, 5, 4⟩] ∧ h.alloc.freeSpace = 4 :=
    ⟨_, rfl, rfl, rfl⟩
  obtain ⟨h, hrun, hentries, hfree⟩ := hrun
  exact ⟨h, hentries, hfree, (linear_sound (Transition.Reach.run_guarded (.init rfl) hrun)).1⟩

/-- A block of 12 bytes in a region of 4 bytes from address 8 on. -/
theorem linear_past_the_end : ∃ h, Transition.Reach (· = ⟨.new, []⟩) (step .wrapping)
    (fun _ _ => True) h ∧ h.alloc.startAddr = 8 ∧ h.alloc.maxSize = 4 ∧
      h.alloc.entries = [⟨8, 0, 12⟩] ∧ ¬ h.Sound := by
  have hrun : ∃ h, Transition.run (step .wrapping) ⟨.new, []⟩
      [.init 8 4, .tryMalloc 12 1] = some h ∧ h.alloc.startAddr = 8 ∧ h.alloc.maxSize = 4 ∧
        h.alloc.entries = [⟨8, 0, 12⟩] :=
    ⟨_, rfl, rfl, rfl, rfl⟩
  obtain ⟨h, hrun, hstart, hsize, hentries⟩ := hrun
  refine ⟨h, Transition.Reach.run (.init rfl) hrun, hstart, hsize, hentries, fun hs => ?_⟩
  have hend := (hs.inside ⟨8, 0, 12⟩ (by rw [hentries]; exact List.mem_singleton_self _)).2.2
  rw [hstart, hsize] at hend
  exact absurd hend (by decide)

end LinearHeap

end Lamellar.Alloc
