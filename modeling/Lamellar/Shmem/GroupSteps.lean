import Lamellar.Shmem.GroupInvariant

/-!
# The accesses of `ShmemAlloc::alloc`

A PE goes on in its call, and the others stay where they are. Most accesses change one word, or only
read.
-/

namespace Lamellar.Shmem

open AllocState

variable {numPes : ℕ} {s s' : AllocState numPes} {pe r q : ℕ} {c : AllocCall}
  {next : Option AllocCall} {g g' : AllocGroup numPes} {f : ShmemFile}

/-- PE `pe` goes on from its call `c` to `next`; it leaves if this is none. -/
structure Moves (s s' : AllocState numPes) (pe : ℕ) (c : AllocCall) (next : Option AllocCall) :
    Prop where
  call : s.calls pe = some c
  calls : s'.calls = Function.update s.calls pe next
  rounds : s'.rounds = s.rounds
  round : ∀ c' ∈ next, c'.round = c.round

theorem stage_some {c' : AllocCall} (hround : c'.round = c.round) :
    AllocCall.stage c.round (some c') = c'.pc.rank := if_pos hround

namespace Moves

theorem goOn {c' : AllocCall} (hc : s.calls pe = some c)
    (hcalls : s'.calls = Function.update s.calls pe (some c')) (hround : c'.round = c.round)
    (hrounds : s'.rounds = s.rounds) : Moves s s' pe c (some c') where
  call := hc
  calls := hcalls
  rounds := hrounds
  round d hd := by
    obtain rfl := Option.some.inj hd
    exact hround

theorem calls_self (hm : Moves s s' pe c next) : s'.calls pe = next := by
  rw [hm.calls, Function.update_self]

theorem calls_of_ne (hm : Moves s s' pe c next) (hq : q ≠ pe) : s'.calls q = s.calls q := by
  rw [hm.calls, Function.update_of_ne hq]

theorem stage_self (hm : Moves s s' pe c next) :
    s'.stage c.round pe = AllocCall.stage c.round next := by
  rw [stage, hm.calls_self]

theorem stage_of_ne (hm : Moves s s' pe c next) (hq : q ≠ pe) : s'.stage r q = s.stage r q := by
  rw [stage, stage, hm.calls_of_ne hq]

theorem stage_round (hm : Moves s s' pe c next) (hr : r ≠ c.round) :
    s'.stage r q = s.stage r q := by
  by_cases hq : q = pe
  · rw [hq, Shmem.stage_of_ne hm.call hr.symm, stage, hm.calls_self]
    cases next with
    | none => rfl
    | some c' => exact if_neg ((hm.round c' rfl).symm ▸ hr.symm)
  · exact hm.stage_of_ne hq

/-- The stage of a PE in a round is that of before unless it is that of the access. -/
theorem stage_cases (hm : Moves s s' pe c next) (r q : ℕ) :
    (r = c.round ∧ q = pe ∧ s.stage r q = c.pc.rank ∧
      s'.stage r q = AllocCall.stage c.round next) ∨ s'.stage r q = s.stage r q := by
  by_cases hr : r = c.round
  · by_cases hq : q = pe
    · subst hr hq
      exact .inl ⟨rfl, rfl, stage_of_call hm.call, hm.stage_self⟩
    · exact .inr (hm.stage_of_ne hq)
  · exact .inr (hm.stage_round hr)

theorem stage_le (hm : Moves s s' pe c next) (hle : c.pc.rank ≤ AllocCall.stage c.round next)
    (r q : ℕ) : s.stage r q ≤ s'.stage r q := by
  rcases hm.stage_cases r q with ⟨-, -, hbefore, hafter⟩ | hsame
  · rw [hbefore, hafter]
    exact hle
  · exact hsame.ge

/-- Files with their mappings stay, and new ones come at the end. -/
theorem extends_of_files (hm : Moves s s' pe c next)
    (hle : c.pc.rank ≤ AllocCall.stage c.round next)
    (hfiles : ∀ (i : ℕ) (f : ShmemFile), s.files[i]? = some f → ∃ f', s'.files[i]? = some f' ∧
      f'.size = f.size ∧ f'.id = f.id ∧ f'.round = f.round ∧ f.mapped ⊆ f'.mapped) :
    Extends s s' where
  rounds _ _ hr := hm.rounds ▸ hr
  stage r _ _ q := hm.stage_le hle r q
  files := hfiles

theorem extends_of_eq (hm : Moves s s' pe c next)
    (hle : c.pc.rank ≤ AllocCall.stage c.round next) (hfiles : s'.files = s.files) :
    Extends s s' :=
  hm.extends_of_files hle fun _ f hf => ⟨f, hfiles ▸ hf, rfl, rfl, rfl, List.Subset.refl _⟩

end Moves

/-! ## The gates -/

theorem Gate.moves {b : ℕ} {pes : List ℕ} {stage stage' : ℕ → ℕ} (h : Gate b pes stage)
    (hne : ∀ q, q ≠ pe → stage' q = stage q) (hle : stage pe ≤ stage' pe)
    (hpass : stage pe ≤ b + 1 → b + 1 < stage' pe → ∀ p ∈ pes, b < stage p) :
    Gate b pes stage' := by
  intro p hp q hq hb
  have hbefore : stage p ≤ b := by
    by_cases hself : p = pe
    · rw [hself] at hb ⊢
      exact hle.trans hb
    · rwa [hne p hself] at hb
  have hgate := h p hp q hq hbefore
  by_cases hself : q = pe
  · subst hself
    by_contra hbeyond
    have hall := hpass hgate (Nat.lt_of_not_le hbeyond) p hp
    omega
  · rw [hne q hself]
    exact hgate

/-- Where an access goes from rank `m` to rank `n`, all members have come to the gates that it goes
through. -/
structure Passes (s : AllocState numPes) (r : ℕ) (g : AllocGroup numPes) (m n : ℕ) : Prop where
  gathered : m ≤ 5 → 5 < n → ∀ q ∈ g.pes, 4 < s.stage r q
  counted : m ≤ 12 → 12 < n → ∀ q ∈ g.pes, 11 < s.stage r q
  cleared : m ≤ 15 → 15 < n → ∀ q ∈ g.pes, 14 < s.stage r q

theorem Passes.of_le {m n : ℕ} (h : ∀ b ∈ [5, 12, 15], b < n → b < m) : Passes s r g m n where
  gathered hm hn := absurd (h 5 (by decide) hn) (Nat.not_lt_of_le hm)
  counted hm hn := absurd (h 12 (by decide) hn) (Nat.not_lt_of_le hm)
  cleared hm hn := absurd (h 15 (by decide) hn) (Nat.not_lt_of_le hm)

theorem GatesOk.moves (h : GatesOk s) (hm : Moves s s' pe c next)
    (hr : s.rounds[c.round]? = some g) (hle : c.pc.rank ≤ AllocCall.stage c.round next)
    (hpass : Passes s c.round g c.pc.rank (AllocCall.stage c.round next)) : GatesOk s' := by
  have hgate {b : ℕ} (hgates : ∀ (r : ℕ) (g : AllocGroup numPes), s.rounds[r]? = some g →
      Gate b g.pes (s.stage r)) (hpass : c.pc.rank ≤ b + 1 →
        b + 1 < AllocCall.stage c.round next → ∀ q ∈ g.pes, b < s.stage c.round q) (r : ℕ)
      (g' : AllocGroup numPes) (hr' : s'.rounds[r]? = some g') : Gate b g'.pes (s'.stage r) := by
    rw [hm.rounds] at hr'
    by_cases hround : r = c.round
    · subst hround
      obtain rfl := Option.some.inj (hr.symm.trans hr')
      refine (hgates _ g hr).moves (fun q hq => hm.stage_of_ne hq) (hm.stage_le hle _ _) ?_
      rw [stage_of_call hm.call, hm.stage_self]
      exact hpass
    · have hsame : s'.stage r = s.stage r := funext fun q => hm.stage_round hround
      rw [hsame]
      exact hgates r g' hr'
  exact ⟨hgate h.gathered hpass.gathered, hgate h.counted hpass.counted,
    hgate h.cleared hpass.cleared⟩

/-! ## The words -/

theorem Moves.holds_of_holds (hm : Moves s s' pe c next) (hr : s.rounds[c.round]? = some g)
    (hself : pe = g.firstPe → 2 ≤ AllocCall.stage c.round next → AllocCall.stage c.round next ≤ 17 →
      2 ≤ c.pc.rank) (h : s'.Holds r g') : s.Holds r g' := by
  have hround := h.round
  rw [hm.rounds] at hround
  have hlow := h.two_le
  have hhigh := h.le
  rcases hm.stage_cases r g'.firstPe with ⟨rfl, hfirst, hbefore, hafter⟩ | hsame
  · obtain rfl := Option.some.inj (hr.symm.trans hround)
    rw [hafter] at hlow hhigh
    have hrank := hself hfirst.symm hlow hhigh
    have := c.pc.rank_lt
    exact ⟨hround, by omega, by omega⟩
  · exact ⟨hround, by omega, by omega⟩

theorem Moves.holds_of_prior (hm : Moves s s' pe c next) (hr : s.rounds[c.round]? = some g)
    (hself : pe = g.firstPe → 2 ≤ c.pc.rank → 2 ≤ AllocCall.stage c.round next ∧
      AllocCall.stage c.round next ≤ 17) (h : s.Holds r g') : s'.Holds r g' := by
  have hlow := h.two_le
  have hhigh := h.le
  have hround : s'.rounds[r]? = some g' := hm.rounds ▸ h.round
  rcases hm.stage_cases r g'.firstPe with ⟨rfl, hfirst, hbefore, hafter⟩ | hsame
  · obtain rfl := Option.some.inj (hr.symm.trans h.round)
    obtain ⟨hlow', hhigh'⟩ := hself hfirst.symm (hbefore ▸ hlow)
    exact ⟨hround, by omega, by omega⟩
  · exact ⟨hround, by omega, by omega⟩

theorem WordsOk.barrier1_moves (h : WordsOk s) (hm : Moves s s' pe c next) (hid : s'.id = s.id)
    (hbarrier1 : s'.barrier1 = Function.update s.barrier1 pe (AllocCall.markWord s.id next))
    (q : ℕ) : s'.barrier1 q = AllocCall.markWord s'.id (s'.calls q) := by
  rw [hbarrier1, hid]
  by_cases hq : q = pe
  · rw [hq, Function.update_self, hm.calls_self]
  · rw [Function.update_of_ne hq, hm.calls_of_ne hq, h.barrier1]

theorem WordsOk.barrier2_moves (h : WordsOk s) (hm : Moves s s' pe c next)
    (hbarrier2 : s'.barrier2 = Function.update s.barrier2 pe (AllocCall.addrWord next)) (q : ℕ) :
    s'.barrier2 q = AllocCall.addrWord (s'.calls q) := by
  rw [hbarrier2]
  by_cases hq : q = pe
  · rw [hq, Function.update_self, hm.calls_self]
  · rw [Function.update_of_ne hq, hm.calls_of_ne hq, h.barrier2]

theorem WordsOk.id_pos_moves (h : WordsOk s) (hm : Moves s s' pe c next)
    (hr : s.rounds[c.round]? = some g)
    (hself : pe = g.firstPe → 3 ≤ AllocCall.stage c.round next → 3 ≤ c.pc.rank)
    (hround : s'.rounds[r]? = some g') (hlow : 3 ≤ s'.stage r g'.firstPe) : 0 < s.id := by
  rw [hm.rounds] at hround
  refine h.id_pos r g' hround ?_
  rcases hm.stage_cases r g'.firstPe with ⟨rfl, hfirst, hbefore, hafter⟩ | hsame
  · obtain rfl := Option.some.inj (hr.symm.trans hround)
    rw [hbefore]
    exact hself hfirst.symm (hafter ▸ hlow)
  · exact hsame ▸ hlow

/-- An access that leaves the mutex and the id, and sets the words of its PE -/
theorem WordsOk.moves (h : WordsOk s) (hm : Moves s s' pe c next)
    (hr : s.rounds[c.round]? = some g)
    (hself : pe = g.firstPe → (2 ≤ c.pc.rank ↔ 2 ≤ AllocCall.stage c.round next) ∧
      (3 ≤ AllocCall.stage c.round next → 3 ≤ c.pc.rank) ∧ AllocCall.stage c.round next ≤ 17)
    (hmutex : s'.mutex = s.mutex) (hid : s'.id = s.id)
    (hbarrier1 : s'.barrier1 = Function.update s.barrier1 pe (AllocCall.markWord s.id next))
    (hbarrier2 : s'.barrier2 = Function.update s.barrier2 pe (AllocCall.addrWord next)) :
    WordsOk s' where
  unique r g₁ h₁ r' g₂ h₂ :=
    h.unique r g₁ (hm.holds_of_holds hr (fun hfirst hlow _ => (hself hfirst).1.mpr hlow) h₁)
      r' g₂ (hm.holds_of_holds hr (fun hfirst hlow _ => (hself hfirst).1.mpr hlow) h₂)
  mutex := by
    rw [hmutex, h.mutex]
    constructor
    · rintro ⟨r, g', hholds⟩
      exact ⟨r, g', hm.holds_of_prior hr
        (fun hfirst hlow => ⟨(hself hfirst).1.mp hlow, (hself hfirst).2.2⟩) hholds⟩
    · rintro ⟨r, g', hholds⟩
      exact ⟨r, g', hm.holds_of_holds hr (fun hfirst hlow _ => (hself hfirst).1.mpr hlow) hholds⟩
  id_pos r g' hround hlow := by
    rw [hid]
    exact h.id_pos_moves hm hr (fun hfirst => (hself hfirst).2.1) hround hlow
  barrier1 := h.barrier1_moves hm hid hbarrier1
  barrier2 := h.barrier2_moves hm hbarrier2

/-! ## The files -/

/-- `φ` changes no more than the first words. -/
structure KeepsMade (φ : ShmemFile → ShmemFile) : Prop where
  size (f : ShmemFile) : (φ f).size = f.size
  id (f : ShmemFile) : (φ f).id = f.id
  round (f : ShmemFile) : (φ f).round = f.round
  mapped (f : ShmemFile) : (φ f).mapped = f.mapped

theorem KeepsMade.same : KeepsMade fun f => f :=
  ⟨fun _ => rfl, fun _ => rfl, fun _ => rfl, fun _ => rfl⟩

theorem KeepsMade.extends (hm : Moves s s' pe c next)
    (hle : c.pc.rank ≤ AllocCall.stage c.round next) {φ : ShmemFile → ShmemFile}
    (hφ : KeepsMade φ) {i : ℕ} (hfiles : s'.files = s.files.modify i φ) : Extends s s' :=
  hm.extends_of_files hle fun j f hf => by
    refine ⟨if i = j then φ f else f, ?_, ?_⟩
    · rw [hfiles, List.getElem?_modify, hf]
      split <;> rfl
    · split
      · exact ⟨hφ.size f, hφ.id f, hφ.round f, by rw [hφ.mapped]; exact List.Subset.refl _⟩
      · exact ⟨rfl, rfl, rfl, List.Subset.refl _⟩

/-- The files are still of different rounds when one of them is changed. -/
theorem FilesOk.inj_modify (h : FilesOk s) (φ : ShmemFile → ShmemFile)
    (hφ : ∀ f : ShmemFile, (φ f).round = f.round) (i j₁ : ℕ) (f₁ : ShmemFile)
    (hf₁ : (s.files.modify i φ)[j₁]? = some f₁) (j₂ : ℕ) (f₂ : ShmemFile)
    (hf₂ : (s.files.modify i φ)[j₂]? = some f₂) (hsame : f₁.round = f₂.round) : j₁ = j₂ := by
  rw [List.getElem?_modify] at hf₁ hf₂
  obtain ⟨f₁, hold₁, rfl⟩ := Option.map_eq_some_iff.mp hf₁
  obtain ⟨f₂, hold₂, rfl⟩ := Option.map_eq_some_iff.mp hf₂
  have hkeep (j : ℕ) (f : ShmemFile) : (if i = j then φ f else f).round = f.round := by
    split
    · exact hφ f
    · rfl
  rw [hkeep, hkeep] at hsame
  exact h.inj j₁ f₁ hold₁ j₂ f₂ hold₂ hsame

/-- An access that leaves the id, by a PE that has bumped it if it holds the mutex after it -/
structure LeavesMade (s s' : AllocState numPes) (pe : ℕ) (c : AllocCall) (next : Option AllocCall)
    (g : AllocGroup numPes) : Prop where
  round : s.rounds[c.round]? = some g
  le : c.pc.rank ≤ AllocCall.stage c.round next
  current : pe = g.firstPe → 3 ≤ AllocCall.stage c.round next →
    AllocCall.stage c.round next ≤ 17 → 3 ≤ c.pc.rank
  id_eq : s'.id = s.id

section Files

variable (hm : Moves s s' pe c next) (hl : LeavesMade s s' pe c next g)
include hm hl

theorem Moves.holds_started (hholds : s'.Holds r g') (hlow : 3 ≤ s'.stage r g'.firstPe) :
    s.Holds r g' ∧ 3 ≤ s.stage r g'.firstPe := by
  have hround := hholds.round
  rw [hm.rounds] at hround
  have hhigh := hholds.le
  rcases hm.stage_cases r g'.firstPe with ⟨rfl, hfirst, hbefore, hafter⟩ | hsame
  · obtain rfl := Option.some.inj (hl.round.symm.trans hround)
    rw [hafter] at hlow hhigh
    have hrank := hl.current hfirst.symm hlow hhigh
    have := c.pc.rank_lt
    exact ⟨⟨hround, by omega, by omega⟩, by omega⟩
  · exact ⟨⟨hround, by omega, by omega⟩, by omega⟩

theorem FileMade.moves (h : FileMade s f g')
    (hmap : f.round = c.round → 7 ≤ AllocCall.stage c.round next → 7 ≤ c.pc.rank)
    {φ : ShmemFile → ShmemFile} (hφ : KeepsMade φ) : FileMade s' (φ f) g' where
  round := by rw [hφ.round, hm.rounds, h.round]
  size_eq := (hφ.size f).trans h.size_eq
  nodup := by
    rw [hφ.mapped]
    exact h.nodup
  fits := by
    rw [hφ.mapped]
    exact h.fits
  mem_iff q := by
    rw [hφ.mapped, hφ.round, h.mem_iff]
    refine and_congr_right fun _ => ?_
    rcases hm.stage_cases f.round q with ⟨hround, -, hbefore, hafter⟩ | hsame
    · rw [hbefore, hafter]
      exact ⟨fun hrank => hrank.trans hl.le, hmap hround⟩
    · rw [hsame]
  started := by
    rw [hφ.round]
    exact h.started.trans (hm.stage_le hl.le _ _)
  id_le := by
    rw [hφ.id, hl.id_eq]
    exact h.id_le
  current r g₁ hholds hlow := by
    obtain ⟨hholds', hlow'⟩ := hm.holds_started hl hholds hlow
    rw [hφ.round, hφ.id, hl.id_eq]
    exact h.current r g₁ hholds' hlow'

/-- The file of another round -/
theorem FileOk.moves_other (h : FileOk s f g') (hne : f.round ≠ c.round) : FileOk s' f g' where
  made := h.made.moves hm hl (fun hround => absurd hround hne) .same
  cnt_eq p hp := by
    have hsame : s'.stage f.round = s.stage f.round := funext fun q => hm.stage_round hne
    rw [hsame]
    exact h.cnt_eq p hp
  header_eq := by
    rw [hm.stage_round hne]
    exact h.header_eq

/-- The counter is as it was if the access is neither of the two to it. -/
theorem FileOk.cnt_quiet (h : FileOk s f g)
    (hcnt : 12 ≤ AllocCall.stage c.round next → 12 ≤ c.pc.rank)
    (hfirst : pe = g.firstPe → 11 ≤ AllocCall.stage c.round next → 11 ≤ c.pc.rank) :
    ∀ p ∈ g.pes, s'.stage f.round p ≤ 12 →
      f.cnt = (if 11 ≤ s'.stage f.round g.firstPe then (g.pes.length : ℤ) else 0) -
        g.pes.countP (12 ≤ s'.stage f.round ·) := by
  intro p hp hlow
  have hadd : 11 ≤ s'.stage f.round g.firstPe ↔ 11 ≤ s.stage f.round g.firstPe := by
    rcases hm.stage_cases f.round g.firstPe with ⟨-, hself, hbefore, hafter⟩ | hsame
    · rw [hbefore, hafter]
      exact ⟨hfirst hself.symm, fun hrank => hrank.trans hl.le⟩
    · rw [hsame]
  have hsub (q : ℕ) : 12 ≤ s'.stage f.round q ↔ 12 ≤ s.stage f.round q := by
    rcases hm.stage_cases f.round q with ⟨-, -, hbefore, hafter⟩ | hsame
    · rw [hbefore, hafter]
      exact ⟨hcnt, fun hrank => hrank.trans hl.le⟩
    · rw [hsame]
  rw [h.cnt_eq p hp ((hm.stage_le hl.le _ _).trans hlow)]
  simp only [hadd, hsub]

omit hl in
theorem FileOk.header_quiet (h : FileOk s f g)
    (hfirst : pe = g.firstPe → 8 ≤ AllocCall.stage c.round next → 8 ≤ c.pc.rank)
    (hlow : 8 ≤ s'.stage f.round g.firstPe) : f.header = f.id := by
  refine h.header_eq ?_
  rcases hm.stage_cases f.round g.firstPe with ⟨-, hself, hbefore, hafter⟩ | hsame
  · rw [hbefore]
    exact hfirst hself.symm (hafter ▸ hlow)
  · exact hsame ▸ hlow

/-- The file of the round, where the access is not one of those to its first words -/
theorem FileOk.moves_quiet (h : FileOk s f g)
    (hmap : 7 ≤ AllocCall.stage c.round next → 7 ≤ c.pc.rank)
    (hcnt : 12 ≤ AllocCall.stage c.round next → 12 ≤ c.pc.rank)
    (hfirst : pe = g.firstPe → (11 ≤ AllocCall.stage c.round next → 11 ≤ c.pc.rank) ∧
      (8 ≤ AllocCall.stage c.round next → 8 ≤ c.pc.rank)) : FileOk s' f g where
  made := h.made.moves hm hl (fun _ => hmap) .same
  cnt_eq := h.cnt_quiet hm hl hcnt fun hself => (hfirst hself).1
  header_eq := h.header_quiet hm fun hself => (hfirst hself).2

theorem FilesOk.moves_quiet (h : FilesOk s) (hfiles : s'.files = s.files)
    (hmap : 7 ≤ AllocCall.stage c.round next → 7 ≤ c.pc.rank)
    (hcnt : 12 ≤ AllocCall.stage c.round next → 12 ≤ c.pc.rank)
    (hfirst : pe = g.firstPe → (11 ≤ AllocCall.stage c.round next → 11 ≤ c.pc.rank) ∧
      (8 ≤ AllocCall.stage c.round next → 8 ≤ c.pc.rank)) : FilesOk s' where
  each i f hf := by
    rw [hfiles] at hf
    obtain ⟨g', hok⟩ := h.each i f hf
    by_cases hround : f.round = c.round
    · obtain rfl := Option.some.inj (hl.round.symm.trans (hround ▸ hok.made.round))
      exact ⟨g, hok.moves_quiet hm hl hmap hcnt hfirst⟩
    · exact ⟨g', hok.moves_other hm hl hround⟩
  inj := by
    rw [hfiles]
    exact h.inj

/-- An access to one of the first words of the file of the round -/
theorem FilesOk.moves_word (h : FilesOk s) {i : ℕ} (hf : s.files[i]? = some f)
    (hround : f.round = c.round) (hmap : 7 ≤ AllocCall.stage c.round next → 7 ≤ c.pc.rank)
    {φ : ShmemFile → ShmemFile} (hφ : KeepsMade φ) (hfiles : s'.files = s.files.modify i φ)
    (hcnt : FileOk s f g → ∀ p ∈ g.pes, s'.stage c.round p ≤ 12 →
      (φ f).cnt = (if 11 ≤ s'.stage c.round g.firstPe then (g.pes.length : ℤ) else 0) -
        g.pes.countP (12 ≤ s'.stage c.round ·))
    (hheader : FileOk s f g → 8 ≤ s'.stage c.round g.firstPe → (φ f).header = f.id) :
    FilesOk s' where
  each j f' hf' := by
    rw [hfiles, List.getElem?_modify] at hf'
    obtain ⟨f₀, hf₀, rfl⟩ := Option.map_eq_some_iff.mp hf'
    obtain ⟨g', hok⟩ := h.each j f₀ hf₀
    by_cases hj : i = j
    · subst hj
      obtain rfl := Option.some.inj (hf.symm.trans hf₀)
      obtain rfl := Option.some.inj (hl.round.symm.trans (hround ▸ hok.made.round))
      rw [if_pos rfl]
      refine ⟨g, hok.made.moves hm hl (fun _ => hmap) hφ, ?_, ?_⟩
      · rw [hφ.round, hround]
        exact hcnt hok
      · rw [hφ.round, hφ.id, hround]
        exact hheader hok
    · rw [if_neg hj]
      refine ⟨g', hok.moves_other hm hl fun hsame => hj ?_⟩
      exact h.inj i f hf j f₀ hf₀ (hround.trans hsame.symm)
  inj := by
    rw [hfiles]
    exact h.inj_modify φ hφ.round i

end Files

/-! ## Accesses that only read -/

theorem AllocInv.moves (h : AllocInv s) (hm : Moves s s' pe c next) (he : Extends s s')
    (hr : s.rounds[c.round]? = some g) (hle : c.pc.rank ≤ AllocCall.stage c.round next)
    (hnext : ∀ c' ∈ next, CallOk s' pe c' g)
    (hpass : Passes s c.round g c.pc.rank (AllocCall.stage c.round next))
    (hwords : WordsOk s') (hfiles : FilesOk s')
    (hret : ∀ ret ∈ s'.returned, ret ∈ s.returned ∨ ∃ f, RetOk s' ret g f) : AllocInv s' where
  call q d hd := by
    by_cases hq : q = pe
    · rw [hq, hm.calls_self] at hd
      exact ⟨g, hq ▸ hnext d hd⟩
    · rw [hm.calls_of_ne hq] at hd
      obtain ⟨g', hok⟩ := h.call q d hd
      exact ⟨g', he.callOk hok⟩
  gates := h.gates.moves hm hr hle hpass
  words := hwords
  files := hfiles
  ret ret hmem := by
    rcases hret ret hmem with hold | hnew
    · obtain ⟨g', f, hok⟩ := h.ret ret hold
      exact ⟨g', he.retOk hok⟩
    · exact ⟨g, hnew⟩

theorem barrier1_update {c' : AllocCall} {pc : AllocPc} (h : WordsOk s)
    (hc : s.calls pe = some c) (hpc : c.pc = pc) (pc' : AllocPc) (hpc' : c'.pc = pc')
    (hlow : 5 ≤ pc'.rank ↔ 5 ≤ pc.rank) (hhigh : pc'.rank ≤ 14 ↔ pc.rank ≤ 14) :
    s.barrier1 = Function.update s.barrier1 pe (AllocCall.markWord s.id (some c')) := by
  subst hpc hpc'
  have hword : AllocCall.markWord s.id (some c') = s.barrier1 pe := by
    rw [h.barrier1, hc, AllocCall.markWord, AllocCall.markWord]
    exact if_congr (and_congr hlow hhigh) rfl rfl
  rw [hword, Function.update_eq_self]

theorem barrier2_update {c' : AllocCall} {pc : AllocPc} (h : WordsOk s)
    (hc : s.calls pe = some c) (hpc : c.pc = pc) (pc' : AllocPc) (hpc' : c'.pc = pc')
    (hlow : 10 ≤ pc'.rank ↔ 10 ≤ pc.rank) (hhigh : pc'.rank ≤ 16 ↔ pc.rank ≤ 16)
    (haddr : 10 ≤ pc.rank → c'.addr = c.addr) :
    s.barrier2 = Function.update s.barrier2 pe (AllocCall.addrWord (some c')) := by
  subst hpc hpc'
  have hword : AllocCall.addrWord (some c') = s.barrier2 pe := by
    rw [h.barrier2, hc, AllocCall.addrWord, AllocCall.addrWord]
    by_cases hrank : 10 ≤ c.pc.rank
    · rw [haddr hrank]
      exact if_congr (and_congr hlow hhigh) rfl rfl
    · rw [if_neg fun hand => hrank (hlow.mp hand.1), if_neg fun hand => hrank hand.1]
  rw [hword, Function.update_eq_self]

/-- What an access from `pc` to `pc'` leaves as it is: who has the mutex, and the files -/
structure Leaves (first : Prop) (pc pc' : AllocPc) : Prop where
  le : pc.rank ≤ pc'.rank
  files : ∀ b ∈ [7, 12], b ≤ pc'.rank → b ≤ pc.rank
  first : first → ∀ b ∈ [2, 3, 8, 11], b ≤ pc'.rank → b ≤ pc.rank

theorem Leaves.leavesMade {c' : AllocCall} (hl : Leaves (pe = g.firstPe) c.pc c'.pc)
    (hok : CallOk s pe c g) (hround : c'.round = c.round) (hid : s'.id = s.id) :
    LeavesMade s s' pe c (some c') g := by
  have hstage := stage_some hround
  refine ⟨hok.round, hstage ▸ hl.le, fun hself hlow _ => ?_, hid⟩
  rw [hstage] at hlow
  exact hl.first hself 3 (by decide) hlow

/-- A PE goes on to its next access, and may change its own words. -/
theorem AllocInv.goOn (h : AllocInv s) (hc : s.calls pe = some c) (hok : CallOk s pe c g)
    {c' : AllocCall} {pc : AllocPc} {barrier1 barrier2 : ℕ → ℕ} (hpc : c.pc = pc) (pc' : AllocPc)
    (hpc' : c'.pc = pc') (hround : c'.round = c.round) (hl : Leaves (pe = g.firstPe) pc pc')
    (hpass : Passes s c.round g pc.rank pc'.rank)
    (hbarrier1 : barrier1 = Function.update s.barrier1 pe (AllocCall.markWord s.id (some c')))
    (hbarrier2 : barrier2 = Function.update s.barrier2 pe (AllocCall.addrWord (some c')))
    (hknows : ∀ s' : AllocState numPes, Extends s s' → s'.stage c.round pe = pc'.rank →
      c'.Knows s' pe g pc') :
    AllocInv ({ s with barrier1 := barrier1, barrier2 := barrier2 }.setCall pe c') := by
  subst hpc hpc'
  have hm : Moves s ({ s with barrier1 := barrier1, barrier2 := barrier2 }.setCall pe c') pe c
      (some c') := .goOn hc rfl hround rfl
  have hstage := stage_some hround
  have hle : c.pc.rank ≤ AllocCall.stage c.round (some c') := hstage ▸ hl.le
  have he := hm.extends_of_eq hle rfl
  have hmade : LeavesMade s ({ s with barrier1 := barrier1, barrier2 := barrier2 }.setCall pe c')
      pe c (some c') g := hl.leavesMade hok hround rfl
  refine h.moves hm he hok.round hle (fun d hd => ?_) (hstage.symm ▸ hpass) ?_ ?_
    fun ret hmem => .inl hmem
  · obtain rfl := Option.some.inj hd
    exact ⟨hround ▸ hok.round, hok.mem, hknows _ he (hm.stage_self.trans hstage)⟩
  · refine h.words.moves hm hok.round (fun hself => ?_) rfl rfl hbarrier1 hbarrier2
    rw [hstage]
    have h2 := hl.first hself 2 (by decide)
    exact ⟨⟨fun hlow => hlow.trans hl.le, h2⟩, hl.first hself 3 (by decide),
      Nat.le_of_lt_succ c'.pc.rank_lt⟩
  · refine h.files.moves_quiet hm hmade rfl ?_ ?_ fun hself => ?_
    · rw [hstage]
      exact hl.files 7 (by decide)
    · rw [hstage]
      exact hl.files 12 (by decide)
    · rw [hstage]
      exact ⟨hl.first hself 11 (by decide), hl.first hself 8 (by decide)⟩

/-- The ranks `m` and `n` are on the same side of what the words tell. -/
def Quiet (m n : ℕ) : Prop :=
  m ≤ n ∧ ∀ b ∈ [5, 7, 10, 12, 15, 17], b ≤ n → b ≤ m

instance instDecidableQuiet (m n : ℕ) : Decidable (Quiet m n) := inferInstanceAs (Decidable (_ ∧ _))

/-- A PE that reads what it waits for, or that goes on to its next access -/
theorem AllocInv.quiet (h : AllocInv s) (hc : s.calls pe = some c) (hok : CallOk s pe c g)
    {c' : AllocCall} {pc : AllocPc} (hpc : c.pc = pc) (pc' : AllocPc) (hpc' : c'.pc = pc')
    (hround : c'.round = c.round) (haddr : c'.addr = c.addr) (hquiet : Quiet pc.rank pc'.rank)
    (hfirst : pe = g.firstPe → ∀ b ∈ [2, 3, 8, 11], b ≤ pc'.rank → b ≤ pc.rank)
    (hpass : Passes s c.round g pc.rank pc'.rank) (hknows : c'.Knows s pe g pc') :
    AllocInv (s.setCall pe c') := by
  obtain ⟨hle, hbounds⟩ := hquiet
  have h5 := hbounds 5 (by decide)
  have h10 := hbounds 10 (by decide)
  have h15 := hbounds 15 (by decide)
  have h17 := hbounds 17 (by decide)
  refine h.goOn hc hok hpc pc' hpc' hround ⟨hle, fun b hb => hbounds b ?_, hfirst⟩ hpass
    (barrier1_update h.words hc hpc pc' hpc' (by omega) (by omega))
    (barrier2_update h.words hc hpc pc' hpc' (by omega) (by omega) fun _ => haddr)
    fun s' he _ => ?_
  · simp only [List.mem_cons, List.not_mem_nil, or_false] at hb ⊢
    omega
  · subst hpc'
    exact (he.callOk ⟨hround ▸ hok.round, hok.mem, hknows⟩).knows

end Lamellar.Shmem
